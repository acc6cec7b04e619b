import Ostep.Lib.Bump
import Ostep.Lib.GetD
import Ostep.Fs.Mkfs
import Ostep.Fs.Bitmap

/-!
# What `mkfs` has written

A file is its data and its blocks (`File`), and its inode follows from them. `Disk` says that an image holds the content of all files,
that the blocks handed out so far are the files' own, each of one file, and that the rest is zeros. `iappendLoop_ok` is the
rule for the loop of `iappend`: it adds the data, and `freeblock` grows by what the longer file costs.
-/

namespace Ostep.Fs.Mkfs

open Xcheck (nonzero)

/-! ### Numbers in buffers -/

section
variable {buf : Nat → UInt8} {p : Nat}

theorem uintOf_xint {x : Nat} (hx : x < 2 ^ 32) (h : ∀ k < 4, buf (p + k) = xint x k) : uintOf buf p = x := by
  have h0 := h 0 (by omega)
  rw [Nat.add_zero] at h0
  unfold uintOf
  rw [h0, h 1 (by omega), h 2 (by omega), h 3 (by omega)]
  unfold xint
  rw [byteOf_toNat, byteOf_toNat, byteOf_toNat, byteOf_toNat]
  omega

theorem shortOf_xshort {x : Int} (hx : IsShort x) (h : ∀ k < 2, buf (p + k) = xshort x k) : shortOf buf p = x := by
  have hlt : toUint16 x < 2 ^ 16 := by unfold toUint16; omega
  have h0 := h 0 (by omega)
  rw [Nat.add_zero] at h0
  have hval : (buf p).toNat + 2 ^ 8 * (buf (p + 1)).toNat = toUint16 x := by
    rw [h0, h 1 (by omega), xshort, xshort, byteOf_toNat, byteOf_toNat]
    omega
  rw [shortOf, hval, toInt16_toUint16 hx]

theorem dinodeOf_mem {d : DInode} (hd : d.Wf) (hrest : ∀ j ≥ 13, d.addrs j = 0) (h : ∀ k < 64, buf (p + k) = d.mem k) :
    dinodeOf buf p = d := by
  obtain ⟨htype, hmajor, hminor, hnlink, hsize, haddrs⟩ := hd
  have hshort : ∀ w < 4, ∀ k < 2, buf (p + 2 * w + k) = xshort (d.short w) k := by
    intro w hw k hk
    rw [Nat.add_assoc, h _ (by omega), d.mem_short w hk hw]
  have h0 := shortOf_xshort htype (hshort 0 (by omega))
  have h1 := shortOf_xshort hmajor (hshort 1 (by omega))
  have h2 := shortOf_xshort hminor (hshort 2 (by omega))
  have h3 := shortOf_xshort hnlink (hshort 3 (by omega))
  have h4 : uintOf buf (p + 8) = d.size := uintOf_xint hsize fun k hk => by
    rw [Nat.add_assoc, h _ (by omega), d.mem_size hk]
  have h5 : (fun j => if j < 13 then uintOf buf (p + 12 + j * 4) else 0) = d.addrs := by
    funext j
    split
    · next hj =>
      refine uintOf_xint (haddrs j hj) fun k hk => ?_
      rw [show p + 12 + j * 4 + k = p + (12 + j * 4 + k) by omega, h _ (by omega), d.mem_addr j hk]
    · next hj => exact (hrest j (by omega)).symm
  unfold dinodeOf
  rw [h5, h4, h1, h2, h3]
  rw [Nat.mul_zero, Nat.add_zero] at h0
  rw [h0]

end

/-! ### Blocks -/

section
variable {img : Image} {sec : Nat}

theorem rsect_ok (h : sec * BSIZE + BSIZE ≤ img.len) : rsect sec img = .ok fun k => img.byte (sec * BSIZE + k) := if_pos h

theorem wsect_len (h : sec * BSIZE + BSIZE ≤ img.len) (buf : Nat → UInt8) : (wsect sec buf img).len = img.len :=
  Nat.max_eq_left h

theorem wsect_of_ne {p : Nat} (h : p / BSIZE ≠ sec) (buf : Nat → UInt8) : (wsect sec buf img).byte p = img.byte p := if_neg h

variable (img sec) in
theorem wsect_self (k : Nat) (hk : k < BSIZE) (buf : Nat → UInt8) : (wsect sec buf img).byte (sec * BSIZE + k) = buf k := by
  unfold BSIZE at hk
  have hdiv : (sec * BSIZE + k) / BSIZE = sec := by unfold BSIZE; omega
  have hmod : (sec * BSIZE + k) % BSIZE = k := by unfold BSIZE; omega
  show (if (sec * BSIZE + k) / BSIZE = sec then buf ((sec * BSIZE + k) % BSIZE) else _) = _
  rw [if_pos hdiv, hmod]

variable (img sec) in
theorem wsect_bcopy (src : Nat → UInt8) {q n : Nat} (hq : q + n ≤ BSIZE) (p : Nat) :
    (wsect sec (bcopy src q n fun k => img.byte (sec * BSIZE + k)) img).byte p =
      if sec * BSIZE + q ≤ p ∧ p < sec * BSIZE + q + n then src (p - (sec * BSIZE + q)) else img.byte p := by
  by_cases hp : p / BSIZE = sec
  · have hsplit : p = sec * BSIZE + p % BSIZE := by rw [← hp]; exact (Nat.div_add_mod' p BSIZE).symm
    have hlt : p % BSIZE < BSIZE := Nat.mod_lt p (by decide)
    rw [hsplit, wsect_self _ _ _ hlt, bcopy]
    by_cases hin : q ≤ p % BSIZE ∧ p % BSIZE < q + n
    · rw [if_pos hin, if_pos (by omega)]
      congr 1
      omega
    · rw [if_neg hin, if_neg (by omega)]
  · rw [wsect_of_ne hp, if_neg]
    rintro ⟨h1, h2⟩
    unfold BSIZE at *
    omega

end

/-! ### Files -/

structure File where
  type : Int
  nlink : Int
  blocks : List Nat
  ind : Nat
  data : List UInt8

def File.free : File := ⟨0, 0, [], 0, []⟩

def File.own (f : File) : List Nat := f.blocks ++ nonzero f.ind

def File.addrs (f : File) (j : Nat) : Nat := if j < 12 then f.blocks.getD j 0 else if j = 12 then f.ind else 0

def File.dinode (f : File) : DInode := ⟨f.type, 0, 0, f.nlink, f.data.length, f.addrs⟩

/-- The blocks of the file have its data and zeros behind it, and its indirect block lists those from the 13th on. -/
structure Holds (byte : Nat → UInt8) (f : File) : Prop where
  ind : 12 < f.blocks.length → f.ind ≠ 0
  entry : f.ind ≠ 0 → ∀ k < 128, ∀ j < 4, byte (f.ind * 512 + k * 4 + j) = xint (f.blocks.getD (12 + k) 0) j
  content : ∀ p < 512 * f.blocks.length, byte (f.blocks.getD (p / 512) 0 * 512 + p % 512) = f.data.getD p 0
  len : f.data.length ≤ 512 * f.blocks.length

structure Disk (img : Image) (fb : Nat) (files : Nat → File) : Prop where
  len : img.len = 1000 * 512
  owns : Owns 59 fb fun i => (files i).own
  holds : ∀ i, Holds img.byte (files i)
  fresh : ∀ p, fb * 512 ≤ p → img.byte p = 0

variable {img img' : Image} {fb fb' i : Nat} {files : Nat → File} {f f' : File}

theorem getD_mem_blocks {j : Nat} (hj : j < f.blocks.length) : f.blocks.getD j 0 ∈ f.blocks := by
  rw [List.getD_eq_getElem?_getD, List.getElem?_eq_getElem hj]
  exact List.getElem_mem hj

theorem getD_mem_own {j : Nat} (hj : j < f.blocks.length) : f.blocks.getD j 0 ∈ f.own := List.mem_append_left _ (getD_mem_blocks hj)

theorem ind_mem_own (h : f.ind ≠ 0) : f.ind ∈ f.own := by
  rw [File.own, nonzero, if_neg h]
  simp

theorem Holds.congr {byte byte' : Nat → UInt8} (h : Holds byte f) (hsame : ∀ p, p / 512 ∈ f.own → byte' p = byte p) : Holds byte' f where
  ind := h.ind
  entry := fun h0 k hk j hj => by
    rw [← h.entry h0 k hk j hj]
    refine hsame _ ?_
    rw [show (f.ind * 512 + k * 4 + j) / 512 = f.ind by omega]
    exact ind_mem_own h0
  content := fun p hp => by
    rw [← h.content p hp]
    refine hsame _ ?_
    rw [show (f.blocks.getD (p / 512) 0 * 512 + p % 512) / 512 = f.blocks.getD (p / 512) 0 by omega]
    exact getD_mem_own (Nat.div_lt_of_lt_mul hp)
  len := h.len

theorem Disk.change (h : Disk img fb files) (hlen : img'.len = img.len) (hf : Holds img'.byte f')
    (howns : Owns 59 fb' (Function.update (fun i => (files i).own) i f'.own)) (hle : fb ≤ fb')
    (hbyte : ∀ p, p / 512 ∉ (files i).own → img'.byte p = img.byte p) : Disk img' fb' (Function.update files i f') where
  len := hlen.trans h.len
  owns := by
    have hcomp : (fun j => (Function.update files i f' j).own) = Function.update (fun i => (files i).own) i f'.own :=
      funext fun j => Function.apply_update (fun _ => File.own) files i f' j
    rw [hcomp]
    exact howns
  holds := fun j => by
    by_cases hj : j = i
    · rw [hj, Function.update_self]
      exact hf
    · rw [Function.update_of_ne hj]
      exact (h.holds j).congr fun p hp => hbyte p fun hp' => hj (h.owns.unique hp hp')
  fresh := fun p hp => by
    have hnot : p / 512 ∉ (files i).own := fun hmem => by
      have := (h.owns.range hmem).2
      omega
    rw [hbyte p hnot]
    exact h.fresh p (Nat.le_trans (Nat.mul_le_mul_right 512 hle) hp)

/-! ### Growing a file -/

theorem Holds.concat {byte byte' : Nat → UInt8} {b : Nat} (h : Holds byte f) (hind : 12 ≤ f.blocks.length → f.ind ≠ 0)
    (hentry : f.ind ≠ 0 → ∀ k < 128, ∀ j < 4, byte' (f.ind * 512 + k * 4 + j) = xint ((f.blocks ++ [b]).getD (12 + k) 0) j)
    (hsame : ∀ p, p / 512 ∈ f.blocks → byte' p = byte p) (hzero : ∀ k < 512, byte' (b * 512 + k) = 0) :
    Holds byte' { f with blocks := f.blocks ++ [b] } where
  ind := fun hlt => hind (by
    have : 12 < (f.blocks ++ [b]).length := hlt
    rw [List.length_append, List.length_singleton] at this
    omega)
  entry := hentry
  content := fun p hp => by
    have hp' : p < 512 * (f.blocks ++ [b]).length := hp
    rw [List.length_append, List.length_singleton] at hp'
    show byte' ((f.blocks ++ [b]).getD (p / 512) 0 * 512 + p % 512) = f.data.getD p 0
    by_cases hold : p < 512 * f.blocks.length
    · have hlt := Nat.div_lt_of_lt_mul hold
      have hdiv : (f.blocks.getD (p / 512) 0 * 512 + p % 512) / 512 = f.blocks.getD (p / 512) 0 := by omega
      rw [getD_append_lt hlt, hsame _ (by rw [hdiv]; exact getD_mem_blocks hlt), h.content p hold]
    · have hdiv : p / 512 = f.blocks.length := by omega
      have hlen := h.len
      rw [hdiv, getD_concat_self, hzero _ (Nat.mod_lt p (by omega)), getD_of_le (by omega)]
  len := by
    have hlen := h.len
    show f.data.length ≤ 512 * (f.blocks ++ [b]).length
    rw [List.length_append]
    omega

theorem own_concat {b : Nat} : (File.own { f with blocks := f.blocks ++ [b] }).Perm (b :: f.own) := by
  show (f.blocks ++ [b] ++ nonzero f.ind).Perm (b :: (f.blocks ++ nonzero f.ind))
  rw [List.append_assoc]
  exact List.perm_middle

theorem Disk.fresh_block (h : Disk img fb files) (k : Nat) : img.byte (fb * 512 + k) = 0 := h.fresh _ (Nat.le_add_right _ _)

theorem Disk.add_direct (h : Disk img fb files) (hlt : (files i).blocks.length < 12) (hind : (files i).ind = 0) :
    Disk img (fb + 1) (Function.update files i { files i with blocks := (files i).blocks ++ [fb] }) := by
  refine h.change rfl ?_ (h.owns.take i own_concat) (Nat.le_succ _) fun _ _ => rfl
  exact (h.holds i).concat (fun hge => by omega) (fun h0 => absurd hind h0) (fun _ _ => rfl) fun k _ => h.fresh_block k

theorem Disk.add_ind (h : Disk img fb files) (hlen : (files i).blocks.length = 12) (hind : (files i).ind = 0) :
    Disk img (fb + 1) (Function.update files i { files i with ind := fb }) := by
  have hpos := h.owns.le
  have hperm : (File.own { files i with ind := fb }).Perm (fb :: (files i).own) := by
    rw [File.own, File.own, nonzero, nonzero, if_neg (by show ¬ fb = 0; omega), if_pos hind, List.append_nil]
    exact List.perm_append_singleton _ _
  have hf := h.holds i
  refine h.change rfl ⟨fun _ => by show fb ≠ 0; omega, fun _ k _ j _ => ?_, hf.content, hf.len⟩ (h.owns.take i hperm) (Nat.le_succ _) fun _ _ => rfl
  show img.byte (fb * 512 + k * 4 + j) = xint ((files i).blocks.getD (12 + k) 0) j
  rw [Nat.add_assoc, h.fresh_block, getD_of_le (by omega)]
  show (0 : UInt8) = UInt8.ofNat (0 / 2 ^ (8 * j))
  rw [Nat.zero_div]
  rfl

def listed (f : File) (b : Nat) (img : Image) : Image :=
  wsect f.ind (bcopy (xint b) ((f.blocks.length - 12) * 4) 4 fun k => img.byte (f.ind * BSIZE + k)) img

theorem Disk.add_indirect (h : Disk img fb files) (hfb : fb ≤ 1000) (hge : 12 ≤ (files i).blocks.length) (hlt : (files i).blocks.length < 140)
    (hind : (files i).ind ≠ 0) :
    Disk (listed (files i) fb img) (fb + 1) (Function.update files i { files i with blocks := (files i).blocks ++ [fb] }) := by
  have hrange := h.owns.range (ind_mem_own hind)
  have hlen := h.len
  have hin : (files i).ind * BSIZE + BSIZE ≤ img.len := by unfold BSIZE; omega
  have hsame : ∀ p, p / 512 ≠ (files i).ind → (listed (files i) fb img).byte p = img.byte p := fun p hp => wsect_of_ne hp _
  refine h.change (wsect_len hin _) ?_ (h.owns.take i own_concat) (Nat.le_succ _) fun p hp => hsame p fun heq => hp (heq ▸ ind_mem_own hind)
  refine (h.holds i).concat (fun _ => hind) (fun _ k hk j hj => ?_) (fun p hp => hsame p fun heq => ?_) fun k hk => ?_
  · -- the entry of the new block, or one of the others
    have hbyte := wsect_bcopy img (files i).ind (xint fb) (q := ((files i).blocks.length - 12) * 4) (n := 4)
      (by unfold BSIZE; omega) ((files i).ind * 512 + k * 4 + j)
    refine hbyte.trans ?_
    unfold BSIZE
    by_cases hnew : 12 + k = (files i).blocks.length
    · rw [if_pos (by omega), hnew, getD_concat_self]
      congr 1
      omega
    · rw [if_neg (by omega), getD_concat_of_ne hnew]
      exact (h.holds i).entry hind k hk j hj
  · -- the indirect block is not a data block
    have hnodup := h.owns.nodup i
    rw [File.own, nonzero, if_neg hind] at hnodup
    exact (List.nodup_append.1 hnodup).2.2 _ hp _ (List.mem_singleton.2 rfl) heq
  · rw [hsame _ (by omega)]
    exact h.fresh_block k

theorem Disk.write (h : Disk img fb files) (hfb : fb ≤ 1000) {x : Nat} {p : List UInt8}
    (hlast : (files i).blocks.getD ((files i).data.length / 512) 0 = x) (hlt : (files i).data.length / 512 < (files i).blocks.length)
    (hp : (files i).data.length % 512 + p.length ≤ 512) :
    Disk (wsect x (bcopy (fun k => p.getD k 0) ((files i).data.length % 512) p.length fun k => img.byte (x * BSIZE + k)) img) fb
      (Function.update files i { files i with data := (files i).data ++ p }) := by
  have hmem : x ∈ (files i).blocks := hlast ▸ getD_mem_blocks hlt
  have hown : x ∈ (files i).own := List.mem_append_left _ hmem
  have hrange := h.owns.range hown
  have hlen := h.len
  have hin : x * BSIZE + BSIZE ≤ img.len := by unfold BSIZE; omega
  have hf := h.holds i
  have hnodup := h.owns.nodup i
  have hbyte := fun q => wsect_bcopy img x (fun k => p.getD k 0) (q := (files i).data.length % 512) (n := p.length)
    (by unfold BSIZE; omega) q
  refine h.change (wsect_len hin _) ⟨hf.ind, fun h0 k hk j hj => ?_, fun q hq => ?_, ?_⟩ (h.owns.update i (.refl _)) (Nat.le_refl _)
    fun q hq => wsect_of_ne (fun heq => hq (heq ▸ hown)) _
  · -- the indirect block is not a data block
    rw [wsect_of_ne]
    · exact hf.entry h0 k hk j hj
    · intro heq
      rw [File.own, nonzero, if_neg h0] at hnodup
      refine (List.nodup_append.1 hnodup).2.2 _ hmem _ (List.mem_singleton.2 rfl) ?_
      show x = (files i).ind
      have hk' : ((files i).ind * 512 + k * 4 + j) / 512 = (files i).ind := by omega
      exact heq.symm.trans hk'
  · have hq' : q < 512 * (files i).blocks.length := hq
    show _ = ((files i).data ++ p).getD q 0
    show (wsect _ _ _).byte ((files i).blocks.getD (q / 512) 0 * 512 + q % 512) = _
    rw [hbyte]
    unfold BSIZE
    have hold := hf.content q hq'
    by_cases hblock : q / 512 = (files i).data.length / 512
    · rw [hblock, hlast] at hold ⊢
      by_cases hnew : (files i).data.length ≤ q ∧ q < (files i).data.length + p.length
      · rw [if_pos (by omega), getD_append_ge hnew.1]
        congr 1
        omega
      · rw [if_neg (by omega), hold]
        rcases Nat.lt_or_ge q (files i).data.length with hlt' | hge
        · rw [getD_append_lt hlt']
        · rw [getD_of_le hge, getD_of_le (by rw [List.length_append]; omega)]
    · -- another block, which lies before the data or behind its end
      have hne : (files i).blocks.getD (q / 512) 0 ≠ x := fun heq =>
        hblock (getD_inj (List.nodup_append.1 hnodup).1 (Nat.div_lt_of_lt_mul hq') hlt (heq.trans hlast.symm))
      rw [if_neg (by omega), hold]
      rcases Nat.lt_or_ge q (files i).data.length with hlt' | hge
      · rw [getD_append_lt hlt']
      · rw [getD_of_le hge, getD_of_le (by rw [List.length_append]; omega)]
  · show ((files i).data ++ p).length ≤ 512 * (files i).blocks.length
    rw [List.length_append]
    omega

/-! ### The loop of `iappend` -/

def cost (n : Nat) : Nat := (n + 511) / 512 + if 12 < (n + 511) / 512 then 1 else 0

theorem cost_congr {m n : Nat} (h : (m + 511) / 512 = (n + 511) / 512) : cost m = cost n := by
  unfold cost
  rw [h]

theorem cost_mono {m n : Nat} (h : m ≤ n) : cost m ≤ cost n := by
  unfold cost
  split <;> split <;> omega

theorem cost_succ {n : Nat} (h : n % 512 ≠ 0) : cost (n + 1) = cost n := cost_congr (by omega)

theorem cost_succ_of_full {n : Nat} (h : n % 512 = 0) (hn : n / 512 ≠ 12) : cost (n + 1) = cost n + 1 := by
  unfold cost
  split <;> split <;> omega

/-- The file has the blocks that it needs and no more. -/
structure Sized (f : File) : Prop where
  blocks : f.blocks.length = (f.data.length + 511) / 512
  ind : f.ind ≠ 0 ↔ 12 < f.blocks.length

theorem addrs_concat {b : Nat} (h : f.blocks.length < 12) :
    Function.update f.addrs f.blocks.length b = File.addrs { f with blocks := f.blocks ++ [b] } := by
  funext j
  unfold File.addrs
  by_cases hj : j = f.blocks.length
  · rw [hj, Function.update_self, if_pos h, getD_concat_self]
  · rw [Function.update_of_ne hj]
    show (if j < 12 then _ else _) = if j < 12 then (f.blocks ++ [b]).getD j 0 else _
    rw [getD_concat_of_ne hj]

theorem addrs_concat_of_le {b : Nat} (h : 12 ≤ f.blocks.length) : File.addrs { f with blocks := f.blocks ++ [b] } = f.addrs := by
  funext j
  show (if j < 12 then (f.blocks ++ [b]).getD j 0 else _) = if j < 12 then _ else _
  by_cases hj : j < 12
  · rw [if_pos hj, if_pos hj, getD_append_lt (by omega)]
  · rw [if_neg hj, if_neg hj]

theorem addrs_ind (f : File) (b : Nat) : Function.update f.addrs NDIRECT b = File.addrs { f with ind := b } := by
  funext j
  unfold File.addrs NDIRECT
  by_cases hj : j = 12
  · rw [hj, Function.update_self, if_neg (by omega), if_pos rfl]
  · rw [Function.update_of_ne hj, if_neg hj, if_neg hj]

theorem addrs_twelve (f : File) : f.addrs NDIRECT = f.ind := rfl

theorem Disk.entry (h : Disk img fb files) (hfb : fb ≤ 1000) (hind : (files i).ind ≠ 0) {k : Nat} (hk : k < 128) :
    uintOf (fun q => img.byte ((files i).ind * BSIZE + q)) (k * 4) = (files i).blocks.getD (12 + k) 0 := by
  have hlt : (files i).blocks.getD (12 + k) 0 < 2 ^ 32 := by
    rcases Nat.lt_or_ge (12 + k) (files i).blocks.length with hlt | hge
    · have := (h.owns.range (getD_mem_own hlt)).2
      omega
    · rw [getD_of_le hge]
      omega
  refine uintOf_xint hlt fun j hj => ?_
  show img.byte ((files i).ind * 512 + (k * 4 + j)) = _
  rw [← Nat.add_assoc]
  exact (h.holds i).entry hind k hk j hj

/-- What changes when file `i` becomes `f`: its own blocks, and the next free one. -/
structure Grown (s s' : St) (files : Nat → File) (i : Nat) (f : File) : Prop where
  disk : Disk s'.img s'.freeblock (Function.update files i f)
  freeinode : s'.freeinode = s.freeinode
  low : ∀ q < 59 * 512, s'.img.byte q = s.img.byte q

variable {s s' : St} {din : DInode}

theorem Grown.refl (h : Disk s.img s.freeblock files) (i : Nat) : Grown s s files i (files i) where
  disk := by
    rw [Function.update_eq_self]
    exact h
  freeinode := rfl
  low := fun _ _ => rfl

theorem Grown.trans {s'' : St} (h : Grown s s' files i f) (h' : Grown s' s'' (Function.update files i f) i f') : Grown s s'' files i f' where
  disk := by
    have := h'.disk
    rwa [Function.update_idem] at this
  freeinode := h'.freeinode.trans h.freeinode
  low := fun q hq => (h'.low q hq).trans (h.low q hq)

variable (din) in
theorem entryFor_ok {n : Nat} (h : Disk s.img s.freeblock files) (hind : (files i).ind ≠ 0) (haddrs : din.addrs = (files i).addrs) (hn : 12 ≤ n)
    (hn' : n < 140) (hlen : (files i).blocks.length = n ∨ (files i).blocks.length = n + 1) (hfit : s.freeblock + (n + 1 - (files i).blocks.length) ≤ 1000) :
    ∃ s' blocks, entryFor (n - NDIRECT) din s = .ok (blocks.getD n 0, din, s') ∧ Grown s s' files i { files i with blocks := blocks } ∧
      blocks.length = n + 1 ∧ File.addrs { files i with blocks := blocks } = (files i).addrs ∧
      s'.freeblock = s.freeblock + (n + 1 - (files i).blocks.length) := by
  have hrange := h.owns.range (ind_mem_own hind)
  have hin : (files i).ind * BSIZE + BSIZE ≤ s.img.len := by
    rw [h.len]
    unfold BSIZE
    omega
  have hentry := h.entry (by omega) hind (k := n - 12) (by omega)
  rw [Nat.add_sub_cancel' hn] at hentry
  unfold entryFor
  rw [haddrs, addrs_twelve, rsect_ok hin, ok_bind]
  show ∃ s' blocks, (if uintOf _ ((n - 12) * 4) = 0 then _ else _) = _ ∧ _
  rw [hentry]
  rcases hlen with hlen | hlen
  · -- the next free block is added
    rw [getD_of_le (by omega), if_pos rfl]
    refine ⟨⟨listed (files i) s.freeblock s.img, s.freeinode, s.freeblock + 1⟩, (files i).blocks ++ [s.freeblock], ?_,
      ⟨h.add_indirect (by omega) (by omega) (by omega) hind, rfl, fun q hq => wsect_of_ne ?_ _⟩, ?_, addrs_concat_of_le (by omega), ?_⟩
    · rw [← hlen, getD_concat_self]
      rfl
    · unfold BSIZE
      omega
    · rw [List.length_append, List.length_singleton, hlen]
    · show s.freeblock + 1 = _
      omega
  · have hne : (files i).blocks.getD n 0 ≠ 0 := by
      have := (h.owns.range (getD_mem_own (show n < (files i).blocks.length by omega))).1
      omega
    rw [if_neg hne]
    refine ⟨s, (files i).blocks, ?_, .refl h i, hlen, rfl, by omega⟩
    rw [← hentry]
    rfl

theorem blockFor_ok (h : Disk s.img s.freeblock files) (hs : Sized (files i)) (hmax : (files i).data.length < 140 * 512)
    (hfit : s.freeblock + cost ((files i).data.length + 1) ≤ 1000 + cost (files i).data.length) (haddrs : din.addrs = (files i).addrs) :
    ∃ s' blocks ind, blockFor ((files i).data.length / 512) din s = .ok (blocks.getD ((files i).data.length / 512) 0,
        { din with addrs := File.addrs { files i with blocks := blocks, ind := ind } }, s') ∧
      Grown s s' files i { files i with blocks := blocks, ind := ind } ∧
      blocks.length = (files i).data.length / 512 + 1 ∧ (ind ≠ 0 ↔ 12 < blocks.length) ∧
      s'.freeblock + cost (files i).data.length = s.freeblock + cost ((files i).data.length + 1) := by
  have hblocks := hs.blocks
  have hind := hs.ind
  have hle := h.owns.le
  unfold blockFor
  rcases Nat.lt_or_ge ((files i).data.length / 512) NDIRECT with hdirect | hindirect
  · have haddr : (files i).addrs ((files i).data.length / 512) = (files i).blocks.getD ((files i).data.length / 512) 0 := if_pos hdirect
    unfold NDIRECT at hdirect
    rw [if_pos (by exact hdirect), haddrs, haddr]
    rcases Nat.eq_zero_or_pos ((files i).data.length % 512) with h0 | hpos
    · -- a new direct block
      have hnew : (files i).blocks.length = (files i).data.length / 512 := by omega
      have hno : (files i).ind = 0 := not_not.1 (mt hind.1 (by omega))
      rw [getD_of_le (by omega), if_pos rfl, ← hnew, addrs_concat (by omega)]
      refine ⟨{ s with freeblock := s.freeblock + 1 }, (files i).blocks ++ [s.freeblock], (files i).ind, ?_,
        ⟨h.add_direct (by omega) hno, rfl, fun _ _ => rfl⟩, ?_, ?_, ?_⟩
      · rw [getD_concat_self]
      · rw [List.length_append, List.length_singleton]
      · rw [List.length_append, List.length_singleton]
        exact iff_of_false (fun h => h hno) (by omega)
      · rw [cost_succ_of_full h0 (by omega)]
        show s.freeblock + 1 + _ = _
        omega
    · have hlt : (files i).data.length / 512 < (files i).blocks.length := by omega
      have hne : (files i).blocks.getD ((files i).data.length / 512) 0 ≠ 0 := by
        have := (h.owns.range (getD_mem_own hlt)).1
        omega
      rw [if_neg hne]
      refine ⟨s, (files i).blocks, (files i).ind, ?_, .refl h i, by omega, hind, ?_⟩
      · show _ = Except.ok (_, { din with addrs := (files i).addrs }, _)
        rw [← haddrs]
      · rw [cost_succ (by omega)]
  · unfold NDIRECT at hindirect
    rw [if_neg (by unfold NDIRECT; omega), haddrs, addrs_twelve]
    by_cases hno : (files i).ind = 0
    · -- the first block behind the direct ones needs the indirect block, too
      have hlen : (files i).blocks.length = 12 := by
        have := mt hind.2 (not_not.2 hno)
        omega
      have hdata : (files i).data.length = 12 * 512 := by omega
      rw [if_pos hno, addrs_ind]
      rw [hdata] at hfit ⊢
      have hcost : cost (12 * 512 + 1) = cost (12 * 512) + 2 := by decide
      have hbig : s.freeblock + 2 ≤ 1000 := by omega
      have hdisk := h.add_ind hlen hno
      have hgrown : Grown s { s with freeblock := s.freeblock + 1 } files i { files i with ind := s.freeblock } := ⟨hdisk, rfl, fun _ _ => rfl⟩
      have hself : Function.update files i { files i with ind := s.freeblock } i = { files i with ind := s.freeblock } := Function.update_self ..
      obtain ⟨s', blocks, hok, hg, hlen', haddrs', hfb⟩ := entryFor_ok (i := i) (n := 12)
        (s := { s with freeblock := s.freeblock + 1 }) { din with addrs := File.addrs { files i with ind := s.freeblock } } hdisk
        (by rw [hself]; show s.freeblock ≠ 0; omega) (by rw [hself]) (by omega) (by omega) (by rw [hself]; exact .inl hlen)
        (by rw [hself]; show s.freeblock + 1 + (12 + 1 - (files i).blocks.length) ≤ 1000; omega)
      rw [hself] at hg haddrs' hfb
      refine ⟨s', blocks, s.freeblock, ?_, hgrown.trans hg, hlen', ?_, ?_⟩
      · refine hok.trans ?_
        rw [haddrs']
      · rw [hlen']
        exact iff_of_true (by omega) (by omega)
      · rw [hfb, hcost]
        show s.freeblock + 1 + (12 + 1 - (files i).blocks.length) + _ = _
        omega
    · rw [if_neg hno]
      have hgt := hind.1 hno
      have hcost : cost ((files i).data.length + 1) = cost (files i).data.length + ((files i).data.length / 512 + 1 - (files i).blocks.length) := by
        rcases Nat.eq_zero_or_pos ((files i).data.length % 512) with h0 | hpos
        · rw [cost_succ_of_full h0 (by omega)]
          omega
        · rw [cost_succ (by omega)]
          omega
      obtain ⟨s', blocks, hok, hg, hlen', haddrs', hfb⟩ := entryFor_ok din h hno haddrs (n := (files i).data.length / 512) (by omega) (by omega) (by omega)
        (by omega)
      refine ⟨s', blocks, (files i).ind, ?_, hg, hlen', ?_, ?_⟩
      · refine hok.trans ?_
        show _ = Except.ok (_, { din with addrs := File.addrs { files i with blocks := blocks } }, _)
        rw [haddrs', ← haddrs]
      · rw [hlen']
        exact iff_of_true hno (by omega)
      · rw [hfb, hcost]
        omega

theorem bcopy_congr {src src' buf : Nat → UInt8} {q n : Nat} (h : ∀ k < n, src k = src' k) : bcopy src q n buf = bcopy src' q n buf := by
  funext k
  unfold bcopy
  split
  · exact h _ (by omega)
  · rfl

/-- `f'` is `f` with more data. -/
structure Appended (f f' : File) (p : List UInt8) : Prop where
  sized : Sized f'
  data : f'.data = f.data ++ p
  type : f'.type = f.type
  nlink : f'.nlink = f.nlink

theorem Appended.length {p : List UInt8} (h : Appended f f' p) : f'.data.length = f.data.length + p.length := by
  rw [h.data, List.length_append]

/-- One pass of the loop fills a block. -/
theorem iappendLoop_step {p : List UInt8} (hp : p ≠ []) (h : Disk s.img s.freeblock files) (hs : Sized (files i))
    (hmax : (files i).data.length < 140 * 512)
    (hfit : s.freeblock + cost ((files i).data.length + 1) ≤ 1000 + cost (files i).data.length) (haddrs : din.addrs = (files i).addrs) :
    ∃ n s' f', 0 < n ∧ n ≤ p.length ∧ (∀ fuel, iappendLoop (fuel + 1) din s (files i).data.length p =
        iappendLoop fuel { din with addrs := f'.addrs } s' f'.data.length (p.drop n)) ∧
      Grown s s' files i f' ∧ Appended (files i) f' (p.take n) ∧ f'.data.length ≤ ((files i).data.length / 512 + 1) * 512 ∧
      s'.freeblock + cost (files i).data.length = s.freeblock + cost f'.data.length := by
  have hpos := List.length_pos_iff.2 hp
  obtain ⟨s₁, blocks, ind, hok, hg, hlen, hind, hfb⟩ := blockFor_ok h hs hmax hfit haddrs
  -- the bytes that go into this block
  obtain ⟨n, hn⟩ : ∃ n, n = min p.length (((files i).data.length / 512 + 1) * 512 - (files i).data.length) := ⟨_, rfl⟩
  have hnp : (p.take n).length = n := List.length_take_of_le (by omega)
  have hself : Function.update files i { files i with blocks := blocks, ind := ind } i = { files i with blocks := blocks, ind := ind } :=
    Function.update_self ..
  obtain ⟨x, hx⟩ : ∃ x, x = blocks.getD ((files i).data.length / 512) 0 := ⟨_, rfl⟩
  have hdisk := hg.disk.write (i := i) (p := p.take n) (x := x) (by omega) (by rw [hself]; exact hx.symm)
    (by rw [hself]; show (files i).data.length / 512 < blocks.length; omega)
    (by rw [hself, hnp]; show (files i).data.length % 512 + n ≤ 512; omega)
  rw [hself, Function.update_idem, hnp] at hdisk
  have hxlt : 59 ≤ x ∧ x < s₁.freeblock := hg.disk.owns.range (i := i) (by
    rw [hself, hx]
    exact List.mem_append_left _ (getD_mem_blocks (f := { files i with blocks := blocks }) (by show _ < blocks.length; omega)))
  have hin : x * BSIZE + BSIZE ≤ s₁.img.len := by
    rw [hg.disk.len]
    unfold BSIZE
    omega
  refine ⟨n, ⟨wsect x (bcopy (fun k => (p.take n).getD k 0) ((files i).data.length % 512) n fun k => s₁.img.byte (x * BSIZE + k)) s₁.img, s₁.freeinode,
    s₁.freeblock⟩, { files i with blocks := blocks, ind := ind, data := (files i).data ++ p.take n }, by omega, by omega, fun fuel => ?_,
    ⟨hdisk, hg.freeinode, fun q hq => ?_⟩, ⟨⟨?_, hind⟩, rfl, rfl, rfl⟩, ?_, ?_⟩
  · have hmod : (files i).data.length - (files i).data.length / BSIZE * BSIZE = (files i).data.length % 512 := by unfold BSIZE; omega
    have hfbn : (files i).data.length / BSIZE < MAXFILE := by
      unfold MAXFILE NINDIRECT NDIRECT BSIZE
      omega
    have hcopy : ∀ buf, bcopy (fun k => p.getD k 0) ((files i).data.length % 512) n buf =
        bcopy (fun k => (p.take n).getD k 0) ((files i).data.length % 512) n buf := fun buf => bcopy_congr fun k hk => by
      rw [List.getD_eq_getElem?_getD, List.getD_eq_getElem?_getD, List.getElem?_take_of_lt hk]
    have hdata : ((files i).data ++ p.take n).length = (files i).data.length + n := by rw [List.length_append, hnp]
    have hn' : n = min p.length (((files i).data.length / BSIZE + 1) * BSIZE - (files i).data.length) := hn
    have hok' : blockFor ((files i).data.length / BSIZE) din s = .ok (x, { din with addrs := File.addrs { files i with blocks := blocks, ind := ind } }, s₁) := by
      rw [hx]
      exact hok
    rw [iappendLoop, if_neg hp]
    simp only [not_not.2 hfbn, if_false, hok', ok_bind, rsect_ok hin, hmod, ← hn', hcopy]
    show iappendLoop fuel _ _ _ _ = iappendLoop fuel _ _ ((files i).data ++ p.take n).length _
    rw [hdata]
    rfl
  · refine (wsect_of_ne ?_ _).trans (hg.low q hq)
    unfold BSIZE
    omega
  · show blocks.length = (((files i).data ++ p.take n).length + 511) / 512
    rw [List.length_append, hnp]
    omega
  · show ((files i).data ++ p.take n).length ≤ _
    rw [List.length_append, hnp]
    omega
  · show s₁.freeblock + _ = s.freeblock + cost ((files i).data ++ p.take n).length
    rw [List.length_append, hnp, hfb, cost_congr (show ((files i).data.length + 1 + 511) / 512 = ((files i).data.length + n + 511) / 512 by omega)]

theorem iappendLoop_ok {fuel : Nat} {p : List UInt8} (hfuel : p.length ≤ fuel) (h : Disk s.img s.freeblock files) (hf : files i = f) (hs : Sized f)
    (hmax : f.data.length + p.length ≤ 140 * 512) (hfit : s.freeblock + cost (f.data.length + p.length) ≤ 1000 + cost f.data.length)
    (haddrs : din.addrs = f.addrs) :
    ∃ s' f', iappendLoop fuel din s f.data.length p = .ok ({ din with addrs := f'.addrs }, s', f'.data.length) ∧ Grown s s' files i f' ∧
      Appended f f' p ∧ s'.freeblock + cost f.data.length = s.freeblock + cost f'.data.length := by
  induction fuel generalizing s files f din p with
  | zero =>
    obtain rfl := List.length_eq_zero_iff.1 (Nat.le_zero.1 hfuel)
    refine ⟨s, f, ?_, hf ▸ .refl h i, ⟨hs, (List.append_nil _).symm, rfl, rfl⟩, rfl⟩
    rw [iappendLoop, ← haddrs]
  | succ fuel ih =>
    by_cases hp : p = []
    · refine ⟨s, f, ?_, hf ▸ .refl h i, ⟨hs, by rw [hp, List.append_nil], rfl, rfl⟩, rfl⟩
      rw [iappendLoop, if_pos hp, ← haddrs]
    · subst hf
      have hlt := List.length_pos_iff.2 hp
      have hcost : cost ((files i).data.length + 1) ≤ cost ((files i).data.length + p.length) := cost_mono (by omega)
      obtain ⟨n, s₁, f₁, hpos, hn, hstep, hg, happ, -, hfb⟩ := iappendLoop_step hp h hs (by omega) (by omega) haddrs
      have hlen := happ.length
      have hrest : (p.drop n).length = p.length - n := List.length_drop
      rw [List.length_take_of_le hn] at hlen
      have htotal : f₁.data.length + (p.drop n).length = (files i).data.length + p.length := by omega
      obtain ⟨s', f', hok, hg', happ', hfb'⟩ := ih (p := p.drop n) (by omega) hg.disk (Function.update_self ..) happ.sized
        (by omega) (by rw [htotal]; omega) (show DInode.addrs { din with addrs := f₁.addrs } = f₁.addrs from rfl)
      refine ⟨s', f', (hstep fuel).trans hok, hg.trans hg', ⟨happ'.sized, ?_, happ'.type.trans happ.type, happ'.nlink.trans happ.nlink⟩, by omega⟩
      rw [happ'.data, happ.data, List.append_assoc, List.take_append_drop]

/-! ### The whole image -/

/-- What `mkfs` keeps: the files are on the disk, with their inodes and the superblock. There is room for 216 inodes before the data
blocks, the last 8 of them in the block that becomes the free map. -/
structure Inv (s : St) (files : Nat → File) : Prop where
  disk : Disk s.img s.freeblock files
  freeblock : s.freeblock ≤ 1000
  sized : ∀ i, Sized (files i)
  short : ∀ i, IsShort (files i).type ∧ IsShort (files i).nlink
  max : ∀ i, (files i).data.length ≤ 140 * 512
  super : ∀ k < 28, s.img.byte (512 + k) = sb.mem k
  table : ∀ i < 216, ∀ k < 64, s.img.byte (32 * 512 + i * 64 + k) = (files i).dinode.mem k
  free : ∀ i, i = 0 ∨ s.freeinode ≤ i → files i = .free

theorem Disk.addrs_lt (h : Disk img fb files) (hfb : fb ≤ 1000) (i j : Nat) : (files i).addrs j < 1000 := by
  unfold File.addrs
  split
  · rcases Nat.lt_or_ge j (files i).blocks.length with hlt | hge
    · exact Nat.lt_of_lt_of_le (h.owns.range (getD_mem_own hlt)).2 hfb
    · rw [getD_of_le hge]
      omega
  · split
    · by_cases h0 : (files i).ind = 0
      · rw [h0]
        omega
      · exact Nat.lt_of_lt_of_le (h.owns.range (ind_mem_own h0)).2 hfb
    · omega

theorem addrs_of_ge {j : Nat} (h : 13 ≤ j) : f.addrs j = 0 := by
  unfold File.addrs
  rw [if_neg (by omega), if_neg (by omega)]

theorem Disk.low (h : Disk img fb files) (hlen : img'.len = img.len) (hbyte : ∀ p, 59 * 512 ≤ p → img'.byte p = img.byte p) : Disk img' fb files where
  len := hlen.trans h.len
  owns := h.owns
  holds := fun i => (h.holds i).congr fun p hp => hbyte p (by
    have := (h.owns.range hp).1
    omega)
  fresh := fun p hp => (hbyte p (Nat.le_trans (Nat.mul_le_mul_right 512 h.owns.le) hp)).trans (h.fresh p hp)

theorem IBLOCK_ptr (i : Nat) : IBLOCK i sb * BSIZE + i % IPB * 64 = 32 * 512 + i * 64 := by
  show (i / 8 + 32) * 512 + i % 8 * 64 = _
  omega

theorem IBLOCK_in (hlen : img.len = 1000 * 512) (hi : i < 216) : IBLOCK i sb * BSIZE + BSIZE ≤ img.len := by
  rw [hlen]
  show (i / 8 + 32) * 512 + 512 ≤ _
  omega

theorem winode_ok (hlen : img.len = 1000 * 512) (hi : i < 216) (d : DInode) : ∃ img', winode i d img = .ok img' ∧ img'.len = img.len ∧
    ∀ p, img'.byte p = if 32 * 512 + i * 64 ≤ p ∧ p < 32 * 512 + i * 64 + 64 then d.mem (p - (32 * 512 + i * 64)) else img.byte p := by
  have hin := IBLOCK_in hlen hi
  refine ⟨wsect (IBLOCK i sb) (bcopy d.mem (i % IPB * 64) 64 fun k => img.byte (IBLOCK i sb * BSIZE + k)) img, ?_, wsect_len hin _, fun p => ?_⟩
  · unfold winode
    simp only [rsect_ok hin]
    rfl
  · have hend : i % IPB * 64 + 64 ≤ BSIZE := by
      show i % 8 * 64 + 64 ≤ 512
      omega
    rw [wsect_bcopy _ _ _ hend, IBLOCK_ptr]

theorem Disk.wf (h : Disk img fb files) (hfb : fb ≤ 1000) (hshort : IsShort (files i).type ∧ IsShort (files i).nlink) {size : Nat}
    (hsize : size < 2 ^ 32) : DInode.Wf { (files i).dinode with size := size } :=
  ⟨hshort.1, (by decide : IsShort 0), (by decide : IsShort 0), hshort.2, hsize, fun j _ => by
    have := h.addrs_lt hfb i j
    show (files i).addrs j < _
    omega⟩

theorem rinode_of_mem {d : DInode} (hlen : img.len = 1000 * 512) (hi : i < 216) (hd : d.Wf) (hrest : ∀ j ≥ 13, d.addrs j = 0)
    (hmem : ∀ k < 64, img.byte (32 * 512 + i * 64 + k) = d.mem k) : rinode i img = .ok d := by
  unfold Mkfs.rinode
  rw [rsect_ok (IBLOCK_in hlen hi), ok_bind]
  refine congrArg Except.ok (dinodeOf_mem hd hrest fun k hk => ?_)
  show img.byte (IBLOCK i sb * BSIZE + (i % IPB * 64 + k)) = _
  rw [← Nat.add_assoc, IBLOCK_ptr]
  exact hmem k hk

theorem Inv.rinode (h : Inv s files) (hi : i < 216) : rinode i s.img = .ok (files i).dinode := by
  have hmax := h.max i
  exact rinode_of_mem h.disk.len hi (h.disk.wf h.freeblock (h.short i) (by omega)) (fun j hj => addrs_of_ge hj) (h.table i hi)

theorem Inv.store (h : Inv s files) (hg : Grown s s' files i f) (hi : i < 216) (hfb : s'.freeblock ≤ 1000) (hs : Sized f)
    (hshort : IsShort f.type ∧ IsShort f.nlink) (hmax : f.data.length ≤ 140 * 512) {n : Nat}
    (hfree : ∀ j, j = 0 ∨ n ≤ j → j ≠ i ∧ files j = .free) :
    ∃ img, winode i f.dinode s'.img = .ok img ∧ Inv ⟨img, n, s'.freeblock⟩ (Function.update files i f) := by
  obtain ⟨img, hok, hlen, hbyte⟩ := winode_ok hg.disk.len hi f.dinode
  have hall : ∀ {P : File → Prop}, P f → (∀ j, P (files j)) → ∀ j, P (Function.update files i f j) := by
    intro P hf hall j
    by_cases hj : j = i
    · rw [hj, Function.update_self]
      exact hf
    · rw [Function.update_of_ne hj]
      exact hall j
  refine ⟨img, hok, hg.disk.low hlen fun p hp => ?_, hfb, hall hs h.sized,
    hall (P := fun f => IsShort f.type ∧ IsShort f.nlink) hshort h.short, hall (P := fun f => f.data.length ≤ 140 * 512) hmax h.max,
    fun k hk => ?_, fun j hj k hk => ?_, fun j hj => ?_⟩
  · rw [hbyte, if_neg (by omega)]
  · show img.byte _ = _
    rw [hbyte, if_neg (by omega), hg.low _ (by omega)]
    exact h.super k hk
  · show img.byte _ = _
    rw [hbyte]
    by_cases hji : j = i
    · rw [hji, if_pos (by omega), Function.update_self, Nat.add_sub_cancel_left]
    · rw [if_neg (by omega), hg.low _ (by omega), Function.update_of_ne hji]
      exact h.table j hj k hk
  · rw [Function.update_of_ne (hfree j hj).1]
    exact (hfree j hj).2

theorem Inv.iappend (h : Inv s files) (hi : i < 216) (hused : 0 < i ∧ i < s.freeinode) {p : List UInt8}
    (hmax : (files i).data.length + p.length ≤ 140 * 512)
    (hfit : s.freeblock + cost ((files i).data.length + p.length) ≤ 1000 + cost (files i).data.length) :
    ∃ s' f', iappend i p s = .ok s' ∧ Inv s' (Function.update files i f') ∧ Appended (files i) f' p ∧ s'.freeinode = s.freeinode ∧
      s'.freeblock + cost (files i).data.length = s.freeblock + cost f'.data.length := by
  obtain ⟨s₁, f', hok, hg, happ, hfb⟩ := iappendLoop_ok (Nat.le_refl p.length) h.disk rfl (h.sized i) hmax hfit
    (show (files i).dinode.addrs = (files i).addrs from rfl)
  have hlen := happ.length
  obtain ⟨img, hw, hI⟩ := h.store hg hi (by rw [hlen] at hfb; omega) happ.sized (by rw [happ.type, happ.nlink]; exact h.short i) (by omega)
    (n := s₁.freeinode) (fun j hj => ⟨by rw [hg.freeinode] at hj; omega, h.free j (by rw [hg.freeinode] at hj; exact hj)⟩)
  refine ⟨⟨img, s₁.freeinode, s₁.freeblock⟩, f', ?_, hI, happ, hg.freeinode, hfb⟩
  unfold Mkfs.iappend
  rw [h.rinode hi, ok_bind]
  show (iappendLoop p.length (files i).dinode s (files i).data.length p >>= _) = _
  rw [hok, ok_bind]
  have hdin : { (files i).dinode with addrs := f'.addrs, size := f'.data.length } = f'.dinode := by
    unfold File.dinode
    rw [happ.type, happ.nlink]
  show (winode i { (files i).dinode with addrs := f'.addrs, size := f'.data.length } s₁.img >>= _) = _
  rw [hdin, hw]
  rfl

end Ostep.Fs.Mkfs
