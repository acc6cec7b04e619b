import Ostep.Fs.Blocks

/-!
# Files as byte arrays

The blocks of an inode, the indirect block and the lazy allocation in `bmap` hold an array of bytes, `data`. `readi` and `writei` are
the reads and writes of this array: `readi_data`, `writei_data`.
-/

namespace Ostep.Fs.Kernel

variable {sb : SuperBlock} {s : State} {img img' : Image} {d d' : DInode} {i off n : Nat} {src : List UInt8}

def data (img : Image) (d : DInode) : List UInt8 := bytesFrom (content img d) 0 d.size

/-- The bytes from `off` on, up to `n` of them, or nothing where the call returns -1. -/
def readBytes (l : List UInt8) (off n : Nat) : Option (List UInt8) :=
  if off > l.length ∨ 2 ^ 32 ≤ off + n then none else some ((l.drop off).take n)

def overwrite (l : List UInt8) (off : Nat) (src : List UInt8) : List UInt8 := l.take off ++ src ++ l.drop (off + src.length)

/-! ### Parts of an array -/

@[simp] theorem length_bytesFrom (f : Nat → UInt8) (p n : Nat) : (bytesFrom f p n).length = n := by
  simp [bytesFrom]

@[simp] theorem length_data (img : Image) (d : DInode) : (data img d).length = d.size := length_bytesFrom ..

theorem bytesFrom_take (f : Nat → UInt8) (p : Nat) {m n : Nat} (h : m ≤ n) : (bytesFrom f p n).take m = bytesFrom f p m := by
  obtain ⟨k, rfl⟩ := Nat.exists_eq_add_of_le h
  rw [← bytesFrom_append, List.take_left' (length_bytesFrom ..)]

theorem bytesFrom_drop (f : Nat → UInt8) (p : Nat) {m n : Nat} (h : m ≤ n) : (bytesFrom f p n).drop m = bytesFrom f (p + m) (n - m) := by
  obtain ⟨k, rfl⟩ := Nat.exists_eq_add_of_le h
  rw [← bytesFrom_append, List.drop_left' (length_bytesFrom ..), Nat.add_sub_cancel_left]

theorem bytesFrom_getD_eq (src : List UInt8) (p : Nat) : bytesFrom (fun q => src.getD (q - p) 0) p src.length = src := by
  refine List.ext_getElem (length_bytesFrom ..) fun k hk hk' => ?_
  simp [bytesFrom, hk']

/-! ### Reading -/

variable (sb) in
theorem readi_data (hw : Whole img d) (hoff : off < 2 ^ 32) (hn : n < 2 ^ 32) :
    readi sb d img off n = .ok (readBytes (data img d) off n, d, img) := by
  have hsize := hw.size_le
  have hmax : MAXFILE * BSIZE < 2 ^ 32 := by decide
  unfold readi readBytes
  rw [length_data]
  by_cases hbad : off > d.size ∨ (off + n) % 2 ^ 32 < off
  · have hbad' : off > d.size ∨ 2 ^ 32 ≤ off + n := by omega
    rw [if_pos hbad, if_pos hbad']
  have hgood : ¬ (off > d.size ∨ 2 ^ 32 ≤ off + n) := by omega
  rw [if_neg hbad, if_neg hgood]
  obtain ⟨m, hm⟩ : ∃ m, m = if (off + n) % 2 ^ 32 > d.size then d.size - off else n := ⟨_, rfl⟩
  have hcut : m = min n (d.size - off) := by
    rw [hm]
    split <;> omega
  have hloop := readLoop_of_ne sb off m (Nat.le_refl m) (by omega) fun bn hbn => (hw bn (by omega)).2
  have hpart : ((data img d).drop off).take n = bytesFrom (content img d) off m := by
    rw [data, bytesFrom_drop _ _ (by omega), Nat.zero_add, hcut]
    rcases Nat.le_total n (d.size - off) with hle | hle
    · rw [bytesFrom_take _ _ hle, Nat.min_eq_left hle]
    · rw [List.take_of_length_le (by rwa [length_bytesFrom]), Nat.min_eq_right hle]
  simp only [← hm, hloop, ok_bind, hpart]
  rfl

/-! ### Writing -/

def TooFar (size off n : Nat) : Prop := off > size ∨ 2 ^ 32 ≤ off + n ∨ off + n > MAXFILE * BSIZE

instance (size off n : Nat) : Decidable (TooFar size off n) :=
  inferInstanceAs (Decidable (off > size ∨ 2 ^ 32 ≤ off + n ∨ off + n > MAXFILE * BSIZE))

def OnDisk (sb : SuperBlock) (i : Nat) (d : DInode) (img : Image) : Prop :=
  ∀ k < 64, img.byte (IBLOCK i sb * BSIZE + i % IPB * 64 + k) = d.mem k

def inodePos (sb : SuperBlock) (i : Nat) : Nat := IBLOCK i sb * BSIZE + i % IPB * 64

/-- The bytes of the other inodes are the same. -/
def InodesKept (sb : SuperBlock) (img : Image) (i : Nat) (img' : Image) : Prop :=
  ∀ p, p / BSIZE < sb.bmapstart → p < inodePos sb i ∨ inodePos sb i + 64 ≤ p → img'.byte p = img.byte p

/-- What `writei` leaves when it has written `src` at `off`. -/
structure Updated (sb : SuperBlock) (s : State) (i off : Nat) (src : List UInt8) (d' : DInode) (img' : Image) : Prop where
  type : d'.type = (s.inode i).type
  size : d'.size = max (s.inode i).size (off + src.length)
  data : data img' d' = overwrite (data s.img (s.inode i)) off src
  onDisk : OnDisk sb i (s.inode i) s.img ∨ (s.inode i).size < off + src.length → OnDisk sb i d' img'
  whole : Whole img' d'
  others : ∀ j, j ≠ i → s.Used sb j → ∀ p < MAXFILE * BSIZE, content img' (s.inode j) p = content s.img (s.inode j) p
  ext : Ext sb s (s.set i d' img') i

theorem onDisk_iupdate (sb : SuperBlock) (i : Nat) (d : DInode) (img : Image) : OnDisk sb i d (iupdate sb i d img) := by
  intro k hk
  refine (if_pos (by rw [List.length_map, List.length_range]; omega)).trans ?_
  rw [Nat.add_sub_cancel_left]
  simp [hk]

theorem inodesKept_iupdate (hlow : ∀ p, p / BSIZE < sb.bmapstart → img'.byte p = img.byte p) (i : Nat) (d : DInode) :
    InodesKept sb img i (iupdate sb i d img') := by
  intro p hp hout
  rw [← hlow p hp]
  refine if_neg ?_
  rw [List.length_map, List.length_range]
  unfold inodePos at hout
  omega

theorem content_congr (h : Sound sb img d) (hbyte : ∀ p, lastMap sb < p / BSIZE → img'.byte p = img.byte p) {p : Nat} (hp : p < MAXFILE * BSIZE) :
    content img' d p = content img d p := by
  have hbn : p / BSIZE < MAXFILE := by
    unfold BSIZE at *
    omega
  have hblock : blockAt img' d (p / BSIZE) = blockAt img d (p / BSIZE) := by
    unfold blockAt
    split
    · rfl
    · split
      · rfl
      · next h0 =>
        refine uintAt_congr fun q hq hq' => hbyte q ?_
        rw [entry_div hbn hq hq']
        exact (h.ind h0).behind
  unfold content
  rw [hblock]
  split
  · rfl
  · next h0 =>
    refine hbyte _ ?_
    have hdiv : (blockAt img d (p / BSIZE) * BSIZE + p % BSIZE) / BSIZE = blockAt img d (p / BSIZE) := by
      unfold BSIZE
      omega
    rw [hdiv]
    exact (h.block _ hbn h0).behind

theorem data_of_content (hoff : off ≤ d.size) (hsize : d'.size = max d.size (off + src.length)) (hmax : d'.size ≤ MAXFILE * BSIZE)
    (hc : ∀ p < MAXFILE * BSIZE, content img' d' p =
      if off ≤ p ∧ p < off + src.length then src.getD (p - off) 0 else content img d p) :
    data img' d' = overwrite (data img d) off src := by
  have hsplit : d'.size = off + src.length + (d.size - (off + src.length)) := by omega
  have hfirst : bytesFrom (content img' d') 0 off = (data img d).take off := by
    rw [data, bytesFrom_take _ _ hoff]
    refine bytesFrom_congr fun k hk => ?_
    rw [hc _ (by omega), if_neg (by omega)]
  have hmid : bytesFrom (content img' d') (0 + off) src.length = src := by
    refine (bytesFrom_congr fun k hk => ?_).trans (bytesFrom_getD_eq src off)
    rw [hc _ (by omega), if_pos (by omega), Nat.zero_add]
  have hlast : bytesFrom (content img' d') (0 + (off + src.length)) (d.size - (off + src.length)) =
      (data img d).drop (off + src.length) := by
    rcases Nat.le_total (off + src.length) d.size with hle | hle
    · rw [data, bytesFrom_drop _ _ hle]
      refine bytesFrom_congr fun k hk => ?_
      rw [hc _ (by omega), if_neg (by omega)]
    · rw [Nat.sub_eq_zero_of_le hle, List.drop_eq_nil_of_le (by rwa [length_data])]
      rfl
  rw [data, hsplit, ← bytesFrom_append, ← bytesFrom_append, hfirst, hmid, hlast]
  rfl

theorem Owned.behind_iupdate (h : Owned sb s) (hi : i < sb.ninodes) (d : DInode) (img : Image) {p : Nat} (hp : lastMap sb < p / BSIZE) :
    (iupdate sb i d img).byte p = img.byte p := by
  have hlt := h.inodes i hi
  have hlast : sb.bmapstart ≤ lastMap sb := Nat.le_add_left _ _
  exact iupdate_of_ne (by omega)

theorem Wrote.grow (hu : s.Used sb i) (hwrote : Wrote sb s (s.set i d img) i off src) (hoff : off ≤ (s.inode i).size)
    (hend : off + src.length ≤ MAXFILE * BSIZE) (hgrow : off + src.length > (s.inode i).size) :
    Updated sb s i off src { d with size := off + src.length } (iupdate sb i { d with size := off + src.length } img) := by
  have he := hwrote.ext
  have ht : d.type = (s.inode i).type := by simpa using he.type
  have hu₁ := hu.set ht img
  have hs := he.owned.sound hu₁
  have hbyte := fun {p : Nat} (hp : lastMap sb < p / BSIZE) =>
    he.owned.behind_iupdate hu.1 { d with size := off + src.length } img hp
  obtain ⟨he₂, hptr₂⟩ := Ext.of_iupdate he.owned hu₁ (show { d with size := off + src.length }.addrs = _ by rw [set_self])
    (by rw [set_self]) { d with size := off + src.length }
  rw [set_img, set_set] at he₂ hptr₂
  rw [set_self, set_img] at hs
  have hcontent : ∀ p < MAXFILE * BSIZE,
      Kernel.content (iupdate sb i { d with size := off + src.length } img) { d with size := off + src.length } p =
        if off ≤ p ∧ p < off + src.length then src.getD (p - off) 0 else Kernel.content s.img (s.inode i) p := by
    intro p hp
    have hw := hwrote.content p hp
    rw [set_self, set_img] at hw
    rw [← hw]
    exact content_congr hs (fun p hp => hbyte hp) hp
  refine ⟨ht, (Nat.max_eq_right hgrow.le).symm, data_of_content hoff (Nat.max_eq_right hgrow.le).symm hend hcontent,
    fun _ => onDisk_iupdate _ _ _ _, fun bn hbn => ?_, fun j hj huj p hp => ?_, he.trans he₂⟩
  · have hbn : bn * BSIZE < off + src.length := hbn
    have hmax : bn < MAXFILE := by
      unfold BSIZE at *
      omega
    have hu₂ := hu.set (show { d with size := off + src.length }.type = _ from ht) (iupdate sb i { d with size := off + src.length } img)
    have hnew := ptr_slotFor hu₂ hmax
    have hold := ptr_slotFor hu₁ hmax
    have hne := hwrote.blocks bn hbn
    rw [set_self, set_img] at hnew hold hne
    rw [← hnew, hptr₂, hold]
    exact ⟨hmax, hne⟩
  · have huj₁ : (s.set i d img).Used sb j := by
      unfold State.Used at *
      rwa [set_of_ne hj]
    have hsj := he.owned.sound huj₁
    have hfj := hwrote.frame.content he hj huj hp
    rw [set_of_ne hj, set_img] at hsj hfj
    rw [← hfj]
    exact content_congr hsj (fun p hp => hbyte hp) hp

theorem Wrote.stay (hu : s.Used sb i) (hw : Whole s.img (s.inode i)) (hwrote : Wrote sb s (s.set i d img) i off src) (hi : IBLOCK i sb < sb.bmapstart)
    (hstay : off + src.length ≤ (s.inode i).size) : Updated sb s i off src d img := by
  have hsame := hwrote.inside fun bn hbn => (hw bn (by omega)).2
  rw [set_self] at hsame
  subst hsame
  have hcontent := hwrote.content
  have hu₁ := hu.set rfl img
  rw [set_self, set_img] at hcontent
  refine ⟨rfl, (Nat.max_eq_left hstay).symm, data_of_content (by omega) (Nat.max_eq_left hstay).symm hw.size_le hcontent,
    fun hdisk k hk => ?_, fun bn hbn => ?_, fun j hj huj p hp => ?_, hwrote.ext⟩
  · have hlow := hwrote.frame.low (IBLOCK i sb * BSIZE + i % IPB * 64 + k) (by unfold IPB BSIZE at *; omega)
    rw [set_img] at hlow
    rw [hlow]
    exact (hdisk.resolve_right (by omega)) k hk
  · obtain ⟨hmax, hne⟩ := hw bn hbn
    refine ⟨hmax, ?_⟩
    have hnew := ptr_slotFor hu₁ hmax
    rw [set_self, set_img] at hnew
    rw [← ptr_slotFor hu hmax] at hne
    rwa [← hnew, hwrote.ext.kept _ hne]
  · have hfj := hwrote.frame.content hwrote.ext hj huj hp
    rwa [set_of_ne hj, set_img] at hfj

theorem writei_tooFar (hw : Whole img d) (hsrc : src.length < 2 ^ 32) (hfar : TooFar d.size off src.length) :
    writei sb i d img src off = .ok (none, d, img) := by
  have hmax : MAXFILE * BSIZE < 2 ^ 32 := by decide
  have hsize := hw.size_le
  unfold writei TooFar at *
  by_cases hbad : off > d.size ∨ (off + src.length) % 2 ^ 32 < off
  · rw [if_pos hbad]
  · rw [if_neg hbad, if_pos (by omega)]

/-- `writei` that does not return -1 writes all of `src`, unless the disk has no room for it. -/
theorem Owned.writei (h : Owned sb s) (hu : s.Used sb i) (hw : Whole s.img (s.inode i)) (hgood : ¬ TooFar (s.inode i).size off src.length) :
    (writei sb i (s.inode i) s.img src off = .error .outOfBlocks ∧ ¬ Room sb s.img (s.inode i) (off + src.length)) ∨
      ∃ d' img', writei sb i (s.inode i) s.img src off = .ok (some src.length, d', img') ∧ Updated sb s i off src d' img' ∧
        InodesKept sb s.img i img' := by
  have hmax : MAXFILE * BSIZE < 2 ^ 32 := by decide
  unfold TooFar at hgood
  have hend : off + src.length ≤ MAXFILE * BSIZE := by omega
  have hmod : (off + src.length) % 2 ^ 32 = off + src.length := Nat.mod_eq_of_lt (by omega)
  unfold Kernel.writei
  rw [hmod, if_neg (by omega), if_neg (by omega)]
  rcases h.writeLoop hu (Nat.le_refl src.length) hend fun bn hbn => (hw bn (by omega)).2 with ⟨hfail, hroom⟩ | ⟨d₁, img₁, hok, hwrote⟩
  · rw [hfail]
    exact .inl ⟨rfl, hroom⟩
  have hsize := hwrote.size
  rw [set_self] at hsize
  simp only [hok, ok_bind, hsize]
  by_cases hgrow : src.length > 0 ∧ off + src.length > (s.inode i).size
  · rw [if_pos hgrow]
    exact .inr ⟨_, _, rfl, hwrote.grow hu (by omega) hend hgrow.2, inodesKept_iupdate hwrote.frame.low i _⟩
  · rw [if_neg hgrow]
    exact .inr ⟨_, _, rfl, hwrote.stay hu hw (h.inodes i hu.1) (by omega), fun p hp _ => hwrote.frame.low p hp⟩

theorem Consistent.writei (h : Consistent sb s) (hu : s.Used sb i) (off : Nat) {src : List UInt8} (hsrc : src.length < 2 ^ 32) :
    writei sb i (s.inode i) s.img src off = .error .outOfBlocks ∨
      ∃ r d' img', writei sb i (s.inode i) s.img src off = .ok (r, d', img') ∧ Ext sb s (s.set i d' img') i ∧ Consistent sb (s.set i d' img') := by
  by_cases hfar : TooFar (s.inode i).size off src.length
  · refine .inr ⟨none, _, _, writei_tooFar (h.whole i hu) hsrc hfar, ?_⟩
    rw [set_inode]
    exact ⟨.refl h.owned i, h⟩
  · rcases h.owned.writei hu (h.whole i hu) hfar with ⟨hfail, -⟩ | ⟨d', img', hok, hup, -⟩
    · exact .inl hfail
    · exact .inr ⟨_, d', img', hok, hup.ext, h.of_ext hup.ext (by rw [set_self, set_img]; exact hup.whole)⟩

/-! ### Both calls -/

/-- For a file or directory without missing blocks, `writei` and `readi` write and read its bytes, disk space sufficing. -/
theorem writei_readi_bytes (h : Owned sb s) (hi : i < sb.ninodes) (ht : (s.inode i).type = T_FILE ∨ (s.inode i).type = T_DIR)
    (hw : Whole s.img (s.inode i)) :
    (∀ off < 2 ^ 32, ∀ src : List UInt8, src.length < 2 ^ 32 →
      if TooFar (s.inode i).size off src.length then writei sb i (s.inode i) s.img src off = .ok (none, s.inode i, s.img)
      else Room sb s.img (s.inode i) (off + src.length) →
        ∃ d' img', writei sb i (s.inode i) s.img src off = .ok (some src.length, d', img') ∧ Updated sb s i off src d' img' ∧
          ∀ off' < 2 ^ 32, ∀ n < 2 ^ 32,
            readi sb d' img' off' n = .ok (readBytes (overwrite (data s.img (s.inode i)) off src) off' n, d', img')) ∧
    ∀ off < 2 ^ 32, ∀ n < 2 ^ 32,
      readi sb (s.inode i) s.img off n = .ok (readBytes (data s.img (s.inode i)) off n, s.inode i, s.img) := by
  have hu : s.Used sb i := by
    refine ⟨hi, ?_⟩
    rcases ht with ht | ht <;> rw [ht] <;> decide
  refine ⟨fun off _ src hsrc => ?_, fun off hoff n hn => readi_data sb hw hoff hn⟩
  split
  · next hfar => exact writei_tooFar hw hsrc hfar
  · next hfar =>
    intro hroom
    rcases h.writei hu hw hfar with ⟨-, hno⟩ | ⟨d', img', hok, hup, -⟩
    · exact absurd hroom hno
    · refine ⟨d', img', hok, hup, fun off' hoff' n hn => ?_⟩
      rw [readi_data sb hup.whole hoff' hn, hup.data]

def tinyDisk : SuperBlock := ⟨8, 5, 8, 0, 1, 1, 2⟩

def tinyFiles : State := ⟨fun _ => ⟨T_FILE, 0, 0, 1, 0, fun _ => 0⟩, ⟨8 * BSIZE, fun p => if p = 2 * BSIZE then 7 else 0⟩⟩

theorem owned_tinyDisk {inode : Nat → DInode} (h : ∀ i k, (inode i).addrs k = 0) : Owned tinyDisk ⟨inode, tinyFiles.img⟩ := by
  have hnull : ∀ x, State.ptr ⟨inode, tinyFiles.img⟩ tinyDisk x = 0 := by
    intro x
    unfold State.ptr ptrAt
    simp only [h, if_true, ite_self]
  exact {
    size_lt := by decide
    inodes := by decide
    reserved := fun b hb _ => (by decide : ∀ b ≤ lastMap tinyDisk, inUse tinyDisk tinyFiles.img b = true) b hb
    data := fun x hx => absurd (hnull x) hx
    distinct := fun x _ _ hx => absurd (hnull x) hx }

theorem consistent_tinyFiles : Consistent tinyDisk tinyFiles where
  owned := owned_tinyDisk fun _ _ => rfl
  whole := fun _ _ _ hbn => absurd hbn (Nat.not_lt_zero _)

theorem writei_readi_tinyFiles : ∃ d' img', writei tinyDisk 1 (tinyFiles.inode 1) tinyFiles.img [7, 8] 0 = .ok (some 2, d', img') ∧
    data img' d' = [7, 8] ∧ readi tinyDisk d' img' 1 5 = .ok (some [8], d', img') := by
  have hroom : Room tinyDisk tinyFiles.img (tinyFiles.inode 1) (0 + [7, 8].length) := by
    show _ ≤ _
    decide +kernel
  have hwrite := (writei_readi_bytes consistent_tinyFiles.owned (by decide : 1 < tinyDisk.ninodes) (.inl rfl)
    (consistent_tinyFiles.whole 1 (by decide))).1 0 (by decide) [7, 8] (by decide)
  rw [if_neg (by decide)] at hwrite
  obtain ⟨d', img', hok, hup, hread⟩ := hwrite hroom
  exact ⟨d', img', hok, hup.data, hread 1 (by decide) 5 (by decide)⟩

end Ostep.Fs.Kernel
