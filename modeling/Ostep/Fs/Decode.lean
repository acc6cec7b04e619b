import Ostep.Fs.Xcheck

/-!
# What the checker reads of an image

`intAt`, `shortAt` and `dinodeAt` are the values that the readers of `xcheck` return for bytes inside the image.
`construct_iff` compares them with what `mkfs` has written.
-/

namespace Ostep.Fs.Xcheck

variable {img : Image} {ptr : Nat}

/-! ### Readers -/

theorem byteAt_ok (h : ptr < img.len) : byteAt img ptr = .ok (img.byte ptr) := if_pos h

def intAt (img : Image) (ptr : Nat) : Nat :=
  intOf (img.byte ptr) (img.byte (ptr + 1)) (img.byte (ptr + 2)) (img.byte (ptr + 3))

def shortAt (img : Image) (ptr : Nat) : Int := toInt16 ((img.byte ptr).toNat ||| ((img.byte (ptr + 1)).toNat <<< 8))

theorem getIntFromMem_ok (h : ptr + 4 ≤ img.len) : getIntFromMem img ptr = .ok (intAt img ptr) := by
  unfold getIntFromMem
  rw [byteAt_ok (by omega), byteAt_ok (by omega), byteAt_ok (by omega), byteAt_ok (by omega)]
  rfl

theorem getShortFromMem_ok (h : ptr + 2 ≤ img.len) : getShortFromMem img ptr = .ok (shortAt img ptr) := by
  unfold getShortFromMem
  rw [byteAt_ok (by omega), byteAt_ok (by omega)]
  rfl

theorem byteAt_eq {b : UInt8} (h : byteAt img ptr = .ok b) : b = img.byte ptr := by
  unfold byteAt at h
  split at h
  · exact (Except.ok.inj h).symm
  · cases h

theorem getIntFromMem_eq {x : Nat} (h : getIntFromMem img ptr = .ok x) : x = intAt img ptr := by
  obtain ⟨b₀, h₀, h⟩ := bind_ok h
  obtain ⟨b₁, h₁, h⟩ := bind_ok h
  obtain ⟨b₂, h₂, h⟩ := bind_ok h
  obtain ⟨b₃, h₃, h⟩ := bind_ok h
  cases h
  rw [byteAt_eq h₀, byteAt_eq h₁, byteAt_eq h₂, byteAt_eq h₃]
  rfl

theorem getShortFromMem_eq {x : Int} (h : getShortFromMem img ptr = .ok x) : x = shortAt img ptr := by
  obtain ⟨b₀, h₀, h⟩ := bind_ok h
  obtain ⟨b₁, h₁, h⟩ := bind_ok h
  cases h
  rw [byteAt_eq h₀, byteAt_eq h₁]
  rfl

def dinodeAt (img : Image) (ptr : Nat) : DInode where
  type := shortAt img ptr
  major := shortAt img (ptr + 2)
  minor := shortAt img (ptr + 4)
  nlink := shortAt img (ptr + 6)
  size := intAt img (ptr + 8)
  addrs := fun j => if j < 13 then intAt img (ptr + 12 + j * 4) else 0

theorem constructInode_eq {d : DInode} (h : constructInode img ptr = .ok d) : d = dinodeAt img ptr := by
  obtain ⟨type, htype, h⟩ := bind_ok h
  obtain ⟨major, hmajor, h⟩ := bind_ok h
  obtain ⟨minor, hminor, h⟩ := bind_ok h
  obtain ⟨nlink, hnlink, h⟩ := bind_ok h
  obtain ⟨size, hsize, h⟩ := bind_ok h
  obtain ⟨addrs, haddrs, h⟩ := bind_ok h
  cases h
  have hall : addrs = (dinodeAt img ptr).addrs := by
    refine funext (forUpTo_inv (I := fun n addrs => ∀ j, addrs j = if j < n then intAt img (ptr + 12 + j * 4) else 0)
      (fun i _ addrs addrs' hI hstep j => ?_) (fun j => rfl) haddrs)
    obtain ⟨x, hx, hstep⟩ := bind_ok hstep
    cases hstep
    by_cases hj : j = i
    · rw [hj, Function.update_self, if_pos (by omega), getIntFromMem_eq hx]
    · rw [Function.update_of_ne hj, hI j]
      exact if_congr (by omega) rfl rfl
  rw [getShortFromMem_eq htype, getShortFromMem_eq hmajor, getShortFromMem_eq hminor, getShortFromMem_eq hnlink,
    getIntFromMem_eq hsize, hall]
  rfl

theorem constructInode_ok (h : ptr + 64 ≤ img.len) : constructInode img ptr = .ok (dinodeAt img ptr) := by
  obtain ⟨d, hd⟩ : ∃ d, constructInode img ptr = .ok d := by
    unfold constructInode
    rw [getShortFromMem_ok (by omega), getShortFromMem_ok (by omega), getShortFromMem_ok (by omega), getShortFromMem_ok (by omega),
      getIntFromMem_ok (by omega)]
    obtain ⟨addrs, haddrs, -⟩ := forUpTo_ok (n := 13) (s := fun _ => 0)
      (f := fun j addrs => do let x ← getIntFromMem img (ptr + 12 + j * 4); return Function.update addrs j x)
      (I := fun _ _ => True) (fun i hi addrs _ => ⟨_, by rw [getIntFromMem_ok (by omega)]; rfl, trivial⟩) trivial
    simp only [ok_bind]
    rw [haddrs]
    exact ⟨_, rfl⟩
  rw [hd, constructInode_eq hd]

def inodePtr (sb : SuperBlock) (i : Nat) : Nat := sb.inodestart * 512 % 2 ^ 32 + i * 64

def inodesAt (img : Image) (sb : SuperBlock) (i : Nat) : DInode :=
  if i < sb.ninodes then dinodeAt img (inodePtr sb i) else .zero

def inuseAt (img : Image) (sb : SuperBlock) (m : Malloc) (i : Nat) : Int :=
  if i < sb.ninodes ∧ shortAt img (inodePtr sb i) ≠ 0 then 1 else m.inuseInode i

theorem constructInodes_eq {sb : SuperBlock} {m : Malloc} {t : Table} (h : constructInodes img sb m = .ok t) :
    t = ⟨inodesAt img sb, inuseAt img sb m⟩ := by
  have hI := forUpTo_inv (I := fun n (t : Table) => ∀ i,
      t.inodes i = (if i < n then dinodeAt img (inodePtr sb i) else .zero) ∧
      t.inuseInode i = if i < n ∧ shortAt img (inodePtr sb i) ≠ 0 then 1 else m.inuseInode i)
    (fun n _ t t' hI ht i => by
      obtain ⟨d, hd, ht⟩ := bind_ok ht
      cases ht
      obtain rfl := constructInode_eq hd
      refine ⟨?_, ?_⟩
      · show Function.update t.inodes n (dinodeAt img (inodePtr sb n)) i = _
        by_cases hi : i = n
        · rw [hi, Function.update_self, if_pos (by omega)]
        · rw [Function.update_of_ne hi, (hI i).1]
          exact if_congr (by omega) rfl rfl
      · show (if shortAt img (inodePtr sb n) ≠ 0 then Function.update t.inuseInode n 1 else t.inuseInode) i = _
        by_cases hi : i = n
        · subst hi
          by_cases h0 : shortAt img (inodePtr sb i) ≠ 0
          · rw [if_pos h0, Function.update_self, if_pos ⟨by omega, h0⟩]
          · rw [if_neg h0, (hI i).2, if_neg (by omega), if_neg fun h => h0 h.2]
        · refine Eq.trans ?_ ((hI i).2.trans (if_congr (and_congr_left fun _ => by omega) rfl rfl))
          split
          · exact Function.update_of_ne hi _ _
          · rfl)
    (fun i => ⟨rfl, (if_neg fun h => Nat.not_lt_zero i h.1).symm⟩) h
  have hinodes : t.inodes = inodesAt img sb := funext fun i => (hI i).1
  have hinuse : t.inuseInode = inuseAt img sb m := funext fun i => (hI i).2
  rw [← hinodes, ← hinuse]

theorem constructInodes_ok {sb : SuperBlock} (h : ∀ i < sb.ninodes, inodePtr sb i + 64 ≤ img.len) (m : Malloc) :
    constructInodes img sb m = .ok ⟨inodesAt img sb, inuseAt img sb m⟩ := by
  obtain ⟨t, ht, -⟩ : ∃ t, constructInodes img sb m = .ok t ∧ True :=
    forUpTo_ok (I := fun _ _ => True) (fun n hn t _ => ⟨_, by rw [← inodePtr, constructInode_ok (h n hn)]; rfl, trivial⟩) trivial
  rw [ht, constructInodes_eq ht]

def superAt (img : Image) (ptr : Nat) : SuperBlock where
  size := intAt img ptr
  nblocks := intAt img (ptr + 4)
  ninodes := intAt img (ptr + 8)
  nlog := 0
  logstart := 0
  inodestart := intAt img (ptr + 20)
  bmapstart := intAt img (ptr + 24)

theorem constructSuperBlock_ok (h : ptr + 28 ≤ img.len) : constructSuperBlock img ptr = .ok (superAt img ptr) := by
  unfold constructSuperBlock
  rw [getIntFromMem_ok (by omega), getIntFromMem_ok (by omega), getIntFromMem_ok (by omega), getIntFromMem_ok (by omega),
    getIntFromMem_ok (by omega)]
  rfl

/-! ### Numbers -/

theorem intOf_lt (b₀ b₁ b₂ b₃ : UInt8) : intOf b₀ b₁ b₂ b₃ < 2 ^ 16 := by
  have hshift : ∀ b : UInt8, b.toNat <<< 8 < 2 ^ 16 := fun b => by
    have := b.toNat_lt
    rw [Nat.shiftLeft_eq]
    omega
  have hlow : b₀.toNat < 2 ^ 16 := by have := b₀.toNat_lt; omega
  exact Nat.or_lt_two_pow (Nat.or_lt_two_pow (Nat.or_lt_two_pow hlow (hshift b₁)) (hshift b₂)) (hshift b₃)

theorem or_shiftLeft_8 (b₀ b₁ : UInt8) : b₀.toNat ||| (b₁.toNat <<< 8) = b₀.toNat + 256 * b₁.toNat := by
  have h0 : b₀.toNat < 2 ^ 8 := b₀.toNat_lt
  rw [Nat.or_comm, ← Nat.shiftLeft_add_eq_or_of_lt h0, Nat.shiftLeft_eq]
  omega

/-- `get_int_from_mem` reads a number back exactly when its two upper bytes are zero. -/
theorem intOf_xint_iff {x : Nat} (hx : x < 2 ^ 32) : intOf (xint x 0) (xint x 1) (xint x 2) (xint x 3) = x ↔ x < 65536 := by
  constructor
  · intro h
    have := intOf_lt (xint x 0) (xint x 1) (xint x 2) (xint x 3)
    omega
  · intro h
    have h2 : (xint x 2).toNat = 0 := by rw [xint, byteOf_toNat]; omega
    have h3 : (xint x 3).toNat = 0 := by rw [xint, byteOf_toNat]; omega
    rw [intOf, h2, h3, or_shiftLeft_8, Nat.zero_shiftLeft, Nat.or_zero, Nat.or_zero, xint, xint, byteOf_toNat, byteOf_toNat]
    omega

theorem shortOf_xshort {x : Int} (hx : IsShort x) : toInt16 ((xshort x 0).toNat ||| ((xshort x 1).toNat <<< 8)) = x := by
  have hlt : toUint16 x < 2 ^ 16 := by unfold toUint16; omega
  have hval : (xshort x 0).toNat + 256 * (xshort x 1).toNat = toUint16 x := by
    rw [xshort, xshort, byteOf_toNat, byteOf_toNat]
    omega
  rw [or_shiftLeft_8, hval, toInt16_toUint16 hx]

def IntAt (img : Image) (ptr x : Nat) : Prop := ∀ k < 4, img.byte (ptr + k) = xint x k

theorem intAt_eq_iff {x : Nat} (hx : x < 2 ^ 32) (h : IntAt img ptr x) : intAt img ptr = x ↔ x < 65536 := by
  have h0 := h 0 (by omega)
  rw [Nat.add_zero] at h0
  rw [intAt, h0, h 1 (by omega), h 2 (by omega), h 3 (by omega)]
  exact intOf_xint_iff hx

theorem shortAt_eq {x : Int} (hx : IsShort x) (h : ∀ k < 2, img.byte (ptr + k) = xshort x k) : shortAt img ptr = x := by
  have h0 := h 0 (by omega)
  rw [Nat.add_zero] at h0
  rw [shortAt, h0, h 1 (by omega)]
  exact shortOf_xshort hx

/-! ### What `mkfs` writes -/

/-- Where `winode` puts inode `i`: at slot `i % IPB` of sector `IBLOCK(i, sb)`, in `uint` arithmetic. -/
def winodePtr (sb : SuperBlock) (i : Nat) : Nat := IBLOCK i sb % 2 ^ 32 * BSIZE % 2 ^ 32 + i % IPB * 64

/-- The image holds the superblock and the inodes as `mkfs` writes them. -/
structure Laid (img : Image) (sb : SuperBlock) (inodes : Nat → DInode) : Prop where
  super_len : 512 + 28 ≤ img.len
  super : ∀ k < 28, img.byte (512 + k) = sb.mem k
  inode_len : ∀ i < sb.ninodes, winodePtr sb i + 64 ≤ img.len
  inode : ∀ i < sb.ninodes, ∀ k < 64, img.byte (winodePtr sb i + k) = (inodes i).mem k

/-- The fields that `construct_super_block` reads. -/
def SameSuper (sb sb' : SuperBlock) : Prop :=
  sb'.size = sb.size ∧ sb'.nblocks = sb.nblocks ∧ sb'.ninodes = sb.ninodes ∧ sb'.inodestart = sb.inodestart ∧
    sb'.bmapstart = sb.bmapstart

def SameInode (d d' : DInode) : Prop :=
  d'.type = d.type ∧ d'.major = d.major ∧ d'.minor = d.minor ∧ d'.nlink = d.nlink ∧ d'.size = d.size ∧
    ∀ j < 13, d'.addrs j = d.addrs j

/-- `construct_super_block` and `construct_inodes` recover what was written. -/
def Recovers (img : Image) (sb : SuperBlock) (inodes : Nat → DInode) : Prop :=
  ∃ sb', constructSuperBlock img 512 = .ok sb' ∧ SameSuper sb sb' ∧
    ∀ m, ∃ t, constructInodes img sb' m = .ok t ∧ ∀ i < sb.ninodes, SameInode (inodes i) (t.inodes i)

/-- No number of 32 bits is 65536 or more. -/
def Small (sb : SuperBlock) (inodes : Nat → DInode) : Prop :=
  (sb.size < 65536 ∧ sb.nblocks < 65536 ∧ sb.ninodes < 65536 ∧ sb.inodestart < 65536 ∧ sb.bmapstart < 65536) ∧
    ∀ i < sb.ninodes, (inodes i).size < 65536 ∧ ∀ j < 13, (inodes i).addrs j < 65536

section
variable {sb : SuperBlock} {inodes : Nat → DInode}

theorem Laid.super_int (h : Laid img sb inodes) {w x : Nat} (hw : w < 7) (hmem : ∀ k < 4, sb.mem (4 * w + k) = xint x k) :
    IntAt img (512 + 4 * w) x := by
  intro k hk
  rw [Nat.add_assoc, h.super _ (by omega), hmem k hk]

theorem Laid.constructSuperBlock (h : Laid img sb inodes) (hsb : sb.Wf) :
    ∃ sb', constructSuperBlock img 512 = .ok sb' ∧ (SameSuper sb sb' ↔
      sb.size < 65536 ∧ sb.nblocks < 65536 ∧ sb.ninodes < 65536 ∧ sb.inodestart < 65536 ∧ sb.bmapstart < 65536) := by
  obtain ⟨hsize, hnblocks, hninodes, -, -, hinodestart, hbmapstart⟩ := hsb
  refine ⟨_, constructSuperBlock_ok h.super_len, ?_⟩
  have h0 := intAt_eq_iff hsize (h.super_int (w := 0) (by omega) fun k hk => SuperBlock.mem_word sb 0 hk)
  have h1 := intAt_eq_iff hnblocks (h.super_int (w := 1) (by omega) fun k hk => SuperBlock.mem_word sb 1 hk)
  have h2 := intAt_eq_iff hninodes (h.super_int (w := 2) (by omega) fun k hk => SuperBlock.mem_word sb 2 hk)
  have h5 := intAt_eq_iff hinodestart (h.super_int (w := 5) (by omega) fun k hk => SuperBlock.mem_word sb 5 hk)
  have h6 := intAt_eq_iff hbmapstart (h.super_int (w := 6) (by omega) fun k hk => SuperBlock.mem_word sb 6 hk)
  exact and_congr h0 (and_congr h1 (and_congr h2 (and_congr h5 h6)))

theorem sameInode_iff {d : DInode} (hd : d.Wf) (h : ∀ k < 64, img.byte (ptr + k) = d.mem k) :
    SameInode d (dinodeAt img ptr) ↔ d.size < 65536 ∧ ∀ j < 13, d.addrs j < 65536 := by
  obtain ⟨htype, hmajor, hminor, hnlink, hsize, haddrs⟩ := hd
  have hshort : ∀ w < 4, ∀ x : Int, (∀ k < 2, d.mem (2 * w + k) = xshort x k) →
      ∀ k < 2, img.byte (ptr + 2 * w + k) = xshort x k := by
    intro w hw x hx k hk
    rw [Nat.add_assoc, h _ (by omega), hx k hk]
  have h0 := shortAt_eq htype (hshort 0 (by omega) _ fun k hk => d.mem_short 0 hk (by omega))
  have h1 := shortAt_eq hmajor (hshort 1 (by omega) _ fun k hk => d.mem_short 1 hk (by omega))
  have h2 := shortAt_eq hminor (hshort 2 (by omega) _ fun k hk => d.mem_short 2 hk (by omega))
  have h3 := shortAt_eq hnlink (hshort 3 (by omega) _ fun k hk => d.mem_short 3 hk (by omega))
  have h4 : IntAt img (ptr + 8) d.size := by
    intro k hk
    rw [Nat.add_assoc, h _ (by omega), DInode.mem_size d hk]
  have h5 : ∀ j < 13, IntAt img (ptr + 12 + j * 4) (d.addrs j) := by
    intro j hj k hk
    rw [show ptr + 12 + j * 4 + k = ptr + (12 + j * 4 + k) by omega, h _ (by omega), DInode.mem_addr d j hk]
  constructor
  · rintro ⟨-, -, -, -, hs, ha⟩
    refine ⟨(intAt_eq_iff hsize h4).1 hs, fun j hj => (intAt_eq_iff (haddrs j hj) (h5 j hj)).1 ?_⟩
    rw [← ha j hj]
    exact (if_pos hj).symm
  · rintro ⟨hs, ha⟩
    refine ⟨h0, h1, h2, h3, (intAt_eq_iff hsize h4).2 hs, fun j hj => ?_⟩
    show (if j < 13 then _ else _) = _
    rw [if_pos hj]
    exact (intAt_eq_iff (haddrs j hj) (h5 j hj)).2 (ha j hj)

theorem inodePtr_eq_winodePtr {sb' : SuperBlock} (hsame : SameSuper sb sb') (hstart : sb.inodestart < 65536) {i : Nat}
    (hi : i < 65536) : inodePtr sb' i = winodePtr sb i := by
  obtain ⟨-, -, -, hstart', -⟩ := hsame
  unfold inodePtr winodePtr IBLOCK IPB BSIZE
  rw [hstart']
  omega

/-- `xcheck` recovers the superblock and all inodes of an image exactly when no number of 32 bits in them is 65536 or more:
`get_int_from_mem` shifts its third and fourth byte by 8, too. -/
theorem construct_iff (hsb : sb.Wf) (hinodes : ∀ i < sb.ninodes, (inodes i).Wf) (h : Laid img sb inodes) :
    Recovers img sb inodes ↔ Small sb inodes := by
  obtain ⟨sb', hsb', hsame⟩ := h.constructSuperBlock hsb
  -- once the superblock is right, the inodes are read where they were written
  have htable : SameSuper sb sb' → ∀ m, constructInodes img sb' m = .ok ⟨inodesAt img sb', inuseAt img sb' m⟩ ∧
      ∀ i < sb.ninodes, (SameInode (inodes i) (inodesAt img sb' i) ↔
        (inodes i).size < 65536 ∧ ∀ j < 13, (inodes i).addrs j < 65536) := by
    intro hs m
    obtain ⟨-, -, hn, hstart, -⟩ := hsame.1 hs
    have hptr : ∀ i < sb.ninodes, inodePtr sb' i = winodePtr sb i := fun i hi => inodePtr_eq_winodePtr hs hstart (by omega)
    have hn' : sb'.ninodes = sb.ninodes := hs.2.2.1
    refine ⟨constructInodes_ok (fun i hi => ?_) m, fun i hi => ?_⟩
    · rw [hn'] at hi
      rw [hptr i hi]
      exact h.inode_len i hi
    · rw [inodesAt, if_pos (by omega), hptr i hi]
      exact sameInode_iff (hinodes i hi) (h.inode i hi)
  constructor
  · rintro ⟨sb'', hsb'', hs, hm⟩
    cases hsb'.symm.trans hsb''
    obtain ⟨t, ht, hi⟩ := hm ⟨fun _ => 0, fun _ => 0⟩
    obtain ⟨hok, hiff⟩ := htable hs ⟨fun _ => 0, fun _ => 0⟩
    cases hok.symm.trans ht
    exact ⟨hsame.1 hs, fun i hlt => (hiff i hlt).1 (hi i hlt)⟩
  · rintro ⟨hsmall, hi⟩
    have hs := hsame.2 hsmall
    refine ⟨sb', hsb', hs, fun m => ⟨_, (htable hs m).1, fun i hlt => ((htable hs m).2 i hlt).2 (hi i hlt)⟩⟩

def layOut (sb : SuperBlock) (inodes : Nat → DInode) : Image where
  len := sb.inodestart * 512 + sb.ninodes * 64
  byte := fun p =>
    if sb.inodestart * 512 ≤ p then (inodes ((p - sb.inodestart * 512) / 64)).mem ((p - sb.inodestart * 512) % 64)
    else if 512 ≤ p ∧ p < 540 then sb.mem (p - 512)
    else 0

theorem laid_layOut (inodes : Nat → DInode) (hstart : 2 ≤ sb.inodestart ∧ sb.inodestart < 65536) (hn : sb.ninodes < 65536) :
    Laid (layOut sb inodes) sb inodes := by
  have hptr : ∀ i < sb.ninodes, winodePtr sb i = sb.inodestart * 512 + i * 64 := by
    intro i hi
    unfold winodePtr IBLOCK IPB BSIZE
    omega
  refine ⟨?_, fun k hk => ?_, fun i hi => ?_, fun i hi k hk => ?_⟩
  · show 540 ≤ sb.inodestart * 512 + sb.ninodes * 64
    omega
  · show (if _ then _ else _) = _
    rw [if_neg (by omega), if_pos (by omega), Nat.add_sub_cancel_left]
  · rw [hptr i hi]
    show _ ≤ sb.inodestart * 512 + sb.ninodes * 64
    omega
  · rw [hptr i hi]
    show (if _ then _ else _) = _
    rw [if_pos (by omega), show (sb.inodestart * 512 + i * 64 + k - sb.inodestart * 512) / 64 = i by omega,
      show (sb.inodestart * 512 + i * 64 + k - sb.inodestart * 512) % 64 = k by omega]

def mkfsSuper : SuperBlock := ⟨1000, 941, 200, 30, 2, 32, 58⟩

def oneFile (size : Nat) (i : Nat) : DInode :=
  if i = 2 then ⟨T_FILE, 0, 0, 1, size, fun j => if j = 0 then 60 else 0⟩ else .zero

theorem oneFile_addrs_lt (size i j : Nat) : (oneFile size i).addrs j < 65536 := by
  unfold oneFile
  split
  · show (if j = 0 then 60 else 0) < 65536
    split <;> omega
  · show 0 < 65536
    omega

theorem oneFile_size_le (size i : Nat) : (oneFile size i).size ≤ size := by
  unfold oneFile
  split
  · exact Nat.le_refl size
  · exact Nat.zero_le size

theorem oneFile_wf {size : Nat} (h : size < 2 ^ 32) (i : Nat) : (oneFile size i).Wf := by
  have hsize := oneFile_size_le size i
  have haddrs := oneFile_addrs_lt size i
  have hzero : IsShort 0 := by decide
  have hshort : IsShort (oneFile size i).type ∧ IsShort (oneFile size i).major ∧ IsShort (oneFile size i).minor ∧
      IsShort (oneFile size i).nlink := by
    unfold oneFile
    split
    · exact ⟨(by decide : IsShort T_FILE), hzero, hzero, (by decide : IsShort 1)⟩
    · exact ⟨hzero, hzero, hzero, hzero⟩
  exact ⟨hshort.1, hshort.2.1, hshort.2.2.1, hshort.2.2.2, by omega, fun j _ => by have := haddrs j; omega⟩

theorem construct_iff_oneFile : Recovers (layOut mkfsSuper (oneFile 512)) mkfsSuper (oneFile 512) := by
  refine (construct_iff (by decide) (fun i _ => oneFile_wf (by omega) i) (laid_layOut _ (by decide) (by decide))).2 ?_
  exact ⟨by decide, fun i _ => ⟨Nat.lt_of_le_of_lt (oneFile_size_le 512 i) (by omega), fun j _ => oneFile_addrs_lt 512 i j⟩⟩

theorem not_recovers_65536 : mkfsSuper.Wf ∧ (∀ i < mkfsSuper.ninodes, (oneFile 65536 i).Wf) ∧
    Laid (layOut mkfsSuper (oneFile 65536)) mkfsSuper (oneFile 65536) ∧
    ¬ Recovers (layOut mkfsSuper (oneFile 65536)) mkfsSuper (oneFile 65536) := by
  refine ⟨by decide, fun i _ => oneFile_wf (by omega) i, laid_layOut _ (by decide) (by decide), ?_⟩
  rintro ⟨sb', -, ⟨-, -, hn, -⟩, hm⟩
  obtain ⟨t, ht, hsame⟩ := hm ⟨fun _ => 0, fun _ => 0⟩
  obtain rfl := constructInodes_eq ht
  have hsize : (inodesAt (layOut mkfsSuper (oneFile 65536)) sb' 2).size = 65536 := (hsame 2 (by decide)).2.2.2.2.1
  rw [inodesAt, if_pos (by rw [hn]; decide)] at hsize
  have hlt : (dinodeAt (layOut mkfsSuper (oneFile 65536)) (inodePtr sb' 2)).size < 2 ^ 16 := intOf_lt _ _ _ _
  omega

end

end Ostep.Fs.Xcheck
