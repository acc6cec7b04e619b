import Mathlib.Data.List.Nodup
import Mathlib.Data.Nat.Bitwise
import Ostep.Lib.Prefix
import Ostep.Fs.Decode

/-!
# Pointers and the bitmap

`pointers` lists the non-zero block numbers that `mark_add` comes to, in its order. The marking loops are one pass over this list
(`markAdd_eq`), and what it leaves in `inuse_block` is the number of pointers to each block.
-/

namespace Ostep.Fs.Xcheck

def undef : Stop → Bool
  | .undefined => true
  | .exit _ _ => false

@[simp] theorem mapError_fail {α : Type} (msg : String) : (fail msg : Except Stop α).mapError undef = .error false := rfl

theorem forUpTo_tests {n : Nat} {f : Nat → Except Stop Unit} {P : Nat → Prop} [DecidablePred P]
    (h : ∀ i < n, (f i).mapError undef = if P i then .ok () else .error false) :
    (forUpTo n (fun i _ => f i) ()).mapError undef = if ∀ i < n, P i then .ok () else .error false := by
  induction n with
  | zero => rfl
  | succ n ih =>
    rw [forUpTo_succ, mapError_bind, ih fun i hi => h i (by omega)]
    by_cases hn : ∀ i < n, P i
    · rw [if_pos hn, ok_bind, h n (by omega)]
      refine if_congr ⟨fun hP i hi => ?_, fun hall => hall n (by omega)⟩ rfl rfl
      rcases Nat.lt_succ_iff_lt_or_eq.1 hi with hi | rfl
      · exact hn i hi
      · exact hP
    · rw [if_neg hn, if_neg fun hall => hn fun i hi => hall i (by omega)]
      rfl

variable {img : Image} {sb : SuperBlock} {n : Nat} {c c' : Nat → Int} {l : List Nat}

/-! ### One pass over the pointers -/

/-- The counter of block `x` goes up to 1, or the pointer is one too many, or there is no such block. -/
def mark (n : Nat) (c : Nat → Int) (x : Nat) : Except Bool (Nat → Int) :=
  if x < n then if c x + 1 > 1 then .error false else .ok (Function.update c x (c x + 1)) else .error true

def nonzero (x : Nat) : List Nat := if x = 0 then [] else [x]

def indirect (img : Image) (x : Nat) : List Nat := (List.range 128).flatMap fun k => nonzero (intAt img (512 * x + k * 4))

def inodePointers (img : Image) (inode : DInode) : List Nat :=
  (List.range 13).flatMap fun j =>
    nonzero (inode.addrs j) ++ if j = 12 ∧ inode.addrs j ≠ 0 then indirect img (inode.addrs j) else []

def pointers (img : Image) (sb : SuperBlock) (inodes : Nat → DInode) : List Nat :=
  (List.range sb.ninodes).flatMap fun i => inodePointers img (inodes i)

theorem markBlock_eq (msg : String) (x : Nat) : (markBlock sb msg x c).mapError undef = mark sb.size c x := by
  unfold markBlock mark addAt
  by_cases hx : x < sb.size
  · rw [if_pos (by omega), if_pos hx, ok_bind, Int.toNat_natCast]
    simp only [Function.update_self]
    split <;> rfl
  · rw [if_neg (by omega), if_neg hx]
    rfl

theorem foldlM_nonzero (x : Nat) : (nonzero x).foldlM (mark n) c = if x = 0 then .ok c else mark n c x := by
  unfold nonzero
  split
  · rfl
  · rw [List.foldlM_cons]
    cases mark n c x <;> rfl

theorem markIndirectAdd_eq {x : Nat} (h : 512 * x + 512 ≤ img.len) :
    (markIndirectAdd img sb x c).mapError undef = (indirect img x).foldlM (mark sb.size) c := by
  refine forUpTo_foldlM fun k hk c => ?_
  rw [getIntFromMem_ok (by omega), ok_bind, foldlM_nonzero]
  by_cases h0 : intAt img (512 * x + k * 4) = 0
  · rw [if_neg (by simpa using h0), if_pos h0]
    rfl
  · rw [if_pos h0, if_neg h0, markBlock_eq]

theorem markInode_eq (hlen : sb.size * 512 ≤ img.len) (inode : DInode) :
    (markInode img sb inode c).mapError undef = (inodePointers img inode).foldlM (mark sb.size) c := by
  refine forUpTo_foldlM fun j _ c => ?_
  rw [List.foldlM_append, foldlM_nonzero]
  by_cases h0 : inode.addrs j = 0
  · rw [if_neg (not_not.2 h0), if_pos h0, ok_bind, if_neg fun h => h.2 h0]
    rfl
  · rw [if_pos h0, if_neg h0, mapError_bind, markBlock_eq]
    by_cases hx : inode.addrs j < sb.size
    · congr 1
      funext c
      by_cases hj : j = 12
      · rw [if_pos hj, if_pos ⟨hj, h0⟩, markIndirectAdd_eq (by omega)]
      · rw [if_neg hj, if_neg fun h => hj h.1]
        rfl
    · -- the walk ends here, before the indirect block is read
      rw [mark, if_neg hx]
      rfl

theorem markAdd_eq (hlen : sb.size * 512 ≤ img.len) (inodes : Nat → DInode) :
    (markAdd img sb inodes c).mapError undef = (pointers img sb inodes).foldlM (mark sb.size) c :=
  forUpTo_foldlM fun i _ _ => markInode_eq hlen (inodes i)

/-! ### What the pass leaves -/

theorem mark_ok {x : Nat} (h : mark n c x = .ok c') : x < n ∧ c x ≤ 0 ∧ ∀ b, c' b = c b + [x].count b := by
  unfold mark at h
  split at h
  · split at h
    · cases h
    · next hx hle =>
      cases h
      refine ⟨hx, by omega, fun b => ?_⟩
      by_cases hb : b = x
      · subst hb
        simp
      · rw [Function.update_of_ne hb, List.count_singleton, if_neg (by simpa using Ne.symm hb)]
        simp
  · cases h

theorem foldlM_mark_ok (h : l.foldlM (mark n) c = .ok c') (b : Nat) : c' b = c b + l.count b := by
  induction l generalizing c with
  | nil => cases h; simp
  | cons x l ih =>
    obtain ⟨c₁, hc₁, h⟩ := bind_ok h
    rw [ih h, (mark_ok hc₁).2.2, List.count_singleton, List.count_cons]
    push_cast
    omega

/-- The pass gets to the end of the pointers exactly when no counter would exceed 1. -/
theorem foldlM_mark_ok_iff (hl : ∀ x ∈ l, x < n) : (∃ c', l.foldlM (mark n) c = .ok c') ↔ ∀ x ∈ l, c x + l.count x ≤ 1 := by
  induction l generalizing c with
  | nil => exact iff_of_true ⟨c, rfl⟩ nofun
  | cons x l ih =>
    rw [List.foldlM_cons]
    have hx : x < n := hl x (by simp)
    have hcount : ∀ b, 0 ≤ ((x :: l).count b : Int) := fun b => Int.natCast_nonneg _
    have hself : 1 ≤ ((x :: l).count x : Int) := by rw [List.count_cons_self]; omega
    by_cases hc : c x ≤ 0
    · have hmark : mark n c x = .ok (Function.update c x (c x + 1)) := by rw [mark, if_pos hx, if_neg (by omega)]
      have hc₁ := (mark_ok hmark).2.2
      rw [hmark, ok_bind, ih fun y hy => hl y (by simp [hy]), List.forall_mem_cons]
      have hsum : ∀ y, Function.update c x (c x + 1) y + l.count y = c y + (x :: l).count y := by
        intro y
        rw [hc₁, List.count_singleton, List.count_cons]
        push_cast
        omega
      simp only [hsum]
      refine ⟨fun h => ⟨?_, h⟩, fun h => h.2⟩
      by_cases hmem : x ∈ l
      · exact h x hmem
      · rw [List.count_cons_self, List.count_eq_zero_of_not_mem hmem]
        push_cast
        omega
    · rw [mark, if_pos hx, if_pos (by omega)]
      refine iff_of_false nofun fun h => ?_
      have := h x (by simp)
      omega

theorem markEservedBlocks_ok (h : sb.bmapstart < sb.size) : markEservedBlocks sb c =
    .ok fun b => if b ≤ sb.bmapstart then 1 else c b := by
  obtain ⟨c', hc', hI⟩ := forUpTo_ok (n := sb.bmapstart + 1) (s := c)
    (f := fun i inuse => if i < sb.size then .ok (Function.update inuse i 1) else .error Stop.undefined)
    (I := fun n c' => ∀ b, c' b = if b < n then 1 else c b)
    (fun i hi c' hI => by
      refine ⟨_, if_pos (by omega), fun b => ?_⟩
      by_cases hb : b = i
      · rw [hb, Function.update_self, if_pos (by omega)]
      · rw [Function.update_of_ne hb, hI b]
        exact if_congr (by omega) rfl rfl)
    (fun b => by simp)
  have : c' = fun b => if b ≤ sb.bmapstart then 1 else c b := funext fun b => (hI b).trans (if_congr (by omega) rfl rfl)
  rw [← this]
  exact hc'

/-! ### The comparison -/

def bit (img : Image) (sb : SuperBlock) (b : Nat) : Bool := (img.byte (sb.bmapstart * 512 + b / 8)).toNat.testBit (b % 8)

/-- What `check_bitmap` accepts for one block. -/
def BitOk (img : Image) (sb : SuperBlock) (c : Nat → Int) (b : Nat) : Prop :=
  (bit img sb b = false → c b ≠ 1) ∧ (bit img sb b = true → c b ≠ 0)

theorem and_one_shiftLeft_eq_zero (val j : Nat) : val &&& (1 <<< j) = 0 ↔ val.testBit j = false := by
  rw [Nat.one_shiftLeft, Nat.and_two_pow]
  cases val.testBit j <;> simp

instance (b : Nat) : Decidable (BitOk img sb c b) :=
  inferInstanceAs (Decidable ((bit img sb b = false → c b ≠ 1) ∧ (bit img sb b = true → c b ≠ 0)))

theorem checkBit_eq {k j : Nat} (hj : j < 8) (hb : 8 * k + j < sb.size) :
    (checkBit sb c (img.byte (sb.bmapstart * 512 + k)) (8 * k) j).mapError undef =
      if BitOk img sb c (8 * k + j) then .ok () else .error false := by
  have hmask := and_one_shiftLeft_eq_zero (img.byte (sb.bmapstart * 512 + k)).toNat j
  have hbit : bit img sb (8 * k + j) = (img.byte (sb.bmapstart * 512 + k)).toNat.testBit j := by
    rw [bit, show (8 * k + j) / 8 = k by omega, show (8 * k + j) % 8 = j by omega]
  have hok : BitOk img sb c (8 * k + j) ↔ ((img.byte (sb.bmapstart * 512 + k)).toNat.testBit j = false → c (8 * k + j) ≠ 1) ∧
      ((img.byte (sb.bmapstart * 512 + k)).toNat.testBit j = true → c (8 * k + j) ≠ 0) := by rw [BitOk, hbit]
  unfold checkBit
  simp only [hb, not_true_eq_false, if_false]
  cases ht : (img.byte (sb.bmapstart * 512 + k)).toNat.testBit j with
  | false =>
    have h0 := hmask.2 ht
    by_cases hc : c (8 * k + j) = 1
    · rw [if_pos ⟨h0, hc⟩, if_neg fun h => (hok.1 h).1 ht hc]
      rfl
    · rw [if_neg fun h => hc h.2, if_neg (by omega), if_pos (hok.2 ⟨fun _ => hc, fun h => by rw [ht] at h; cases h⟩)]
      rfl
  | true =>
    have h0 : ¬ (img.byte (sb.bmapstart * 512 + k)).toNat &&& (1 <<< j) = 0 := fun h => by rw [hmask.1 h] at ht; cases ht
    rw [if_neg fun h => h0 h.1]
    by_cases hc : c (8 * k + j) = 0
    · rw [if_pos ⟨by omega, hc⟩, if_neg fun h => (hok.1 h).2 ht hc]
      rfl
    · rw [if_neg fun h => hc h.2, if_pos (hok.2 ⟨fun h => (by rw [ht] at h; cases h), fun _ => hc⟩)]
      rfl

theorem compareBits_eq (hsize : 1000 ≤ sb.size) (hlen : sb.bmapstart * 512 + 124 < img.len) :
    (compareBits img sb c).mapError undef = if ∀ b : Nat, b < 1000 → BitOk img sb c b then .ok () else .error false := by
  refine (forUpTo_tests (P := fun k => ∀ j : Nat, j < 8 → BitOk img sb c (8 * k + j)) fun k hk => ?_).trans
    (if_congr ⟨fun h b hb => ?_, fun h k hk j hj => h _ (by omega)⟩ rfl rfl)
  · rw [byteAt_ok (by omega), ok_bind]
    exact forUpTo_tests fun j hj => checkBit_eq hj (by omega)
  · have := h (b / 8) (by omega) (b % 8) (by omega)
    rwa [show 8 * (b / 8) + b % 8 = b by omega] at this

theorem compareBits_ok_iff (hsize : 1000 ≤ sb.size) (hlen : sb.bmapstart * 512 + 124 < img.len) :
    compareBits img sb c = .ok () ↔ ∀ b < 1000, BitOk img sb c b := by
  rw [← mapError_eq_ok undef, compareBits_eq hsize hlen]
  split
  · next h => exact iff_of_true rfl h
  · next h => exact iff_of_false nofun h

/-! ### `check_bitmap` -/

/-- `inuse_block` once the reserved blocks are marked. -/
def reserved (sb : SuperBlock) (c : Nat → Int) (b : Nat) : Int := if b ≤ sb.bmapstart then 1 else c b

/-- `inuse_block` in the end. -/
def marked (img : Image) (sb : SuperBlock) (inodes : Nat → DInode) (c : Nat → Int) (b : Nat) : Int :=
  reserved sb c b + (pointers img sb inodes).count b

section
variable {inodes : Nat → DInode} {m : Malloc}

theorem markUsedBlocks_eq (inodes : Nat → DInode) (c : Nat → Int) (hlen : sb.size * 512 ≤ img.len) (hbmap : sb.bmapstart < sb.size) :
    (markUsedBlocks img sb inodes c).mapError undef = (pointers img sb inodes).foldlM (mark sb.size) (reserved sb c) := by
  unfold markUsedBlocks
  rw [markEservedBlocks_ok hbmap, ok_bind, markAdd_eq hlen]
  rfl

theorem checkBitmap_ok_iff_marked (hlen : sb.size * 512 ≤ img.len) (hsize : 1000 ≤ sb.size) (hbmap : sb.bmapstart < sb.size)
    (hptr : ∀ x ∈ pointers img sb inodes, x < sb.size) :
    checkBitmap img sb inodes m = .ok () ↔ (∀ x ∈ pointers img sb inodes, marked img sb inodes m.inuseBlock x ≤ 1) ∧
      ∀ b < 1000, BitOk img sb (marked img sb inodes m.inuseBlock) b := by
  have hend : sb.bmapstart * 512 + 124 < img.len := by omega
  have hmark := markUsedBlocks_eq inodes m.inuseBlock hlen hbmap
  have hok := foldlM_mark_ok_iff (c := reserved sb m.inuseBlock) hptr
  constructor
  · intro h
    obtain ⟨c, hc, hcmp⟩ := bind_ok h
    rw [hc] at hmark
    have hval : c = marked img sb inodes m.inuseBlock := funext fun b => foldlM_mark_ok hmark.symm b
    exact ⟨hok.1 ⟨c, hmark.symm⟩, (compareBits_ok_iff hsize hend).1 (hval ▸ hcmp)⟩
  · rintro ⟨hle, hbits⟩
    obtain ⟨c, hc⟩ := hok.2 hle
    have hval : c = marked img sb inodes m.inuseBlock := funext fun b => foldlM_mark_ok hc b
    rw [hc] at hmark
    unfold checkBitmap
    rw [(mapError_eq_ok undef).1 hmark, ok_bind, hval]
    exact (compareBits_ok_iff hsize hend).2 hbits

theorem marked_le_one_iff (hzero : ∀ b < 1000, m.inuseBlock b = 0) (hptr : ∀ x ∈ pointers img sb inodes, x < 1000) :
    (∀ x ∈ pointers img sb inodes, marked img sb inodes m.inuseBlock x ≤ 1) ↔
      (pointers img sb inodes).Nodup ∧ ∀ x ∈ pointers img sb inodes, sb.bmapstart < x := by
  have hval : ∀ x ∈ pointers img sb inodes, marked img sb inodes m.inuseBlock x =
      (if x ≤ sb.bmapstart then 1 else 0) + (pointers img sb inodes).count x := by
    intro x hx
    rw [marked, reserved, hzero x (hptr x hx)]
  rw [List.nodup_iff_count_le_one]
  constructor
  · intro h
    have hpos : ∀ x ∈ pointers img sb inodes, 1 ≤ (pointers img sb inodes).count x := fun x hx => List.one_le_count_iff.2 hx
    refine ⟨fun x => ?_, fun x hx => ?_⟩
    · by_cases hx : x ∈ pointers img sb inodes
      · have := h x hx
        rw [hval x hx] at this
        split at this <;> omega
      · rw [List.count_eq_zero_of_not_mem hx]
        omega
    · have := h x hx
      have := hpos x hx
      rw [hval x hx] at *
      split at * <;> omega
  · rintro ⟨hnodup, hgt⟩ x hx
    have := hnodup x
    rw [hval x hx, if_neg (by have := hgt x hx; omega)]
    omega

theorem bitOk_marked_iff (hzero : ∀ b < 1000, m.inuseBlock b = 0) (hnodup : (pointers img sb inodes).Nodup)
    (hgt : ∀ x ∈ pointers img sb inodes, sb.bmapstart < x) {b : Nat} (hb : b < 1000) : BitOk img sb (marked img sb inodes m.inuseBlock) b ↔
      (bit img sb b = true ↔ b ≤ sb.bmapstart ∨ b ∈ pointers img sb inodes) := by
  have hcount : (pointers img sb inodes).count b = if b ∈ pointers img sb inodes then 1 else 0 := by
    rw [hnodup.count]
  by_cases huse : b ≤ sb.bmapstart ∨ b ∈ pointers img sb inodes
  · have hone : marked img sb inodes m.inuseBlock b = 1 := by
      rw [marked, reserved, hcount, hzero b hb]
      rcases huse with hle | hmem
      · rw [if_pos hle, if_neg fun h => by have := hgt b h; omega]
        rfl
      · rw [if_neg (by have := hgt b hmem; omega), if_pos hmem]
        rfl
    unfold BitOk
    rw [hone]
    cases bit img sb b <;> simp [huse]
  · have hzero : marked img sb inodes m.inuseBlock b = 0 := by
      rw [not_or] at huse
      rw [marked, reserved, hcount, if_neg huse.1, if_neg huse.2, hzero b hb]
      rfl
    unfold BitOk
    rw [hzero]
    cases bit img sb b <;> simp [huse]

/-- `check_bitmap` accepts an image exactly when its pointers are pairwise different and point behind the bitmap, and the bitmap
marks the blocks that they point to and the blocks up to the bitmap. -/
theorem checkBitmap_ok_iff (hsize : sb.size = 1000) (hlen : sb.size * 512 ≤ img.len) (hbmap : sb.bmapstart < 1000)
    (hptr : ∀ x ∈ pointers img sb inodes, x < 1000) (hzero : ∀ b < 1000, m.inuseBlock b = 0) :
    checkBitmap img sb inodes m = .ok () ↔
      ((pointers img sb inodes).Nodup ∧ ∀ x ∈ pointers img sb inodes, sb.bmapstart < x) ∧
        ∀ b < 1000, (bit img sb b = true ↔ b ≤ sb.bmapstart ∨ b ∈ pointers img sb inodes) := by
  rw [checkBitmap_ok_iff_marked hlen (by omega) (by omega) (by rw [hsize]; exact hptr), marked_le_one_iff hzero hptr]
  exact and_congr_right fun ⟨hnodup, hgt⟩ => forall₂_congr fun b hb => bitOk_marked_iff hzero hnodup hgt hb

end

def sixtyBits : Image where
  len := 1000 * 512
  byte := fun p => if p < 58 * 512 then 0 else if p < 58 * 512 + 7 then 255 else if p = 58 * 512 + 7 then 15 else 0

def oneBlock (i : Nat) : DInode := ⟨if i = 1 then T_DIR else 0, 0, 0, 1, 16, fun j => if i = 1 ∧ j = 0 then 59 else 0⟩

theorem testBit_sixtyBits (b : Nat) : (sixtyBits.byte (58 * 512 + b / 8)).toNat.testBit (b % 8) = decide (b < 60) := by
  have h255 : (255 : UInt8).toNat.testBit (b % 8) = decide (b % 8 < 8) := Nat.testBit_two_pow_sub_one 8 _
  have h15 : (15 : UInt8).toNat.testBit (b % 8) = decide (b % 8 < 4) := Nat.testBit_two_pow_sub_one 4 _
  show (if _ then _ else if _ then _ else if _ then _ else _ : UInt8).toNat.testBit _ = _
  rw [if_neg (by omega)]
  by_cases h7 : b / 8 < 7
  · rw [if_pos (by omega), h255]
    exact decide_eq_decide.2 (by omega)
  rw [if_neg (by omega)]
  by_cases h8 : b / 8 = 7
  · rw [if_pos (by omega), h15]
    exact decide_eq_decide.2 (by omega)
  · rw [if_neg (by omega)]
    exact (Nat.zero_testBit _).trans (decide_eq_false (by omega)).symm

theorem pointers_one {inodes : Nat → DInode} {x : Nat} (hn : 1 < sb.ninodes) (hx : x ≠ 0)
    (haddrs : ∀ i j, (inodes i).addrs j = if i = 1 ∧ j = 0 then x else 0) : pointers img sb inodes = [x] := by
  have hnil : ∀ i j, ¬ (i = 1 ∧ j = 0) →
      (nonzero ((inodes i).addrs j) ++ if j = 12 ∧ (inodes i).addrs j ≠ 0 then indirect img ((inodes i).addrs j) else []) = [] := by
    intro i j hij
    rw [haddrs, if_neg hij, if_neg (fun h => h.2 rfl)]
    rfl
  have hone : inodePointers img (inodes 1) = [x] := by
    rw [inodePointers, flatMap_range_single (i := 0) (by decide) fun j hj => hnil 1 j fun h => hj h.2, haddrs, if_pos ⟨rfl, rfl⟩,
      if_neg (fun h => absurd h.1 (by decide)), nonzero, if_neg hx]
    rfl
  rw [pointers, flatMap_range_single hn fun i hi => ?_, hone]
  exact List.flatMap_eq_nil_iff.2 fun j _ => hnil i j fun h => hi h.1

theorem checkBitmap_ok_iff_sixtyBits :
    checkBitmap sixtyBits mkfsSuper oneBlock ⟨fun _ => 0, fun _ => 0⟩ = .ok () := by
  have hptr : pointers sixtyBits mkfsSuper oneBlock = [59] := pointers_one (by decide) (by decide) fun _ _ => rfl
  refine (checkBitmap_ok_iff rfl (Nat.le_refl _) (by decide) (by rw [hptr]; decide) (fun _ _ => rfl)).2 ?_
  rw [hptr]
  refine ⟨by decide, fun b hb => ?_⟩
  have hbit : bit sixtyBits mkfsSuper b = decide (b < 60) := testBit_sixtyBits b
  rw [hbit, decide_eq_true_iff, List.mem_singleton]
  show b < 60 ↔ b ≤ 58 ∨ b = 59
  omega

end Ostep.Fs.Xcheck
