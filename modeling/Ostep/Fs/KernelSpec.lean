import Mathlib.Data.Nat.Bitwise
import Ostep.Lib.Word
import Ostep.Fs.Kernel

/-!
# What the kernel reads of a directory

`content` is the content of an inode as a function of the offset, with zeros where blocks are missing. On a disk on which the
free map covers the blocks of the inode (`Sound`), allocating a missing block changes nothing of it (`Same`), so that `readi`
returns it and `dirlookup` returns the first entry with the name among all used slots below the size, `seen`.
-/

namespace Ostep.Fs.Kernel

variable {sb : SuperBlock} {img img' : Image} {d d' : DInode} {b x : Nat}

def lastMap (sb : SuperBlock) : Nat := BBLOCK (sb.size - 1) sb

/-- The disk block of block `bn`, or 0. -/
def blockAt (img : Image) (d : DInode) (bn : Nat) : Nat :=
  if bn < NDIRECT then d.addrs bn
  else if d.addrs NDIRECT = 0 then 0 else uintAt img (d.addrs NDIRECT * BSIZE + (bn - NDIRECT) * 4)

/-- The pointers of an inode: the addresses in it and the entries of its indirect block. -/
def NPTR : Nat := NDIRECT + 1 + NINDIRECT

def ptrAt (img : Image) (d : DInode) (k : Nat) : Nat :=
  if k ≤ NDIRECT then d.addrs k
  else if d.addrs NDIRECT = 0 then 0 else uintAt img (d.addrs NDIRECT * BSIZE + (k - (NDIRECT + 1)) * 4)

def slotFor (bn : Nat) : Nat := if bn < NDIRECT then bn else bn + 1

def content (img : Image) (d : DInode) (p : Nat) : UInt8 :=
  if blockAt img d (p / BSIZE) = 0 then 0 else img.byte (blockAt img d (p / BSIZE) * BSIZE + p % BSIZE)

/-- A block behind the free map that is in use. -/
structure InData (sb : SuperBlock) (img : Image) (x : Nat) : Prop where
  lt : x < sb.size
  behind : lastMap sb < x
  used : inUse sb img x = true

/-- The free map marks the blocks of the inode and those up to its own end, and the indirect block holds no content. -/
structure Sound (sb : SuperBlock) (img : Image) (d : DInode) : Prop where
  size_lt : sb.size < 2 ^ 32
  reserved : ∀ b ≤ lastMap sb, b < sb.size → inUse sb img b = true
  block : ∀ bn < MAXFILE, blockAt img d bn ≠ 0 → InData sb img (blockAt img d bn)
  ind : d.addrs NDIRECT ≠ 0 → InData sb img (d.addrs NDIRECT)
  sep : ∀ bn < MAXFILE, blockAt img d bn ≠ 0 → blockAt img d bn ≠ d.addrs NDIRECT

/-- The same file, with some more blocks allocated. -/
structure Same (sb : SuperBlock) (img : Image) (d : DInode) (img' : Image) (d' : DInode) : Prop where
  sound : Sound sb img' d'
  type : d'.type = d.type
  size : d'.size = d.size
  kept : ∀ bn < MAXFILE, blockAt img d bn ≠ 0 → blockAt img' d' bn ≠ 0
  content : ∀ p < MAXFILE * BSIZE, content img' d' p = content img d p

theorem Same.refl (h : Sound sb img d) : Same sb img d img d := ⟨h, rfl, rfl, fun _ _ => id, fun _ _ => rfl⟩

theorem Same.trans {img'' : Image} {d'' : DInode} (h : Same sb img d img' d') (h' : Same sb img' d' img'' d'') :
    Same sb img d img'' d'' :=
  ⟨h'.sound, h'.type.trans h.type, h'.size.trans h.size, fun bn hbn hne => h'.kept bn hbn (h.kept bn hbn hne),
    fun p hp => (h'.content p hp).trans (h.content p hp)⟩

/-! ### Allocation -/

theorem mapByte_block (sb : SuperBlock) (b : Nat) : mapByte sb b / BSIZE = BBLOCK b sb := by
  unfold mapByte BSIZE BPB BSIZE
  omega

theorem mapByte_le (h : x < sb.size) : mapByte sb x / BSIZE ≤ lastMap sb := by
  rw [mapByte_block]
  unfold lastMap BBLOCK BPB BSIZE
  omega

theorem mapByte_inj (h : mapByte sb x = mapByte sb b) (hne : x ≠ b) : x % 8 ≠ b % 8 := by
  unfold mapByte BBLOCK BPB BSIZE at h
  omega

theorem or_bit_lt (v : UInt8) (k : Nat) : v.toNat ||| 1 <<< (k % 8) < 256 := by
  have hv : v.toNat < 2 ^ 8 := v.toNat_lt
  have hbit : 1 <<< (k % 8) < 2 ^ 8 := by
    rw [Nat.one_shiftLeft]
    exact Nat.pow_lt_pow_right (by omega) (by omega)
  exact Nat.or_lt_two_pow hv hbit

theorem inUse_setInUse (sb : SuperBlock) (img : Image) (b x : Nat) :
    inUse sb (setInUse sb b img) x = (decide (x = b) || inUse sb img x) := by
  unfold inUse setInUse
  by_cases hp : mapByte sb x = mapByte sb b
  · simp only [hp, Function.update_self]
    rw [UInt8.toNat_ofNat', Nat.mod_eq_of_lt (or_bit_lt _ _), Nat.testBit_or, Nat.one_shiftLeft, Nat.testBit_two_pow, Bool.or_comm]
    by_cases hx : x = b
    · simp [hx]
    · have := mapByte_inj hp hx
      simp [hx, this.symm]
  · have hx : x ≠ b := fun h => hp (by rw [h])
    simp [Function.update_of_ne hp, hx]

def alloc (sb : SuperBlock) (b : Nat) (img : Image) : Image := bzero b (setInUse sb b img)

def Full (sb : SuperBlock) (img : Image) : Prop := ∀ b < sb.size, inUse sb img b = true

theorem balloc_spec (sb : SuperBlock) (img : Image) : (balloc sb img = .error .outOfBlocks ∧ Full sb img) ∨
    ∃ b, balloc sb img = .ok (b, alloc sb b img) ∧ b < sb.size ∧ inUse sb img b = false := by
  unfold balloc
  cases hfind : (List.range sb.size).find? fun b => !inUse sb img b with
  | none =>
    refine .inl ⟨rfl, fun b hb => ?_⟩
    simpa using List.find?_eq_none.1 hfind b (List.mem_range.2 hb)
  | some b =>
    refine .inr ⟨b, rfl, List.mem_range.1 (List.mem_of_find?_eq_some hfind), ?_⟩
    simpa using List.find?_some hfind

theorem balloc_cases (sb : SuperBlock) (img : Image) : balloc sb img = .error .outOfBlocks ∨
    ∃ b, balloc sb img = .ok (b, alloc sb b img) ∧ b < sb.size ∧ inUse sb img b = false :=
  (balloc_spec sb img).imp_left And.left

theorem Sound.fresh (h : Sound sb img d) (hb : b < sb.size) (hfree : inUse sb img b = false) : lastMap sb < b := by
  by_contra hle
  rw [h.reserved b (by omega) hb] at hfree
  cases hfree

theorem byte_alloc (hbound : b < sb.size) {p : Nat} (hp : lastMap sb < p / BSIZE) :
    (alloc sb b img).byte p = if p / BSIZE = b then 0 else img.byte p := by
  have hle := mapByte_le hbound
  have hne : p ≠ mapByte sb b := fun h => by rw [h] at hp; omega
  unfold alloc bzero setInUse
  simp only [Function.update_of_ne hne]

section
variable (hfresh : lastMap sb < b)
include hfresh

theorem low_alloc {p : Nat} (hp : p / BSIZE < sb.bmapstart) : (alloc sb b img).byte p = img.byte p := by
  have hge : sb.bmapstart ≤ lastMap sb := Nat.le_add_left _ _
  have hne : p ≠ mapByte sb b := by
    rintro rfl
    rw [mapByte_block] at hp
    exact Nat.not_lt.2 (Nat.le_add_left _ _) hp
  unfold alloc bzero setInUse
  simp only [Function.update_of_ne hne]
  exact if_neg (by omega)

theorem inUse_alloc (hx : x < sb.size) : inUse sb (alloc sb b img) x = (decide (x = b) || inUse sb img x) := by
  rw [← inUse_setInUse]
  have hle := mapByte_le hx
  have hne : mapByte sb x / BSIZE ≠ b := by omega
  unfold inUse alloc bzero
  simp only [if_neg hne]

theorem InData.alloc (h : InData sb img x) : InData sb (alloc sb b img) x :=
  ⟨h.lt, h.behind, by rw [inUse_alloc hfresh h.lt, h.used, Bool.or_true]⟩

end

/-! ### Blocks of an inode -/

theorem InData.ne_of_free (h : InData sb img x) (hfree : inUse sb img b = false) : x ≠ b := by
  rintro rfl
  rw [h.used] at hfree
  cases hfree

theorem uintAt_congr {p : Nat} (h : ∀ q, p ≤ q → q < p + 4 → img'.byte q = img.byte q) : uintAt img' p = uintAt img p := load_congr h

theorem uintAt_setUint_self {p : Nat} (hx : x < 2 ^ 32) : uintAt (setUint p x img) p = x := load_store_self p img.byte hx

theorem slot_div {ind j q : Nat} (hj : j < NPTR) (hq : ind * BSIZE + (j - (NDIRECT + 1)) * 4 ≤ q)
    (hq' : q < ind * BSIZE + (j - (NDIRECT + 1)) * 4 + 4) : q / BSIZE = ind := by
  unfold NPTR NINDIRECT NDIRECT BSIZE at *
  omega

theorem entry_div {ind n q : Nat} (hn : n < MAXFILE) (hq : ind * BSIZE + (n - NDIRECT) * 4 ≤ q)
    (hq' : q < ind * BSIZE + (n - NDIRECT) * 4 + 4) : q / BSIZE = ind := by
  unfold MAXFILE NINDIRECT NDIRECT BSIZE at *
  omega

theorem ptrAt_slotFor (img : Image) (d : DInode) (bn : Nat) : ptrAt img d (slotFor bn) = blockAt img d bn := by
  unfold ptrAt slotFor blockAt
  by_cases hdir : bn < NDIRECT
  · rw [if_pos hdir, if_pos hdir, if_pos hdir.le]
  · rw [if_neg hdir, if_neg hdir, if_neg (by omega), show bn + 1 - (NDIRECT + 1) = bn - NDIRECT by omega]

theorem ptrAt_ind (img : Image) (d : DInode) : ptrAt img d NDIRECT = d.addrs NDIRECT := if_pos (Nat.le_refl _)

theorem slotFor_lt {bn : Nat} (h : bn < MAXFILE) : slotFor bn < NPTR := by
  unfold MAXFILE at h
  unfold slotFor NPTR
  split <;> omega

theorem slotFor_ne (bn : Nat) : slotFor bn ≠ NDIRECT := by
  unfold slotFor
  split <;> omega

theorem slot_cases {k : Nat} (hk : k < NPTR) : k = NDIRECT ∨ ∃ bn < MAXFILE, k = slotFor bn := by
  unfold NPTR at hk
  rcases Nat.lt_trichotomy k NDIRECT with hlt | heq | hgt
  · exact .inr ⟨k, by unfold MAXFILE; omega, (if_pos hlt).symm⟩
  · exact .inl heq
  · refine .inr ⟨k - 1, by unfold MAXFILE; omega, ?_⟩
    rw [slotFor, if_neg (by omega)]
    omega

/-- A free block `b`, filled with zeros, becomes pointer `k` of the inode. -/
structure Put (sb : SuperBlock) (img : Image) (d : DInode) (img' : Image) (d' : DInode) (k b : Nat) : Prop where
  lt : b < sb.size
  free : inUse sb img b = false
  slot : k < NPTR
  null : ptrAt img d k = 0
  type : d'.type = d.type
  size : d'.size = d.size
  ptr : ∀ j < NPTR, ptrAt img' d' j = if j = k then b else ptrAt img d j
  used : ∀ x < sb.size, inUse sb img' x = (decide (x = b) || inUse sb img x)
  byte : ∀ p, lastMap sb < p / BSIZE → p / BSIZE ≠ d.addrs NDIRECT → img'.byte p = if p / BSIZE = b then 0 else img.byte p

/-- `bmap` changes an inode by such steps. -/
inductive Grows (sb : SuperBlock) (img : Image) (d : DInode) : Image → DInode → Prop
  | refl : Grows sb img d img d
  | put {img₁ d₁ img' d' k b} : Grows sb img d img₁ d₁ → Put sb img₁ d₁ img' d' k b → Grows sb img d img' d'

theorem Grows.trans {img₁ : Image} {d₁ : DInode} (h : Grows sb img d img₁ d₁) (h' : Grows sb img₁ d₁ img' d') : Grows sb img d img' d' := by
  induction h' with
  | refl => exact h
  | put _ hp ih => exact .put ih hp

/-- The same for the pointers with `P`. Nothing in front of the free map changes. -/
inductive GrowsIn (sb : SuperBlock) (P : Nat → Prop) (img : Image) (d : DInode) : Image → DInode → Prop
  | refl : GrowsIn sb P img d img d
  | put {img₁ d₁ img' d' k b} : GrowsIn sb P img d img₁ d₁ → P k → Put sb img₁ d₁ img' d' k b →
      (∀ p, p / BSIZE < sb.bmapstart → img'.byte p = img₁.byte p) → GrowsIn sb P img d img' d'

section
variable {P Q : Nat → Prop}

theorem GrowsIn.grows (h : GrowsIn sb P img d img' d') : Grows sb img d img' d' := by
  induction h with
  | refl => exact .refl
  | put _ _ hp _ ih => exact .put ih hp

theorem GrowsIn.trans {img₁ : Image} {d₁ : DInode} (h : GrowsIn sb P img d img₁ d₁) (h' : GrowsIn sb P img₁ d₁ img' d') :
    GrowsIn sb P img d img' d' := by
  induction h' with
  | refl => exact h
  | put _ hk hp hlow ih => exact .put ih hk hp hlow

theorem GrowsIn.mono (h : GrowsIn sb P img d img' d') (hPQ : ∀ k, P k → Q k) : GrowsIn sb Q img d img' d' := by
  induction h with
  | refl => exact .refl
  | put _ hk hp hlow ih => exact .put ih (hPQ _ hk) hp hlow

theorem GrowsIn.low (h : GrowsIn sb P img d img' d') {p : Nat} (hp : p / BSIZE < sb.bmapstart) : img'.byte p = img.byte p := by
  induction h with
  | refl => rfl
  | put _ _ _ hlow ih => exact (hlow p hp).trans ih

end

section
variable {k : Nat}

theorem Put.block (h : Put sb img d img' d' k b) {n : Nat} (hn : n < MAXFILE) :
    blockAt img' d' n = if slotFor n = k then b else blockAt img d n := by
  rw [← ptrAt_slotFor, h.ptr _ (slotFor_lt hn), ptrAt_slotFor]

theorem Put.ind (h : Put sb img d img' d' k b) : d'.addrs NDIRECT = if NDIRECT = k then b else d.addrs NDIRECT := by
  rw [← ptrAt_ind img' d', h.ptr _ (by unfold NPTR; omega), ptrAt_ind]

theorem Put.inData (h : Put sb img d img' d' k b) (hx : InData sb img x) : InData sb img' x :=
  ⟨hx.lt, hx.behind, by rw [h.used x hx.lt, hx.used, Bool.or_true]⟩

theorem Same.of_put (h : Sound sb img d) (hp : Put sb img d img' d' k b) : Same sb img d img' d' := by
  have hfresh := h.fresh hp.lt hp.free
  have hself : InData sb img' b := ⟨hp.lt, hfresh, by rw [hp.used b hp.lt]; simp⟩
  have hindb : d.addrs NDIRECT ≠ b := by
    intro heq
    by_cases h0 : d.addrs NDIRECT = 0
    · omega
    · exact (h.ind h0).ne_of_free hp.free heq
  constructor
  · refine ⟨h.size_lt, fun x hx hlt => ?_, fun n hn hne => ?_, fun hne => ?_, fun n hn hne => ?_⟩
    · rw [hp.used x hlt, h.reserved x hx hlt, Bool.or_true]
    · rw [hp.block hn] at hne ⊢
      split at hne
      · next heq => rwa [if_pos heq]
      · next heq =>
        rw [if_neg heq]
        exact hp.inData (h.block n hn hne)
    · rw [hp.ind] at hne ⊢
      split at hne
      · next heq => rwa [if_pos heq]
      · next heq =>
        rw [if_neg heq]
        exact hp.inData (h.ind hne)
    · rw [hp.block hn] at hne ⊢
      rw [hp.ind]
      split at hne
      · next heq =>
        rw [if_pos heq, if_neg fun h => slotFor_ne n (heq.trans h.symm)]
        exact hindb.symm
      · next heq =>
        rw [if_neg heq]
        split
        · exact (h.block n hn hne).ne_of_free hp.free
        · exact h.sep n hn hne
  · exact hp.type
  · exact hp.size
  · intro n hn hne
    rw [hp.block hn]
    split
    · omega
    · exact hne
  · intro p hmax
    have hn : p / BSIZE < MAXFILE := by unfold BSIZE at *; omega
    have hdiv : ∀ x, (x * BSIZE + p % BSIZE) / BSIZE = x := by
      intro x
      unfold BSIZE
      omega
    unfold Kernel.content
    rw [hp.block hn]
    by_cases heq : slotFor (p / BSIZE) = k
    · have hhole : blockAt img d (p / BSIZE) = 0 := by rw [← ptrAt_slotFor, heq, hp.null]
      rw [if_pos heq, if_neg (by omega), if_pos hhole, hp.byte _ (by rw [hdiv]; exact hfresh) (by rw [hdiv]; exact hindb.symm), hdiv, if_pos rfl]
    · rw [if_neg heq]
      by_cases h0 : blockAt img d (p / BSIZE) = 0
      · rw [if_pos h0, if_pos h0]
      · have hx := h.block _ hn h0
        rw [if_neg h0, if_neg h0, hp.byte _ (by rw [hdiv]; exact hx.behind) (by rw [hdiv]; exact h.sep _ hn h0), hdiv,
          if_neg (hx.ne_of_free hp.free)]

theorem Same.of_grows (h : Sound sb img d) (hg : Grows sb img d img' d') : Same sb img d img' d' := by
  induction hg with
  | refl => exact .refl h
  | put _ hp ih => exact ih.trans (.of_put ih.sound hp)

end

theorem Sound.put_direct {bn : Nat} (h : Sound sb img d) (hb : b < sb.size) (hfree : inUse sb img b = false) (hbn : bn < NDIRECT)
    (hhole : d.addrs bn = 0) : Put sb img d (alloc sb b img) { d with addrs := Function.update d.addrs bn b } bn b := by
  have hfresh := h.fresh hb hfree
  have hind : Function.update d.addrs bn b NDIRECT = d.addrs NDIRECT := Function.update_of_ne (by omega) _ _
  refine ⟨hb, hfree, by unfold NPTR; omega, (if_pos hbn.le).trans hhole, rfl, rfl, fun j hj => ?_, fun x hx => inUse_alloc hfresh hx,
    fun p hp _ => byte_alloc hb hp⟩
  unfold ptrAt
  simp only [hind]
  by_cases hdir : j ≤ NDIRECT
  · rw [if_pos hdir, if_pos hdir, Function.update_apply]
  · rw [if_neg hdir, if_neg hdir, if_neg (show j ≠ bn by omega)]
    by_cases h0 : d.addrs NDIRECT = 0
    · rw [if_pos h0, if_pos h0]
    · rw [if_neg h0, if_neg h0]
      refine uintAt_congr fun q hq hq' => ?_
      have hi := h.ind h0
      have hdiv := slot_div hj hq hq'
      rw [byte_alloc hb (by rw [hdiv]; exact hi.behind), hdiv, if_neg (hi.ne_of_free hfree)]

theorem Sound.put_indirect (h : Sound sb img d) (hb : b < sb.size) (hfree : inUse sb img b = false) (hhole : d.addrs NDIRECT = 0) :
    Put sb img d (alloc sb b img) { d with addrs := Function.update d.addrs NDIRECT b } NDIRECT b := by
  have hfresh := h.fresh hb hfree
  have hind : Function.update d.addrs NDIRECT b NDIRECT = b := Function.update_self ..
  refine ⟨hb, hfree, by unfold NPTR; omega, (ptrAt_ind img d).trans hhole, rfl, rfl, fun j hj => ?_, fun x hx => inUse_alloc hfresh hx,
    fun p hp _ => byte_alloc hb hp⟩
  unfold ptrAt
  simp only [hind]
  by_cases hdir : j ≤ NDIRECT
  · rw [if_pos hdir, if_pos hdir, Function.update_apply]
  · rw [if_neg hdir, if_neg hdir, if_neg (show j ≠ NDIRECT by omega), if_pos hhole, if_neg (by omega)]
    have hzero : ∀ k < 4, (alloc sb b img).byte (b * BSIZE + (j - (NDIRECT + 1)) * 4 + k) = 0 := fun k hk => by
      have hdiv := slot_div hj (Nat.le_add_right (b * BSIZE + _) k) (Nat.add_lt_add_left hk _)
      rw [byte_alloc hb (by rw [hdiv]; exact hfresh), if_pos hdiv]
    have h0 := hzero 0 (by omega)
    rw [Nat.add_zero] at h0
    rw [uintAt, h0, hzero 1 (by omega), hzero 2 (by omega), hzero 3 (by omega)]
    rfl

theorem Sound.put_entry {bn : Nat} (h : Sound sb img d) (hb : b < sb.size) (hfree : inUse sb img b = false) (hbn : ¬ bn < NDIRECT)
    (hmax : bn < MAXFILE) (hind : d.addrs NDIRECT ≠ 0) (hhole : uintAt img (d.addrs NDIRECT * BSIZE + (bn - NDIRECT) * 4) = 0) :
    Put sb img d (setUint (d.addrs NDIRECT * BSIZE + (bn - NDIRECT) * 4) b (alloc sb b img)) d (slotFor bn) b := by
  have hfresh := h.fresh hb hfree
  have hi := h.ind hind
  have hib := hi.ne_of_free hfree
  have hslot : slotFor bn = bn + 1 := if_neg hbn
  have hset : ∀ q, q / BSIZE ≠ d.addrs NDIRECT →
      (setUint (d.addrs NDIRECT * BSIZE + (bn - NDIRECT) * 4) b (alloc sb b img)).byte q = (alloc sb b img).byte q := by
    intro q hq
    exact if_neg fun hin => hq (entry_div hmax hin.1 hin.2)
  refine ⟨hb, hfree, slotFor_lt hmax, ?_, rfl, rfl, fun j hj => ?_, fun x hx => ?_, fun p hp hne => ?_⟩
  · rw [ptrAt_slotFor, blockAt, if_neg hbn, if_neg hind, hhole]
  · unfold ptrAt
    by_cases hdir : j ≤ NDIRECT
    · rw [if_pos hdir, if_pos hdir, if_neg (show j ≠ slotFor bn by omega)]
    · rw [if_neg hdir, if_neg hdir, if_neg hind, if_neg hind]
      by_cases heq : j = slotFor bn
      · rw [if_pos heq, show j - (NDIRECT + 1) = bn - NDIRECT by omega, uintAt_setUint_self (Nat.lt_trans hb h.size_lt)]
      · rw [if_neg heq]
        refine uintAt_congr fun q hq hq' => ?_
        have hdiv := slot_div hj hq hq'
        have hout : ¬ (d.addrs NDIRECT * BSIZE + (bn - NDIRECT) * 4 ≤ q ∧ q < d.addrs NDIRECT * BSIZE + (bn - NDIRECT) * 4 + 4) := by
          omega
        show (if _ then _ else _) = _
        rw [if_neg hout, byte_alloc hb (by rw [hdiv]; exact hi.behind), hdiv, if_neg hib]
  · have hle := mapByte_le hx
    have hbehind := hi.behind
    rw [← inUse_alloc hfresh hx]
    unfold inUse
    rw [hset _ (by omega)]
  · rw [hset p hne, byte_alloc hb hp]

/-- The part of `bmap` behind the indirect block. -/
def bmapEntry (sb : SuperBlock) (ip : DInode) (img : Image) (bn : Nat) : Except Panic (Nat × DInode × Image) :=
  let p := ip.addrs NDIRECT * BSIZE + (bn - NDIRECT) * 4
  if uintAt img p = 0 then do
    let (addr, img) ← balloc sb img
    return (addr, ip, setUint p addr img)
  else return (uintAt img p, ip, img)

/-- The pointers on the way to block `bn`. -/
def Needs (bn k : Nat) : Prop := k = slotFor bn ∨ k = NDIRECT ∧ ¬ bn < NDIRECT

theorem slotFor_needs (bn : Nat) : Needs bn (slotFor bn) := .inl rfl

/-- A pointer to block `bn` is missing when the disk has become full. -/
def RunsOut (sb : SuperBlock) (img : Image) (d : DInode) (bn : Nat) : Prop :=
  ∃ img₁ d₁ k, GrowsIn sb (Needs bn) img d img₁ d₁ ∧ Needs bn k ∧ ptrAt img₁ d₁ k = 0 ∧ Full sb img₁

theorem RunsOut.blockAt {bn : Nat} (h : RunsOut sb img d bn) (hs : Sound sb img d) (hbn : bn < MAXFILE) : blockAt img d bn = 0 := by
  obtain ⟨img₁, d₁, k, hg, hk, hnull, -⟩ := h
  by_contra hne
  have hkept := (Same.of_grows hs hg.grows).kept bn hbn hne
  rcases hk with rfl | ⟨rfl, hdir⟩
  · rw [ptrAt_slotFor] at hnull
    exact hkept hnull
  · rw [ptrAt_ind] at hnull
    exact hkept (by rw [Kernel.blockAt, if_neg hdir, if_pos hnull])

theorem bmapEntry_spec {bn : Nat} (h : Sound sb img d) (hdir : ¬ bn < NDIRECT) (hbn : bn < MAXFILE) (hind : d.addrs NDIRECT ≠ 0) :
    (bmapEntry sb d img bn = .error .outOfBlocks ∧ RunsOut sb img d bn) ∨
      ∃ d' img', bmapEntry sb d img bn = .ok (blockAt img' d' bn, d', img') ∧ blockAt img' d' bn ≠ 0 ∧
        GrowsIn sb (Needs bn) img d img' d' := by
  have hat : blockAt img d bn = uintAt img (d.addrs NDIRECT * BSIZE + (bn - NDIRECT) * 4) := by
    rw [blockAt, if_neg hdir, if_neg hind]
  unfold bmapEntry
  by_cases h0 : uintAt img (d.addrs NDIRECT * BSIZE + (bn - NDIRECT) * 4) = 0
  · rw [if_pos h0]
    rcases balloc_spec sb img with ⟨hfail, hfull⟩ | ⟨b, hb, hlt, hfree⟩
    · rw [hfail]
      exact .inl ⟨rfl, img, d, _, .refl, slotFor_needs bn, by rw [ptrAt_slotFor, hat, h0], hfull⟩
    · have hfresh := h.fresh hlt hfree
      have hput := h.put_entry hlt hfree hdir hbn hind h0
      have hnew : blockAt _ d bn = b := (hput.block hbn).trans (if_pos rfl)
      refine .inr ⟨_, _, ?_, ?_, .put .refl (slotFor_needs bn) hput fun p hp => ?_⟩
      · rw [hb, hnew]
        rfl
      · omega
      · have hge : sb.bmapstart ≤ lastMap sb := Nat.le_add_left _ _
        have hbehind := (h.ind hind).behind
        refine (if_neg fun hin => ?_).trans (low_alloc hfresh hp)
        rw [entry_div hbn hin.1 hin.2] at hp
        omega
  · rw [if_neg h0]
    exact .inr ⟨d, img, by rw [hat]; rfl, by rw [hat]; exact h0, .refl⟩

theorem bmap_growsIn {bn : Nat} (h : Sound sb img d) (hbn : bn < MAXFILE) :
    (bmap sb d img bn = .error .outOfBlocks ∧ RunsOut sb img d bn) ∨
      ∃ d' img', bmap sb d img bn = .ok (blockAt img' d' bn, d', img') ∧ blockAt img' d' bn ≠ 0 ∧
        GrowsIn sb (Needs bn) img d img' d' := by
  unfold bmap
  by_cases hdir : bn < NDIRECT
  · have hat : blockAt img d bn = d.addrs bn := if_pos hdir
    rw [if_pos hdir]
    by_cases h0 : d.addrs bn = 0
    · rw [if_pos h0]
      rcases balloc_spec sb img with ⟨hfail, hfull⟩ | ⟨b, hb, hlt, hfree⟩
      · rw [hfail]
        exact .inl ⟨rfl, img, d, _, .refl, slotFor_needs bn, by rw [ptrAt_slotFor, hat, h0], hfull⟩
      · have hfresh := h.fresh hlt hfree
        have hput := h.put_direct hlt hfree hdir h0
        have hnew : blockAt (alloc sb b img) { d with addrs := Function.update d.addrs bn b } bn = b :=
          (hput.block hbn).trans (if_pos (if_pos hdir))
        rw [hb]
        refine .inr ⟨_, _, ?_, ?_, .put .refl (.inl (if_pos hdir).symm) hput fun p hp => low_alloc hfresh hp⟩
        · rw [hnew]
          rfl
        · omega
    · rw [if_neg h0]
      exact .inr ⟨d, img, by rw [hat], by rw [hat]; exact h0, .refl⟩
  · rw [if_neg hdir, if_pos (show bn - NDIRECT < NINDIRECT by unfold MAXFILE at hbn; omega)]
    -- the indirect block first, then the entry in it
    by_cases h0 : d.addrs NDIRECT = 0
    · rw [if_pos h0]
      rcases balloc_spec sb img with ⟨hfail, hfull⟩ | ⟨b, hb, hlt, hfree⟩
      · rw [hfail]
        exact .inl ⟨rfl, img, d, _, .refl, .inr ⟨rfl, hdir⟩, (ptrAt_ind img d).trans h0, hfull⟩
      · have hput := h.put_indirect hlt hfree h0
        have hself : Function.update d.addrs NDIRECT b NDIRECT = b := Function.update_self ..
        have hb0 := h.fresh hlt hfree
        have hg₁ : GrowsIn sb (Needs bn) img d _ _ := .put .refl (.inr ⟨rfl, hdir⟩) hput fun p hp => low_alloc hb0 hp
        rw [hb]
        have hr := bmapEntry_spec (Same.of_put h hput).sound hdir hbn (by simp only [hself]; omega)
        unfold bmapEntry at hr
        simp only [hself] at hr
        rcases hr with ⟨hfail, img₁, d₁, k, hg, hk⟩ | ⟨d', img', hok, hne, hg⟩
        · exact .inl ⟨hfail, img₁, d₁, k, hg₁.trans hg, hk⟩
        · exact .inr ⟨d', img', hok, hne, hg₁.trans hg⟩
    · rw [if_neg h0]
      exact bmapEntry_spec h hdir hbn h0

theorem bmap_grows {bn : Nat} (h : Sound sb img d) (hbn : bn < MAXFILE) :
    (bmap sb d img bn = .error .outOfBlocks ∧ blockAt img d bn = 0) ∨
      ∃ d' img', bmap sb d img bn = .ok (blockAt img' d' bn, d', img') ∧ blockAt img' d' bn ≠ 0 ∧ Grows sb img d img' d' := by
  rcases bmap_growsIn h hbn with ⟨hfail, hout⟩ | ⟨d', img', hok, hne, hg⟩
  · exact .inl ⟨hfail, hout.blockAt h hbn⟩
  · exact .inr ⟨d', img', hok, hne, hg.grows⟩

/-- `bmap` finds or makes the block, unless the disk is full. -/
theorem bmap_spec {bn : Nat} (h : Sound sb img d) (hbn : bn < MAXFILE) :
    (bmap sb d img bn = .error .outOfBlocks ∧ blockAt img d bn = 0) ∨
      ∃ d' img', bmap sb d img bn = .ok (blockAt img' d' bn, d', img') ∧ blockAt img' d' bn ≠ 0 ∧ Same sb img d img' d' := by
  rcases bmap_grows h hbn with hfail | ⟨d', img', hok, hne, hg⟩
  · exact .inl hfail
  · exact .inr ⟨d', img', hok, hne, .of_grows h hg⟩

/-! ### Reading -/

theorem bytesFrom_append (f : Nat → UInt8) (p m n : Nat) : bytesFrom f p m ++ bytesFrom f (p + m) n = bytesFrom f p (m + n) := by
  unfold bytesFrom
  rw [List.range_add, List.map_append, List.map_map]
  congr 1
  refine List.map_congr_left fun k _ => ?_
  show f (p + m + k) = f (p + (m + k))
  rw [Nat.add_assoc]

theorem bytesFrom_congr {f g : Nat → UInt8} {p q n : Nat} (h : ∀ k < n, f (p + k) = g (q + k)) :
    bytesFrom f p n = bytesFrom g q n :=
  List.map_congr_left fun k hk => h k (List.mem_range.1 hk)

theorem bytesFrom_getD (f : Nat → UInt8) (p : Nat) {k n : Nat} (hk : k < n) : (bytesFrom f p n).getD k 0 = f (p + k) := by
  simp [bytesFrom, hk]

theorem readLoop_spec (fuel off rest : Nat) (h : Sound sb img d) (hfuel : rest ≤ fuel) (hend : off + rest ≤ MAXFILE * BSIZE) :
    (readLoop sb fuel d img off rest = .error .outOfBlocks ∧ ∃ bn, bn * BSIZE < off + rest ∧ blockAt img d bn = 0) ∨
      ∃ d' img', readLoop sb fuel d img off rest = .ok (bytesFrom (content img d) off rest, d', img') ∧ Same sb img d img' d' := by
  induction fuel generalizing img d off rest with
  | zero =>
    obtain rfl : rest = 0 := by omega
    exact .inr ⟨d, img, rfl, .refl h⟩
  | succ fuel ih =>
    rw [readLoop]
    by_cases h0 : rest = 0
    · subst h0
      exact .inr ⟨d, img, rfl, .refl h⟩
    rw [if_neg h0]
    have hmod : off % BSIZE < BSIZE := Nat.mod_lt _ (by decide)
    have hm : 0 < min rest (BSIZE - off % BSIZE) := by omega
    have hdiv : ∀ k < min rest (BSIZE - off % BSIZE), (off + k) / BSIZE = off / BSIZE ∧ (off + k) % BSIZE = off % BSIZE + k := by
      intro k hk
      unfold BSIZE at *
      omega
    have hbn : off / BSIZE < MAXFILE := by unfold BSIZE at *; omega
    rcases bmap_spec h hbn with ⟨hfail, hhole⟩ | ⟨d₁, img₁, hok, hne, hsame⟩
    · rw [hfail]
      refine .inl ⟨rfl, off / BSIZE, ?_, hhole⟩
      unfold BSIZE at *
      omega
    · rw [hok, ok_bind]
      -- the bytes up to the end of the block are those of the content
      have hpart : bytesFrom img₁.byte (blockAt img₁ d₁ (off / BSIZE) * BSIZE + off % BSIZE) (min rest (BSIZE - off % BSIZE)) =
          bytesFrom (content img d) off (min rest (BSIZE - off % BSIZE)) := by
        refine bytesFrom_congr fun k hk => ?_
        rw [← hsame.content (off + k) (by omega), content, (hdiv k hk).1, (hdiv k hk).2, if_neg hne, Nat.add_assoc]
      have hrest : ∀ n, n ≤ rest - min rest (BSIZE - off % BSIZE) →
          bytesFrom (content img₁ d₁) (off + min rest (BSIZE - off % BSIZE)) n =
            bytesFrom (content img d) (off + min rest (BSIZE - off % BSIZE)) n := fun n hn =>
        bytesFrom_congr fun k hk => hsame.content _ (by omega)
      rcases ih (off + min rest (BSIZE - off % BSIZE)) (rest - min rest (BSIZE - off % BSIZE)) hsame.sound (by omega)
        (by omega) with ⟨hfail, bn, hlt, hhole⟩ | ⟨d₂, img₂, hok₂, hsame₂⟩
      · refine .inl ⟨?_, bn, by omega, ?_⟩
        · simp only [hfail]
          rfl
        · by_contra hne'
          exact hsame.kept bn (by unfold BSIZE at *; omega) hne' hhole
      · refine .inr ⟨d₂, img₂, ?_, hsame.trans hsame₂⟩
        simp only [hok₂, ok_bind]
        rw [hpart, hrest _ (Nat.le_refl _), bytesFrom_append, Nat.add_sub_cancel' (Nat.min_le_left _ _)]
        rfl

theorem readi_spec {off : Nat} (h : Sound sb img d) (hsize : d.size ≤ MAXFILE * BSIZE) (hoff : off + 16 ≤ d.size) :
    (readi sb d img off 16 = .error .outOfBlocks ∧ ∃ bn, bn * BSIZE < d.size ∧ blockAt img d bn = 0) ∨
      ∃ d' img', readi sb d img off 16 = .ok (some (bytesFrom (content img d) off 16), d', img') ∧ Same sb img d img' d' := by
  have hmod : (off + 16) % 2 ^ 32 = off + 16 := Nat.mod_eq_of_lt (by unfold MAXFILE NINDIRECT NDIRECT BSIZE at hsize; omega)
  unfold readi
  rw [hmod, if_neg (by omega), if_neg (by omega)]
  rcases readLoop_spec 16 off 16 h (Nat.le_refl _) (by omega) with ⟨hfail, bn, hlt, hhole⟩ | ⟨d', img', hok, hsame⟩
  · simp only [hfail]
    exact .inl ⟨rfl, bn, by omega, hhole⟩
  · simp only [hok]
    exact .inr ⟨d', img', rfl, hsame⟩

/-! ### Reading without holes -/

theorem bmap_of_ne {bn : Nat} (hbn : bn < MAXFILE) (hne : blockAt img d bn ≠ 0) : bmap sb d img bn = .ok (blockAt img d bn, d, img) := by
  unfold blockAt at hne ⊢
  unfold bmap
  by_cases hdir : bn < NDIRECT
  · rw [if_pos hdir] at hne
    rw [if_pos hdir, if_pos hdir, if_neg hne]
  · rw [if_neg hdir] at hne
    have hind : d.addrs NDIRECT ≠ 0 := fun h0 => hne (if_pos h0)
    rw [if_neg hind] at hne
    rw [if_neg hdir, if_neg hdir, if_neg hind, if_neg hind, if_pos (by unfold MAXFILE at hbn; omega), ok_bind]
    exact if_neg hne

variable (sb) in
theorem readLoop_of_ne {fuel : Nat} (off rest : Nat) (hfuel : rest ≤ fuel) (hend : off + rest ≤ MAXFILE * BSIZE)
    (hne : ∀ bn, bn * BSIZE < off + rest → blockAt img d bn ≠ 0) :
    readLoop sb fuel d img off rest = .ok (bytesFrom (content img d) off rest, d, img) := by
  induction fuel generalizing off rest with
  | zero =>
    obtain rfl := Nat.le_zero.1 hfuel
    rfl
  | succ fuel ih =>
    rw [readLoop]
    by_cases h0 : rest = 0
    · subst h0
      rfl
    rw [if_neg h0]
    have hmod : off % BSIZE < BSIZE := Nat.mod_lt _ (by decide)
    obtain ⟨m, hm⟩ : ∃ m, m = min rest (BSIZE - off % BSIZE) := ⟨_, rfl⟩
    have hbn : off / BSIZE < MAXFILE ∧ off / BSIZE * BSIZE < off + rest := by
      unfold BSIZE at *
      omega
    have hblock := hne _ hbn.2
    have hpart : bytesFrom img.byte (blockAt img d (off / BSIZE) * BSIZE + off % BSIZE) m = bytesFrom (content img d) off m := by
      refine bytesFrom_congr fun k hk => ?_
      have hdiv : (off + k) / BSIZE = off / BSIZE ∧ (off + k) % BSIZE = off % BSIZE + k := by
        unfold BSIZE at *
        omega
      rw [content, hdiv.1, hdiv.2, if_neg hblock, Nat.add_assoc]
    have hrest := ih (off + m) (rest - m) (by omega) (by omega) fun bn hbn => hne bn (by omega)
    simp only [bmap_of_ne hbn.1 hblock, ok_bind, ← hm, hrest, hpart]
    show Except.ok _ = _
    rw [bytesFrom_append, Nat.add_sub_cancel' (by omega)]

theorem readi_of_ne (hsize : d.size ≤ MAXFILE * BSIZE) (hne : ∀ bn, bn * BSIZE < d.size → blockAt img d bn ≠ 0) {off n : Nat}
    (hn : n < 2 ^ 32) : ∃ r, readi sb d img off n = .ok (r, d, img) := by
  unfold readi
  by_cases hbad : off > d.size ∨ (off + n) % 2 ^ 32 < off
  · rw [if_pos hbad]
    exact ⟨none, rfl⟩
  · rw [if_neg hbad]
    obtain ⟨m, hm⟩ : ∃ m, m = if (off + n) % 2 ^ 32 > d.size then d.size - off else n := ⟨_, rfl⟩
    have hend : off + m ≤ d.size := by
      rw [hm]
      unfold MAXFILE NINDIRECT NDIRECT BSIZE at hsize
      split <;> omega
    have hloop := readLoop_of_ne sb off m (Nat.le_refl m) (hend.trans hsize) fun bn hbn => hne bn (by omega)
    exact ⟨some (bytesFrom (content img d) off m), by simp only [← hm, hloop, ok_bind]; rfl⟩

variable (sb) in
theorem readi_all (hsize : d.size ≤ MAXFILE * BSIZE) (hne : ∀ bn, bn * BSIZE < d.size → blockAt img d bn ≠ 0) :
    readi sb d img 0 d.size = .ok (some (bytesFrom (content img d) 0 d.size), d, img) := by
  have hmod : (0 + d.size) % 2 ^ 32 = d.size := by
    unfold MAXFILE NINDIRECT NDIRECT BSIZE at hsize
    omega
  have hloop := readLoop_of_ne sb 0 d.size (Nat.le_refl d.size) (by omega) fun bn hbn => hne bn (by omega)
  unfold readi
  rw [hmod, if_neg (by omega), if_neg (by omega)]
  simp only [hloop, ok_bind]
  rfl

/-! ### Directories -/

def slotOf (img : Image) (d : DInode) (k : Nat) : Dirent := direntOf (bytesFrom (content img d) (16 * k) 16)

/-- The slots that hold an entry: all used slots below the size. -/
def seen (img : Image) (d : DInode) : List Nat := (List.range (d.size / 16)).filter fun k => (slotOf img d k).inum ≠ 0

def lookupIn (img : Image) (d : DInode) (name : List UInt8) (slots : List Nat) : Option (Nat × Nat) :=
  (slots.find? fun k => sameName name (slotOf img d k).name).map fun k => ((slotOf img d k).inum, 16 * k)

theorem Same.slotOf {k : Nat} (h : Same sb img d img' d') (hk : 16 * k + 16 ≤ MAXFILE * BSIZE) : slotOf img' d' k = slotOf img d k := by
  unfold Kernel.slotOf
  rw [bytesFrom_congr fun j hj => h.content _ (by omega)]

def seenFrom (img : Image) (d : DInode) (k : Nat) : List Nat :=
  (List.range' k (d.size / 16 - k)).filter fun k => (slotOf img d k).inum ≠ 0

theorem seenFrom_step {k : Nat} (hk : k < d.size / 16) : seenFrom img d k =
    if (slotOf img d k).inum = 0 then seenFrom img d (k + 1) else k :: seenFrom img d (k + 1) := by
  obtain ⟨n, hn⟩ : ∃ n, d.size / 16 - k = n + 1 := ⟨d.size / 16 - k - 1, by omega⟩
  rw [seenFrom, seenFrom, hn, show d.size / 16 - (k + 1) = n by omega, List.range'_succ, List.filter_cons]
  by_cases h0 : (slotOf img d k).inum = 0 <;> simp [h0]

theorem Same.seenFrom {k : Nat} (h : Same sb img d img' d') (hsize : d.size ≤ MAXFILE * BSIZE) :
    seenFrom img' d' k = seenFrom img d k := by
  unfold Kernel.seenFrom
  rw [h.size]
  refine List.filter_congr fun j hj => ?_
  obtain ⟨hge, hlt⟩ := List.mem_range'_1.1 hj
  rw [h.slotOf (by omega)]

theorem lookupIn_cons (name : List UInt8) (k : Nat) (l : List Nat) : lookupIn img d name (k :: l) =
    if sameName name (slotOf img d k).name then some ((slotOf img d k).inum, 16 * k) else lookupIn img d name l := by
  unfold lookupIn
  rw [List.find?_cons]
  cases sameName name (slotOf img d k).name <;> rfl

theorem Same.lookupIn {k : Nat} {name : List UInt8} (h : Same sb img d img' d') (hsize : d.size ≤ MAXFILE * BSIZE) :
    lookupIn img' d' name (Kernel.seenFrom img' d' k) = lookupIn img d name (Kernel.seenFrom img d k) := by
  have hslot : ∀ l : List Nat, (∀ j ∈ l, Kernel.slotOf img' d' j = Kernel.slotOf img d j) →
      Kernel.lookupIn img' d' name l = Kernel.lookupIn img d name l := by
    intro l hl
    induction l with
    | nil => rfl
    | cons j l ih => rw [lookupIn_cons, lookupIn_cons, hl j (by simp), ih fun i hi => hl i (by simp [hi])]
  rw [h.seenFrom hsize]
  refine hslot _ fun j hj => h.slotOf ?_
  obtain ⟨hge, hlt⟩ := List.mem_range'_1.1 (List.mem_filter.1 hj).1
  omega

theorem lookupFrom_spec {name : List UInt8} {fuel k : Nat} (h : Sound sb img d) (hsize : d.size ≤ MAXFILE * BSIZE)
    (hwhole : d.size % 16 = 0) (hk : k ≤ d.size / 16) (hfuel : d.size / 16 - k < fuel) :
    (lookupFrom sb name fuel (16 * k) d img = .error .outOfBlocks ∧ ∃ bn, bn * BSIZE < d.size ∧ blockAt img d bn = 0) ∨
      ∃ d' img', lookupFrom sb name fuel (16 * k) d img = .ok (lookupIn img d name (seenFrom img d k), d', img') ∧
        Same sb img d img' d' := by
  induction fuel generalizing img d k with
  | zero => omega
  | succ fuel ih =>
    rw [lookupFrom]
    by_cases hend : k = d.size / 16
    · have hnil : seenFrom img d k = [] := by rw [seenFrom, hend, Nat.sub_self]; rfl
      rw [if_neg (by omega), hnil]
      exact .inr ⟨d, img, rfl, .refl h⟩
    rw [if_pos (by omega)]
    rcases readi_spec h hsize (show 16 * k + 16 ≤ d.size by omega) with ⟨hfail, hhole⟩ | ⟨d₁, img₁, hok, hsame⟩
    · rw [hfail]
      exact .inl ⟨rfl, hhole⟩
    rw [hok, ok_bind, seenFrom_step (by omega)]
    have hlen : (bytesFrom (content img d) (16 * k) 16).length = 16 := by simp [bytesFrom]
    have hslot : direntOf (bytesFrom (content img d) (16 * k) 16) = slotOf img d k := rfl
    simp only [hlen, hslot, ne_eq, not_true_eq_false, if_false]
    -- the rest of the slots, on the disk as it is now
    have hrest : (lookupFrom sb name fuel (16 * k + 16) d₁ img₁ = .error .outOfBlocks ∧
          ∃ bn, bn * BSIZE < d.size ∧ blockAt img d bn = 0) ∨
        ∃ d' img', lookupFrom sb name fuel (16 * k + 16) d₁ img₁ = .ok (lookupIn img d name (seenFrom img d (k + 1)), d', img') ∧
          Same sb img d img' d' := by
      have hs := hsame.size
      rcases ih (k := k + 1) hsame.sound (by rw [hs]; exact hsize) (by rw [hs]; exact hwhole) (by omega) (by omega)
        with ⟨hfail, bn, hbn, hhole⟩ | ⟨d₂, img₂, hok₂, hsame₂⟩
      · refine .inl ⟨hfail, bn, by omega, by_contra fun hne => hsame.kept bn ?_ hne hhole⟩
        unfold BSIZE at *
        omega
      · exact .inr ⟨d₂, img₂, by rw [← hsame.lookupIn hsize]; exact hok₂, hsame.trans hsame₂⟩
    by_cases h0 : (slotOf img d k).inum = 0
    · rw [if_pos h0, if_pos h0]
      exact hrest
    · rw [if_neg h0, if_neg h0]
      rw [lookupIn_cons]
      by_cases hname : sameName name (slotOf img d k).name = true
      · rw [if_pos hname, if_pos hname]
        exact .inr ⟨d₁, img₁, rfl, hsame⟩
      · rw [if_neg hname, if_neg hname]
        exact hrest

/-- `dirlookup` looks for the name in the used slots below the size, and takes the first entry that has it. It does not get there
only when a block is missing that it cannot allocate. -/
theorem dirlookup_spec (h : Sound sb img d) (hdir : d.type = T_DIR) (hsize : d.size ≤ MAXFILE * BSIZE) (hwhole : d.size % 16 = 0)
    (name : List UInt8) :
    (dirlookup sb d img name = .error .outOfBlocks ∧ ∃ bn, bn * BSIZE < d.size ∧ blockAt img d bn = 0) ∨
      ∃ d' img', dirlookup sb d img name = .ok (lookupIn img d name (seen img d), d', img') ∧ Same sb img d img' d' := by
  have hall : seen img d = seenFrom img d 0 := by rw [seen, seenFrom, Nat.sub_zero, List.range_eq_range']
  rw [dirlookup, if_neg (not_not.2 hdir), hall]
  exact lookupFrom_spec h hsize hwhole (Nat.zero_le _) (by omega)

end Ostep.Fs.Kernel
