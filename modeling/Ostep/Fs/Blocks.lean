import Mathlib.Data.Finset.Card
import Ostep.Lib.Slots
import Ostep.Fs.KernelSpec

/-!
# Who owns the blocks

The pointers of all inodes in use, those in indirect blocks included, are one family of slots. `Owned` says that they are distinct and
that the free map marks their blocks, `Consistent` also that no block below the size of an inode is missing. A call of `writei` puts
free blocks into slots of its inode (`Ext`), `itrunc` clears them and frees their blocks.
-/

namespace Ostep.Fs.Kernel

variable {sb : SuperBlock} {s s' s'' : State} {img img' img'' : Image} {d d' : DInode} {b x i k : Nat}

def State.Used (s : State) (sb : SuperBlock) (i : Nat) : Prop := i < sb.ninodes ∧ (s.inode i).type ≠ 0

instance (s : State) (sb : SuperBlock) (i : Nat) : Decidable (s.Used sb i) :=
  inferInstanceAs (Decidable (i < sb.ninodes ∧ (s.inode i).type ≠ 0))

def State.ptr (s : State) (sb : SuperBlock) (x : Nat × Nat) : Nat :=
  if s.Used sb x.1 ∧ x.2 < NPTR then ptrAt s.img (s.inode x.1) x.2 else 0

structure Owned (sb : SuperBlock) (s : State) : Prop where
  size_lt : sb.size < 2 ^ 32
  inodes : ∀ i < sb.ninodes, IBLOCK i sb < sb.bmapstart
  reserved : ∀ b ≤ lastMap sb, b < sb.size → inUse sb s.img b = true
  data : ∀ x, s.ptr sb x ≠ 0 → InData sb s.img (s.ptr sb x)
  distinct : Distinct 0 (s.ptr sb)

/-- Every block below the size is there. -/
def Whole (img : Image) (d : DInode) : Prop := ∀ bn, bn * BSIZE < d.size → bn < MAXFILE ∧ blockAt img d bn ≠ 0

structure Consistent (sb : SuperBlock) (s : State) : Prop where
  owned : Owned sb s
  whole : ∀ i, s.Used sb i → Whole s.img (s.inode i)

def State.set (s : State) (i : Nat) (d : DInode) (img : Image) : State := ⟨Function.update s.inode i d, img⟩

@[simp] theorem set_img (s : State) (i : Nat) (d : DInode) (img : Image) : (s.set i d img).img = img := rfl

@[simp] theorem set_self (s : State) (i : Nat) (d : DInode) (img : Image) : (s.set i d img).inode i = d := Function.update_self ..

theorem set_of_ne {j : Nat} (h : j ≠ i) (s : State) (d : DInode) (img : Image) : (s.set i d img).inode j = s.inode j :=
  Function.update_of_ne h ..

theorem set_set (s : State) (i : Nat) (d d' : DInode) (img img' : Image) : (s.set i d img).set i d' img' = s.set i d' img' := by
  unfold State.set
  rw [Function.update_idem]

theorem set_inode (s : State) (i : Nat) (img : Image) : s.set i (s.inode i) img = ⟨s.inode, img⟩ := by
  unfold State.set
  rw [Function.update_eq_self]

theorem State.Used.set (hu : s.Used sb i) (ht : d.type = (s.inode i).type) (img : Image) : (s.set i d img).Used sb i :=
  ⟨hu.1, by rw [set_self, ht]; exact hu.2⟩

/-! ### Slots -/

theorem ptr_of_used (hu : s.Used sb i) (hk : k < NPTR) : s.ptr sb (i, k) = ptrAt s.img (s.inode i) k := if_pos ⟨hu, hk⟩

theorem ptr_slotFor (hu : s.Used sb i) {bn : Nat} (hbn : bn < MAXFILE) : s.ptr sb (i, slotFor bn) = blockAt s.img (s.inode i) bn := by
  rw [ptr_of_used hu (slotFor_lt hbn), ptrAt_slotFor]

theorem ptr_ind (hu : s.Used sb i) : s.ptr sb (i, NDIRECT) = (s.inode i).addrs NDIRECT := by
  rw [ptr_of_used hu (by unfold NPTR; omega), ptrAt_ind]

theorem Owned.sound (h : Owned sb s) (hu : s.Used sb i) : Sound sb s.img (s.inode i) where
  size_lt := h.size_lt
  reserved := h.reserved
  block := fun bn hbn hne => by
    rw [← ptr_slotFor hu hbn] at hne ⊢
    exact h.data _ hne
  ind := fun hne => by
    rw [← ptr_ind hu] at hne ⊢
    exact h.data _ hne
  sep := fun bn hbn hne heq => by
    rw [← ptr_slotFor hu hbn] at hne heq
    rw [← ptr_ind hu] at heq
    exact slotFor_ne bn (Prod.mk.inj (h.distinct _ _ heq hne)).2

theorem ptrAt_congr (haddrs : d'.addrs = d.addrs)
    (h : d.addrs NDIRECT ≠ 0 → ∀ p, p / BSIZE = d.addrs NDIRECT → img'.byte p = img.byte p) (hk : k < NPTR) :
    ptrAt img' d' k = ptrAt img d k := by
  unfold ptrAt
  rw [haddrs]
  by_cases hdir : k ≤ NDIRECT
  · rw [if_pos hdir, if_pos hdir]
  · rw [if_neg hdir, if_neg hdir]
    by_cases h0 : d.addrs NDIRECT = 0
    · rw [if_pos h0, if_pos h0]
    · rw [if_neg h0, if_neg h0]
      exact uintAt_congr fun q hq hq' => h h0 q (slot_div hk hq hq')

theorem Owned.ne_of_free (h : Owned sb s) (hb : inUse sb s.img b = false) (hlt : b < sb.size) (y : Nat × Nat) : s.ptr sb y ≠ b := by
  intro heq
  have hfresh : lastMap sb < b := by
    by_contra hle
    rw [h.reserved b (by omega) hlt] at hb
    cases hb
  have hne : s.ptr sb y ≠ 0 := by omega
  exact (h.data y hne).ne_of_free hb heq

theorem Owned.ptr_put (h : Owned sb s) (hu : s.Used sb i) (hp : Put sb s.img (s.inode i) img' d' k b) :
    (s.set i d' img').ptr sb = Function.update (s.ptr sb) (i, k) b := by
  funext ⟨j, l⟩
  rcases eq_or_ne j i with rfl | hj
  · by_cases hl : l < NPTR
    · rw [ptr_of_used (hu.set hp.type img') hl, set_self, set_img, hp.ptr l hl]
      rcases eq_or_ne l k with rfl | hlk
      · rw [if_pos rfl, Function.update_self]
      · rw [if_neg hlk, Function.update_of_ne fun heq => hlk (Prod.mk.inj heq).2, ptr_of_used hu hl]
    · have hlk : l ≠ k := fun heq => hl (heq ▸ hp.slot)
      rw [Function.update_of_ne fun heq => hlk (Prod.mk.inj heq).2, State.ptr, State.ptr, if_neg (fun h => hl h.2), if_neg (fun h => hl h.2)]
  · rw [Function.update_of_ne fun heq => hj (Prod.mk.inj heq).1]
    unfold State.ptr State.Used
    simp only [set_of_ne hj, set_img]
    split
    · next hul =>
      refine ptrAt_congr rfl (fun h0 p hp' => ?_) hul.2
      have huj : s.Used sb j := hul.1
      rw [← ptr_ind huj] at h0 hp'
      have hdata := h.data _ h0
      have hown : p / BSIZE ≠ (s.inode i).addrs NDIRECT := by
        rw [hp', ← ptr_ind hu]
        intro heq
        exact hj (Prod.mk.inj (h.distinct _ _ heq h0)).1
      rw [hp.byte p (by rw [hp']; exact hdata.behind) hown, if_neg (by rw [hp']; exact hdata.ne_of_free hp.free)]
    · rfl

/-! ### Growing -/

/-- What a call on inode `i` that frees nothing does to the blocks. -/
structure Ext (sb : SuperBlock) (s s' : State) (i : Nat) : Prop where
  owned : Owned sb s'
  others : ∀ j, j ≠ i → s'.inode j = s.inode j
  type : (s'.inode i).type = (s.inode i).type
  other : ∀ j k, j ≠ i → s'.ptr sb (j, k) = s.ptr sb (j, k)
  kept : ∀ y, s.ptr sb y ≠ 0 → s'.ptr sb y = s.ptr sb y
  used : ∀ x < sb.size, inUse sb s.img x = true → inUse sb s'.img x = true
  taken : ∀ x < sb.size, inUse sb s'.img x = true → inUse sb s.img x = true ∨ x ≠ 0 ∧ ∃ k, s'.ptr sb (i, k) = x

theorem Ext.refl (h : Owned sb s) (i : Nat) : Ext sb s s i :=
  ⟨h, fun _ _ => rfl, rfl, fun _ _ _ => rfl, fun _ _ => rfl, fun _ _ => id, fun _ _ => .inl⟩

theorem Ext.trans (h : Ext sb s s' i) (h' : Ext sb s' s'' i) : Ext sb s s'' i where
  owned := h'.owned
  others := fun j hj => (h'.others j hj).trans (h.others j hj)
  type := h'.type.trans h.type
  other := fun j k hj => (h'.other j k hj).trans (h.other j k hj)
  kept := fun y hy => by
    have hy' := h.kept y hy
    exact (h'.kept y (hy' ▸ hy)).trans hy'
  used := fun x hx hu => h'.used x hx (h.used x hx hu)
  taken := fun x hx hu => by
    rcases h'.taken x hx hu with hu | hk
    · rcases h.taken x hx hu with hu | ⟨h0, k, hk⟩
      · exact .inl hu
      · exact .inr ⟨h0, k, (h'.kept _ (hk ▸ h0)).trans hk⟩
    · exact .inr hk

theorem Ext.of_put (h : Owned sb s) (hu : s.Used sb i) (hp : Put sb s.img (s.inode i) img' d' k b) : Ext sb s (s.set i d' img') i := by
  have hptr := h.ptr_put hu hp
  have hne := h.ne_of_free hp.free hp.lt
  have hfresh := (h.sound hu).fresh hp.lt hp.free
  have hnull : s.ptr sb (i, k) = 0 := (ptr_of_used hu hp.slot).trans hp.null
  refine ⟨⟨h.size_lt, h.inodes, fun x hx hlt => ?_, fun y hy => ?_, ?_⟩, fun j hj => set_of_ne hj s d' img', ?_, fun j l hj => ?_, fun y hy => ?_,
    fun x hx hux => ?_, fun x hx hux => ?_⟩
  · rw [set_img, hp.used x hlt, h.reserved x hx hlt, Bool.or_true]
  · rw [hptr] at hy ⊢
    rcases eq_or_ne y (i, k) with rfl | hyk
    · rw [Function.update_self]
      exact ⟨hp.lt, hfresh, by rw [set_img, hp.used b hp.lt]; simp⟩
    · rw [Function.update_of_ne hyk] at hy ⊢
      exact hp.inData (h.data y hy)
  · rw [hptr]
    exact h.distinct.put hne (i, k)
  · rw [set_self, hp.type]
  · rw [hptr, Function.update_of_ne fun heq => hj (Prod.mk.inj heq).1]
  · rw [hptr, Function.update_of_ne]
    rintro rfl
    exact hy hnull
  · rw [set_img, hp.used x hx, hux, Bool.or_true]
  · rw [set_img, hp.used x hx, Bool.or_eq_true, decide_eq_true_eq] at hux
    rcases hux with rfl | hux
    · exact .inr ⟨by omega, k, by rw [hptr, Function.update_self]⟩
    · exact .inl hux

theorem Ext.of_grows (h : Owned sb s) (hu : s.Used sb i) (hg : Grows sb s.img (s.inode i) img' d') : Ext sb s (s.set i d' img') i := by
  induction hg with
  | refl =>
    rw [set_inode]
    exact .refl h i
  | @put img₁ d₁ img' d' k b _ hp ih =>
    have ht : d₁.type = (s.inode i).type := by
      have := ih.type
      rwa [set_self] at this
    have hp' : Put sb (s.set i d₁ img₁).img ((s.set i d₁ img₁).inode i) img' d' k b := by
      rw [set_self]
      exact hp
    have := ih.trans (Ext.of_put ih.owned (hu.set ht img₁) hp')
    rwa [set_set] at this

/-! ### Writing bytes -/

theorem inUse_congr (hx : x < sb.size) (h : ∀ p, sb.bmapstart ≤ p / BSIZE → p / BSIZE ≤ lastMap sb → img'.byte p = img.byte p) :
    inUse sb img' x = inUse sb img x := by
  have hle := mapByte_le hx
  have hge : sb.bmapstart ≤ mapByte sb x / BSIZE := by
    rw [mapByte_block]
    exact Nat.le_add_left _ _
  unfold inUse
  rw [h _ hge hle]

theorem Ext.of_bytes (h : Owned sb s) (hu : s.Used sb i) (haddrs : d'.addrs = (s.inode i).addrs) (ht : d'.type = (s.inode i).type)
    (hmap : ∀ p, sb.bmapstart ≤ p / BSIZE → p / BSIZE ≤ lastMap sb → img'.byte p = s.img.byte p)
    (hind : ∀ j p, s.ptr sb (j, NDIRECT) ≠ 0 → p / BSIZE = s.ptr sb (j, NDIRECT) → img'.byte p = s.img.byte p) :
    Ext sb s (s.set i d' img') i ∧ (s.set i d' img').ptr sb = s.ptr sb := by
  have hsame : ∀ x < sb.size, inUse sb img' x = inUse sb s.img x := fun x hx => inUse_congr hx hmap
  have hptr : (s.set i d' img').ptr sb = s.ptr sb := by
    funext ⟨j, l⟩
    have hused : (s.set i d' img').Used sb j ↔ s.Used sb j := by
      unfold State.Used
      rcases eq_or_ne j i with rfl | hj
      · rw [set_self, ht]
      · rw [set_of_ne hj]
    unfold State.ptr
    simp only [hused]
    split
    · next hul =>
      have hda : ((s.set i d' img').inode j).addrs = (s.inode j).addrs := by
        rcases eq_or_ne j i with rfl | hj
        · rw [set_self, haddrs]
        · rw [set_of_ne hj]
      refine ptrAt_congr hda (fun h0 p hp => ?_) hul.2
      rw [← ptr_ind hul.1] at h0 hp
      exact hind j p h0 hp
    · rfl
  refine ⟨⟨⟨h.size_lt, h.inodes, fun x hx hlt => ?_, fun y hy => ?_, ?_⟩, fun j hj => set_of_ne hj s d' img', ?_, fun j l _ => by rw [hptr],
    fun y _ => by rw [hptr], fun x hx hux => ?_, fun x hx hux => ?_⟩, hptr⟩
  · rw [set_img, hsame x hlt]
    exact h.reserved x hx hlt
  · rw [hptr] at hy ⊢
    have hdata := h.data y hy
    exact ⟨hdata.lt, hdata.behind, (hsame _ hdata.lt).trans hdata.used⟩
  · rw [hptr]
    exact h.distinct
  · rw [set_self, ht]
  · rw [set_img, hsame x hx]
    exact hux
  · rw [set_img, hsame x hx] at hux
    exact .inl hux

theorem store_of_ne {off p : Nat} {src : List UInt8} (hsrc : off + src.length ≤ BSIZE) (hp : p / BSIZE ≠ x) :
    (store (x * BSIZE + off) src img).byte p = img.byte p := by
  refine if_neg fun hin => hp ?_
  unfold BSIZE at *
  omega

theorem iupdate_of_ne {p : Nat} (hp : p / BSIZE ≠ IBLOCK i sb) : (iupdate sb i d img).byte p = img.byte p := by
  refine store_of_ne ?_ hp
  rw [List.length_map, List.length_range]
  unfold IPB BSIZE
  omega

theorem Ext.of_store (h : Owned sb s) (hu : s.Used sb i) {bn : Nat} (off : Nat) (src : List UInt8) (hbn : bn < MAXFILE)
    (hne : blockAt s.img (s.inode i) bn ≠ 0) (hsrc : off + src.length ≤ BSIZE) :
    Ext sb s (s.set i (s.inode i) (store (blockAt s.img (s.inode i) bn * BSIZE + off) src s.img)) i ∧
      (s.set i (s.inode i) (store (blockAt s.img (s.inode i) bn * BSIZE + off) src s.img)).ptr sb = s.ptr sb := by
  have hblock := (h.sound hu).block bn hbn hne
  refine Ext.of_bytes h hu rfl rfl (fun p _ hle => store_of_ne hsrc ?_) fun j p h0 hp => store_of_ne hsrc ?_
  · have := hblock.behind
    omega
  · -- an indirect block is not a block of a file
    rw [hp, ← ptr_slotFor hu hbn]
    intro heq
    exact slotFor_ne bn (Prod.mk.inj (h.distinct _ _ heq h0)).2.symm

theorem Ext.of_iupdate (h : Owned sb s) (hu : s.Used sb i) (haddrs : d'.addrs = (s.inode i).addrs) (ht : d'.type = (s.inode i).type) (d : DInode) :
    Ext sb s (s.set i d' (iupdate sb i d s.img)) i ∧ (s.set i d' (iupdate sb i d s.img)).ptr sb = s.ptr sb := by
  have hlt := h.inodes i hu.1
  have hlast : sb.bmapstart ≤ lastMap sb := Nat.le_add_left _ _
  refine Ext.of_bytes h hu haddrs ht (fun p hle _ => iupdate_of_ne (by omega)) fun j p h0 hp => iupdate_of_ne ?_
  have := (h.data _ h0).behind
  omega

/-! ### Space -/

/-- Pointer `k` is on the way to a byte below `e`. -/
def Below (e k : Nat) : Prop := (if k ≤ NDIRECT then k else k - 1) * BSIZE < e

instance (e : Nat) : DecidablePred (Below e) := fun _ => inferInstanceAs (Decidable (_ < _))

/-- The pointers for the bytes below `e` that are missing. -/
def missing (img : Image) (d : DInode) (e : Nat) : Finset Nat := (Finset.range NPTR).filter fun k => Below e k ∧ ptrAt img d k = 0

def freeBlocks (sb : SuperBlock) (img : Image) : Finset Nat := (Finset.range sb.size).filter fun b => inUse sb img b = false

def Room (sb : SuperBlock) (img : Image) (d : DInode) (e : Nat) : Prop := (missing img d e).card ≤ (freeBlocks sb img).card

theorem Needs.below {bn e : Nat} (h : Needs bn k) (hbn : bn * BSIZE < e) : Below e k := by
  unfold Below
  rcases h with rfl | ⟨rfl, hdir⟩
  · unfold slotFor
    by_cases hdir : bn < NDIRECT
    · rwa [if_pos hdir, if_pos hdir.le]
    · rwa [if_neg hdir, if_neg (by omega), Nat.add_sub_cancel]
  · rw [if_pos (Nat.le_refl _)]
    exact Nat.lt_of_le_of_lt (Nat.mul_le_mul_right _ (Nat.not_lt.1 hdir)) hbn

theorem Needs.lt {bn : Nat} (h : Needs bn k) (hbn : bn < MAXFILE) : k < NPTR := by
  rcases h with rfl | ⟨rfl, -⟩
  · exact slotFor_lt hbn
  · unfold NPTR
    omega

theorem room_put {e : Nat} (h : Sound sb img d) (hk : Below e k) (hp : Put sb img d img' d' k b) : Room sb img' d' e ↔ Room sb img d e := by
  have hfresh := h.fresh hp.lt hp.free
  have hfree : b ∈ freeBlocks sb img := Finset.mem_filter.2 ⟨Finset.mem_range.2 hp.lt, hp.free⟩
  have hnull : k ∈ missing img d e := Finset.mem_filter.2 ⟨Finset.mem_range.2 hp.slot, hk, hp.null⟩
  have hfree' : freeBlocks sb img' = (freeBlocks sb img).erase b := by
    ext x
    simp only [freeBlocks, Finset.mem_filter, Finset.mem_erase, Finset.mem_range]
    by_cases hx : x < sb.size
    · rw [hp.used x hx]
      simp [hx]
    · simp [hx]
  have hnull' : missing img' d' e = (missing img d e).erase k := by
    ext j
    simp only [missing, Finset.mem_filter, Finset.mem_erase, Finset.mem_range]
    by_cases hj : j < NPTR
    · rw [hp.ptr j hj]
      by_cases hjk : j = k
      · simp only [hjk, if_true, ne_eq, not_true_eq_false, false_and, iff_false]
        omega
      · simp [hjk]
    · simp [hj]
  have := Finset.card_pos.2 ⟨b, hfree⟩
  have := Finset.card_pos.2 ⟨k, hnull⟩
  rw [Room, Room, hfree', hnull', Finset.card_erase_of_mem hfree, Finset.card_erase_of_mem hnull]
  omega

theorem room_grows {e : Nat} {P : Nat → Prop} (h : Sound sb img d) (hP : ∀ k, P k → Below e k) (hg : GrowsIn sb P img d img' d') :
    Room sb img' d' e ↔ Room sb img d e := by
  induction hg with
  | refl => exact Iff.rfl
  | put hg hk hp _ ih => exact (room_put (Same.of_grows h hg.grows).sound (hP _ hk) hp).trans ih

theorem RunsOut.not_room {bn e : Nat} (h : RunsOut sb img d bn) (hs : Sound sb img d) (hbn : bn < MAXFILE) (he : bn * BSIZE < e) : ¬ Room sb img d e := by
  obtain ⟨img₁, d₁, k, hg, hk, hnull, hfull⟩ := h
  rw [← room_grows hs (fun k hk => hk.below he) hg, Room, Nat.not_le]
  have hnone : freeBlocks sb img₁ = ∅ := by
    refine Finset.filter_eq_empty_iff.2 fun x hx => ?_
    rw [hfull x (Finset.mem_range.1 hx)]
    exact Bool.noConfusion
  rw [hnone, Finset.card_empty]
  exact Finset.card_pos.2 ⟨k, Finset.mem_filter.2 ⟨Finset.mem_range.2 (hk.lt hbn), hk.below he, hnull⟩⟩

/-! ### What a call on one inode leaves alone -/

/-- The bytes in front of the free map and in the blocks of the other inodes are the same. -/
structure Frame (sb : SuperBlock) (s s' : State) (i : Nat) : Prop where
  low : ∀ p, p / BSIZE < sb.bmapstart → s'.img.byte p = s.img.byte p
  block : ∀ y, y.1 ≠ i → s.ptr sb y ≠ 0 → ∀ p, p / BSIZE = s.ptr sb y → s'.img.byte p = s.img.byte p

theorem Frame.refl (sb : SuperBlock) (s : State) (i : Nat) : Frame sb s s i := ⟨fun _ _ => rfl, fun _ _ _ _ _ => rfl⟩

theorem Frame.trans (h : Frame sb s s' i) (h' : Frame sb s' s'' i) (he : Ext sb s s' i) : Frame sb s s'' i where
  low := fun p hp => (h'.low p hp).trans (h.low p hp)
  block := fun y hy hne p hp => by
    have hptr := he.other y.1 y.2 hy
    exact (h'.block y hy (by rwa [hptr]) p (by rwa [hptr])).trans (h.block y hy hne p hp)

theorem Frame.of_grows {P : Nat → Prop} (h : Owned sb s) (hu : s.Used sb i) (hg : GrowsIn sb P s.img (s.inode i) img' d') :
    Frame sb s (s.set i d' img') i := by
  refine ⟨fun p hp => hg.low hp, fun y hy hne p hp => ?_⟩
  induction hg with
  | refl => rfl
  | @put img₁ d₁ img' d' k b hg _ hput _ ih =>
    have he := Ext.of_grows h hu hg.grows
    have hptr := he.other y.1 y.2 hy
    have hdata := he.owned.data y (by rwa [hptr])
    have ht : d₁.type = (s.inode i).type := (Same.of_grows (h.sound hu) hg.grows).type
    have hind : p / BSIZE ≠ d₁.addrs NDIRECT := by
      have hself := ptr_ind (hu.set ht img₁)
      rw [set_self] at hself
      rw [hp, ← hself]
      intro heq
      exact hy (Prod.mk.inj (he.owned.distinct y (i, NDIRECT) (hptr.trans heq) (by rwa [hptr]))).1
    rw [hptr] at hdata
    show img'.byte p = _
    rw [hput.byte p (by rw [hp]; exact hdata.behind) hind, if_neg (by rw [hp]; exact hdata.ne_of_free hput.free)]
    exact ih

theorem Frame.content (h : Frame sb s s' i) (he : Ext sb s s' i) {j p : Nat} (hj : j ≠ i) (hu : s.Used sb j) (hp : p < MAXFILE * BSIZE) :
    content s'.img (s'.inode j) p = content s.img (s.inode j) p := by
  have hbn : p / BSIZE < MAXFILE := by
    unfold BSIZE at *
    omega
  have hu' : s'.Used sb j := by
    unfold State.Used at *
    rwa [he.others j hj]
  have hblock : blockAt s'.img (s'.inode j) (p / BSIZE) = blockAt s.img (s.inode j) (p / BSIZE) := by
    rw [← ptr_slotFor hu' hbn, he.other j _ hj, ptr_slotFor hu hbn]
  unfold Kernel.content
  rw [hblock]
  by_cases h0 : blockAt s.img (s.inode j) (p / BSIZE) = 0
  · rw [if_pos h0, if_pos h0]
  · rw [if_neg h0, if_neg h0]
    refine h.block (j, slotFor (p / BSIZE)) hj (by rwa [ptr_slotFor hu hbn]) _ ?_
    rw [ptr_slotFor hu hbn]
    unfold BSIZE
    omega

theorem Frame.of_store (h : Owned sb s) (hu : s.Used sb i) {bn : Nat} (off : Nat) (src : List UInt8) (hbn : bn < MAXFILE)
    (hne : blockAt s.img (s.inode i) bn ≠ 0) (hsrc : off + src.length ≤ BSIZE) :
    Frame sb s (s.set i (s.inode i) (store (blockAt s.img (s.inode i) bn * BSIZE + off) src s.img)) i := by
  have hblock := (h.sound hu).block bn hbn hne
  have hge : sb.bmapstart ≤ lastMap sb := Nat.le_add_left _ _
  refine ⟨fun p hp => store_of_ne hsrc ?_, fun y hy h0 p hp => store_of_ne hsrc ?_⟩
  · have := hblock.behind
    omega
  · rw [hp, ← ptr_slotFor hu hbn]
    intro heq
    exact hy (Prod.mk.inj (h.distinct _ _ heq h0)).1

theorem content_store (h : Owned sb s) (hu : s.Used sb i) {bn : Nat} (off : Nat) (src : List UInt8) (hbn : bn < MAXFILE)
    (hne : blockAt s.img (s.inode i) bn ≠ 0) (hsrc : off + src.length ≤ BSIZE) {p : Nat} (hp : p < MAXFILE * BSIZE) :
    content (store (blockAt s.img (s.inode i) bn * BSIZE + off) src s.img) (s.inode i) p =
      if bn * BSIZE + off ≤ p ∧ p < bn * BSIZE + off + src.length then src.getD (p - (bn * BSIZE + off)) 0
      else content s.img (s.inode i) p := by
  have hpn : p / BSIZE < MAXFILE := by
    unfold BSIZE at *
    omega
  obtain ⟨-, hptr⟩ := Ext.of_store h hu off src hbn hne hsrc
  have hblock : blockAt (store (blockAt s.img (s.inode i) bn * BSIZE + off) src s.img) (s.inode i) (p / BSIZE) =
      blockAt s.img (s.inode i) (p / BSIZE) := by
    have hnew := ptr_slotFor (hu.set rfl (store (blockAt s.img (s.inode i) bn * BSIZE + off) src s.img)) hpn
    rw [set_self, set_img] at hnew
    rw [← hnew, hptr, ptr_slotFor hu hpn]
  unfold content
  rw [hblock]
  by_cases hsame : p / BSIZE = bn
  · rw [hsame, if_neg hne, if_neg hne]
    show (if _ then _ else _) = _
    have hin : blockAt s.img (s.inode i) bn * BSIZE + off ≤ blockAt s.img (s.inode i) bn * BSIZE + p % BSIZE ∧
        blockAt s.img (s.inode i) bn * BSIZE + p % BSIZE < blockAt s.img (s.inode i) bn * BSIZE + off + src.length ↔
        bn * BSIZE + off ≤ p ∧ p < bn * BSIZE + off + src.length := by
      unfold BSIZE at *
      omega
    have hidx : blockAt s.img (s.inode i) bn * BSIZE + p % BSIZE - (blockAt s.img (s.inode i) bn * BSIZE + off) = p - (bn * BSIZE + off) := by
      unfold BSIZE at *
      omega
    rw [hidx]
    exact if_congr hin rfl rfl
  · have hout : ¬ (bn * BSIZE + off ≤ p ∧ p < bn * BSIZE + off + src.length) := by
      unfold BSIZE at *
      omega
    rw [if_neg hout]
    by_cases h0 : blockAt s.img (s.inode i) (p / BSIZE) = 0
    · rw [if_pos h0, if_pos h0]
    · rw [if_neg h0, if_neg h0]
      refine store_of_ne hsrc ?_
      have hdiv : (blockAt s.img (s.inode i) (p / BSIZE) * BSIZE + p % BSIZE) / BSIZE = blockAt s.img (s.inode i) (p / BSIZE) := by
        unfold BSIZE
        omega
      rw [hdiv, ← ptr_slotFor hu hpn, ← ptr_slotFor hu hbn]
      intro heq
      rw [← ptr_slotFor hu hpn] at h0
      have := (Prod.mk.inj (h.distinct _ _ heq h0)).2
      unfold slotFor at this
      split at this <;> split at this <;> omega

/-! ### The loop of `writei` -/

/-- What the loop has done when it has written `src` at `off`. -/
structure Wrote (sb : SuperBlock) (s s' : State) (i off : Nat) (src : List UInt8) : Prop where
  ext : Ext sb s s' i
  frame : Frame sb s s' i
  size : (s'.inode i).size = (s.inode i).size
  blocks : ∀ bn, bn * BSIZE < off + src.length → blockAt s'.img (s'.inode i) bn ≠ 0
  content : ∀ p < MAXFILE * BSIZE, content s'.img (s'.inode i) p =
    if off ≤ p ∧ p < off + src.length then src.getD (p - off) 0 else content s.img (s.inode i) p
  /-- Nothing is allocated where no block is missing. -/
  inside : (∀ bn, bn * BSIZE < off + src.length → blockAt s.img (s.inode i) bn ≠ 0) → s'.inode i = s.inode i

theorem Wrote.nil {off : Nat} (h : Owned sb s) (hoff : ∀ bn, bn * BSIZE < off → blockAt s.img (s.inode i) bn ≠ 0) :
    Wrote sb s s i off [] :=
  ⟨.refl h i, .refl sb s i, rfl, hoff, fun p _ => (if_neg (by simp)).symm, fun _ => rfl⟩

theorem Wrote.trans {off : Nat} {src src' : List UInt8} (h : Wrote sb s s' i off src) (h' : Wrote sb s' s'' i (off + src.length) src')
    (hu : s.Used sb i) (hend : off + (src ++ src').length ≤ MAXFILE * BSIZE) : Wrote sb s s'' i off (src ++ src') where
  ext := h.ext.trans h'.ext
  frame := h.frame.trans h'.frame h.ext
  size := h'.size.trans h.size
  blocks := fun bn hbn => h'.blocks bn (by rw [List.length_append] at hbn; omega)
  content := fun p hp => by
    rw [h'.content p hp, h.content p hp, List.length_append]
    by_cases hlate : off + src.length ≤ p ∧ p < off + src.length + src'.length
    · rw [if_pos hlate, if_pos (by omega), List.getD_append_right _ _ _ _ (by omega)]
      congr 1
      omega
    · rw [if_neg hlate]
      by_cases hearly : off ≤ p ∧ p < off + src.length
      · rw [if_pos hearly, if_pos (by omega), List.getD_append _ _ _ _ (by omega)]
      · rw [if_neg hearly, if_neg (by omega)]
  inside := fun hall => by
    have hsame := h.inside fun bn hbn => hall bn (by rw [List.length_append]; omega)
    have hu' : s'.Used sb i := ⟨hu.1, by rw [hsame]; exact hu.2⟩
    refine (h'.inside fun bn hbn => ?_).trans hsame
    have hne := hall bn (by rw [List.length_append]; omega)
    have hmax : bn < MAXFILE := by
      rw [List.length_append] at hend
      unfold BSIZE at *
      omega
    rw [← ptr_slotFor hu hmax] at hne
    rwa [← ptr_slotFor hu' hmax, h.ext.kept _ hne]

/-- One pass of the loop, which fills up the block of `off`. -/
theorem Owned.writeBlock {off e : Nat} {src : List UInt8} (h : Owned sb s) (hu : s.Used sb i) (hbn : off / BSIZE < MAXFILE)
    (hpos : 0 < src.length) (hsrc : off % BSIZE + src.length ≤ BSIZE) (he : off / BSIZE * BSIZE < e)
    (hoff : ∀ bn, bn * BSIZE < off → blockAt s.img (s.inode i) bn ≠ 0) :
    (bmap sb (s.inode i) s.img (off / BSIZE) = .error .outOfBlocks ∧ ¬ Room sb s.img (s.inode i) e) ∨
      ∃ d' img', bmap sb (s.inode i) s.img (off / BSIZE) = .ok (blockAt img' d' (off / BSIZE), d', img') ∧
        d'.type = (s.inode i).type ∧
        Wrote sb s (s.set i d' (store (blockAt img' d' (off / BSIZE) * BSIZE + off % BSIZE) src img')) i off src ∧
        (Room sb (store (blockAt img' d' (off / BSIZE) * BSIZE + off % BSIZE) src img') d' e ↔ Room sb s.img (s.inode i) e) := by
  have hs := h.sound hu
  rcases bmap_growsIn hs hbn with ⟨hfail, hout⟩ | ⟨d₁, img₁, hok, hne, hg⟩
  · exact .inl ⟨hfail, hout.not_room hs hbn he⟩
  refine .inr ⟨d₁, img₁, hok, ?_⟩
  have hsame := Same.of_grows hs hg.grows
  have he₁ := Ext.of_grows h hu hg.grows
  have hu₁ := hu.set hsame.type img₁
  have hf₁ := Frame.of_grows h hu hg
  obtain ⟨he₂, hptr₂⟩ := Ext.of_store he₁.owned hu₁ (off % BSIZE) src hbn (by rw [set_self]; exact hne) hsrc
  have hf₂ := Frame.of_store he₁.owned hu₁ (off % BSIZE) src hbn (by rw [set_self]; exact hne) hsrc
  have hc₂ := fun p => content_store (p := p) he₁.owned hu₁ (off % BSIZE) src hbn (by rw [set_self]; exact hne) hsrc
  rw [set_self, set_img, set_set] at he₂ hptr₂ hf₂
  simp only [set_self, set_img] at hc₂
  have hu₂ := hu.set hsame.type (store (blockAt img₁ d₁ (off / BSIZE) * BSIZE + off % BSIZE) src img₁)
  have hblock₂ : ∀ bn < MAXFILE,
      blockAt (store (blockAt img₁ d₁ (off / BSIZE) * BSIZE + off % BSIZE) src img₁) d₁ bn = blockAt img₁ d₁ bn := by
    intro bn hbn
    have hold := ptr_slotFor hu₁ hbn
    have hnew := ptr_slotFor hu₂ hbn
    rw [set_self, set_img] at hold hnew
    rw [← hnew, hptr₂, hold]
  refine ⟨hsame.type, ⟨he₁.trans he₂, hf₁.trans hf₂ he₁, ?_, ?_, ?_, ?_⟩, ?_⟩
  · rw [set_self]
    exact hsame.size
  · intro bn hlt
    have hmax : bn < MAXFILE := by
      unfold BSIZE at *
      omega
    rw [set_self, set_img, hblock₂ bn hmax]
    rcases Nat.lt_or_ge (bn * BSIZE) off with hlow | hhigh
    · exact hsame.kept bn hmax (hoff bn hlow)
    · obtain rfl : bn = off / BSIZE := by
        unfold BSIZE at *
        omega
      exact hne
  · intro p hp
    have hdiv : off / BSIZE * BSIZE + off % BSIZE = off := by
      unfold BSIZE
      omega
    rw [set_self, set_img, hc₂ p hp, hdiv, hsame.content p hp]
  · intro hall
    have hhave := hall (off / BSIZE) (by unfold BSIZE at *; omega)
    rw [bmap_of_ne hbn hhave] at hok
    rw [set_self]
    exact (Prod.mk.inj (Prod.mk.inj (Except.ok.inj hok)).2).1.symm
  · rw [← room_grows hs (fun k hk => hk.below he) hg]
    -- neither the pointers nor the free map are written to
    have hnull : missing (store (blockAt img₁ d₁ (off / BSIZE) * BSIZE + off % BSIZE) src img₁) d₁ e = missing img₁ d₁ e := by
      refine Finset.filter_congr fun k hk => ?_
      have hk := Finset.mem_range.1 hk
      have hold := ptr_of_used hu₁ hk
      have hnew := ptr_of_used hu₂ hk
      rw [set_self, set_img] at hold hnew
      rw [← hold, ← hnew, hptr₂]
    have hfree : freeBlocks sb (store (blockAt img₁ d₁ (off / BSIZE) * BSIZE + off % BSIZE) src img₁) = freeBlocks sb img₁ := by
      refine Finset.filter_congr fun x hx => ?_
      have hbehind := (hsame.sound.block _ hbn hne).behind
      rw [inUse_congr (Finset.mem_range.1 hx) fun p _ hle => store_of_ne hsrc (by omega)]
    rw [Room, Room, hnull, hfree]

theorem Owned.writeLoop {fuel off : Nat} {src : List UInt8} (h : Owned sb s) (hu : s.Used sb i) (hfuel : src.length ≤ fuel)
    (hend : off + src.length ≤ MAXFILE * BSIZE) (hoff : ∀ bn, bn * BSIZE < off → blockAt s.img (s.inode i) bn ≠ 0) :
    (writeLoop sb fuel (s.inode i) s.img off src = .error .outOfBlocks ∧ ¬ Room sb s.img (s.inode i) (off + src.length)) ∨
      ∃ d' img', writeLoop sb fuel (s.inode i) s.img off src = .ok (d', img', off + src.length) ∧
        Wrote sb s (s.set i d' img') i off src := by
  induction fuel generalizing s off src with
  | zero =>
    obtain rfl := List.length_eq_zero_iff.1 (Nat.le_zero.1 hfuel)
    exact .inr ⟨s.inode i, s.img, rfl, by rw [set_inode]; exact .nil h hoff⟩
  | succ fuel ih =>
    rw [Kernel.writeLoop]
    by_cases hsrc : src = []
    · subst hsrc
      exact .inr ⟨s.inode i, s.img, rfl, by rw [set_inode]; exact .nil h hoff⟩
    rw [if_neg hsrc]
    have hpos := List.length_pos_iff.2 hsrc
    have hmod : off % BSIZE < BSIZE := Nat.mod_lt _ (by decide)
    obtain ⟨m, hm⟩ : ∃ m, m = min src.length (BSIZE - off % BSIZE) := ⟨_, rfl⟩
    have htake : (src.take m).length = m := List.length_take_of_le (by omega)
    have hdrop : (src.drop m).length = src.length - m := List.length_drop
    have hbn : off / BSIZE < MAXFILE ∧ off / BSIZE * BSIZE < off + src.length := by
      unfold BSIZE at *
      omega
    rcases h.writeBlock hu hbn.1 (show 0 < (src.take m).length by omega) (by omega) hbn.2 hoff with ⟨hfail, hroom⟩ | ⟨d₁, img₁, hok, ht, hw, hroom⟩
    · rw [hfail]
      exact .inl ⟨rfl, hroom⟩
    have hu₁ := hu.set ht (store (blockAt img₁ d₁ (off / BSIZE) * BSIZE + off % BSIZE) (src.take m) img₁)
    have hrest := ih hw.ext.owned hu₁ (show (src.drop m).length ≤ fuel by omega)
      (show off + m + (src.drop m).length ≤ MAXFILE * BSIZE by omega) fun bn hbn => hw.blocks bn (by omega)
    have htotal : off + m + (src.drop m).length = off + src.length := by omega
    rw [set_self, set_img, htotal] at hrest
    simp only [hok, ok_bind, ← hm]
    rcases hrest with ⟨hfail, hno⟩ | ⟨d', img', hok', hw'⟩
    · exact .inl ⟨hfail, mt hroom.2 hno⟩
    · rw [set_set] at hw'
      have hboth := hw.trans (by rw [htake]; exact hw') hu (by rw [List.take_append_drop]; exact hend)
      rw [List.take_append_drop] at hboth
      exact .inr ⟨d', img', hok', hboth⟩

/-! ### Calls that grow an inode -/

theorem Whole.size_le (h : Whole img d) : d.size ≤ MAXFILE * BSIZE := by
  by_contra hlt
  exact Nat.lt_irrefl _ (h MAXFILE (Nat.not_le.1 hlt)).1

theorem Consistent.of_ext (h : Consistent sb s) (he : Ext sb s s' i) (hi : Whole s'.img (s'.inode i)) : Consistent sb s' := by
  refine ⟨he.owned, fun j hu bn hbn => ?_⟩
  rcases eq_or_ne j i with rfl | hj
  · exact hi bn hbn
  · have hinode := he.others j hj
    have hu' : s.Used sb j := by
      unfold State.Used at hu ⊢
      rwa [hinode] at hu
    rw [hinode] at hbn
    obtain ⟨hmax, hne⟩ := h.whole j hu' bn hbn
    refine ⟨hmax, ?_⟩
    rwa [← ptr_slotFor hu hmax, he.other j _ hj, ptr_slotFor hu' hmax]

theorem Consistent.readi (h : Consistent sb s) (hu : s.Used sb i) (off : Nat) {n : Nat} (hn : n < 2 ^ 32) :
    ∃ r, readi sb (s.inode i) s.img off n = .ok (r, s.inode i, s.img) :=
  readi_of_ne (h.whole i hu).size_le (fun bn hbn => (h.whole i hu bn hbn).2) hn

end Ostep.Fs.Kernel
