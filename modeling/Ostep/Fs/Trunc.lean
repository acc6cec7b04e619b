import Mathlib.Data.BitVec
import Ostep.Lib.Run
import Ostep.Fs.Content

/-!
# Freeing blocks, and whole sequences of calls

`itrunc` frees the blocks of an inode one after the other. While it is at the entries of the indirect block these still point at
blocks that are free, so that the loops are described by the set of blocks freed so far (`Freed`). `run_consistent` is about all
sequences of `readi`, `writei` and `itrunc`.
-/

namespace Ostep.Fs.Kernel

variable {sb : SuperBlock} {s s' : State} {img img' img'' : Image} {d d' : DInode} {b x i k : Nat} {P Q : Nat → Prop}

/-- The blocks with `P` have become free; only the free map has changed. -/
structure Freed (sb : SuperBlock) (img img' : Image) (P : Nat → Prop) : Prop where
  used : ∀ x < sb.size, inUse sb img' x = true ↔ inUse sb img x = true ∧ ¬ P x
  byte : ∀ p, p / BSIZE < sb.bmapstart ∨ lastMap sb < p / BSIZE → img'.byte p = img.byte p

theorem Freed.refl (sb : SuperBlock) (img : Image) : Freed sb img img fun _ => False := ⟨fun _ _ => by simp, fun _ _ => rfl⟩

theorem Freed.trans (h : Freed sb img img' P) (h' : Freed sb img' img'' Q) : Freed sb img img'' fun x => P x ∨ Q x where
  used := fun x hx => by rw [h'.used x hx, h.used x hx, and_assoc, not_or]
  byte := fun p hp => (h'.byte p hp).trans (h.byte p hp)

theorem Freed.congr (h : Freed sb img img' P) (hPQ : ∀ x, P x ↔ Q x) : Freed sb img img' Q := by
  obtain rfl : P = Q := funext fun x => propext (hPQ x)
  exact h

theorem testBit_andNot (v : UInt8) {j k : Nat} (hj : j < 8) (hk : k < 8) :
    (v &&& ~~~(UInt8.ofNat (1 <<< k))).toNat.testBit j = (v.toNat.testBit j && !decide (j = k)) := by
  have hmask : (UInt8.ofNat (1 <<< k)).toNat = 2 ^ k := by
    rw [UInt8.toNat_ofNat', Nat.one_shiftLeft]
    exact Nat.mod_eq_of_lt (Nat.pow_lt_pow_right (by omega) hk)
  rw [UInt8.toNat_and, Nat.testBit_and, ← UInt8.toNat_toBitVec (~~~_), BitVec.testBit_toNat, UInt8.toBitVec_not, BitVec.getLsbD_not,
    ← BitVec.testBit_toNat, UInt8.toNat_toBitVec, hmask, Nat.testBit_two_pow]
  simp [hj, eq_comm]

theorem inUse_clearInUse (sb : SuperBlock) (img : Image) (b x : Nat) :
    inUse sb (clearInUse sb b img) x = (inUse sb img x && !decide (x = b)) := by
  unfold inUse clearInUse
  by_cases hp : mapByte sb x = mapByte sb b
  · simp only [hp, Function.update_self]
    rw [testBit_andNot _ (Nat.mod_lt _ (by omega)) (Nat.mod_lt _ (by omega))]
    by_cases hx : x = b
    · simp [hx]
    · simp [hx, mapByte_inj hp hx]
  · have hx : x ≠ b := fun h => hp (by rw [h])
    simp [Function.update_of_ne hp, hx]

theorem bfree_ok (hb : b < sb.size) (hu : inUse sb img b = true) : ∃ img', bfree sb b img = .ok img' ∧ Freed sb img img' fun x => x = b := by
  have hle := mapByte_le hb
  have hge : sb.bmapstart ≤ mapByte sb b / BSIZE := by
    rw [mapByte_block]
    exact Nat.le_add_left _ _
  refine ⟨_, if_pos hu, fun x _ => ?_, fun p hp => Function.update_of_ne ?_ _ _⟩
  · rw [inUse_clearInUse]
    simp
  · rintro rfl
    omega

/-- What both loops do: the blocks `v k` are freed. -/
def freeEach (sb : SuperBlock) (v : Nat → Nat) : List Nat → Image → Except Panic Image
  | [], img => .ok img
  | k :: ks, img =>
    if v k ≠ 0 then do
      let img ← bfree sb (v k) img
      freeEach sb v ks img
    else freeEach sb v ks img

theorem freeEach_congr {v w : Nat → Nat} {ks : List Nat} (h : ∀ k ∈ ks, v k = w k) (img : Image) : freeEach sb v ks img = freeEach sb w ks img := by
  induction ks generalizing img with
  | nil => rfl
  | cons k ks ih =>
    have hks := ih fun l hl => h l (List.mem_cons_of_mem _ hl)
    simp only [freeEach, h k List.mem_cons_self, hks]

theorem freeEach_ok {v : Nat → Nat} {ks : List Nat} (hks : ks.Nodup) (hdata : ∀ k ∈ ks, v k ≠ 0 → v k < sb.size ∧ inUse sb img (v k) = true)
    (hinj : ∀ k ∈ ks, ∀ l ∈ ks, v k = v l → v k ≠ 0 → k = l) :
    ∃ img', freeEach sb v ks img = .ok img' ∧ Freed sb img img' fun x => x ≠ 0 ∧ ∃ k ∈ ks, v k = x := by
  induction ks generalizing img with
  | nil => exact ⟨img, rfl, (Freed.refl sb img).congr fun x => by simp⟩
  | cons k ks ih =>
    obtain ⟨hk, hks⟩ := List.nodup_cons.1 hks
    have hinj' : ∀ l ∈ ks, ∀ m ∈ ks, v l = v m → v l ≠ 0 → l = m := fun l hl m hm =>
      hinj l (List.mem_cons_of_mem _ hl) m (List.mem_cons_of_mem _ hm)
    rw [freeEach]
    by_cases h0 : v k = 0
    · rw [if_neg (not_not.2 h0)]
      obtain ⟨img', hok, hf⟩ := ih hks (fun l hl => hdata l (List.mem_cons_of_mem _ hl)) hinj'
      refine ⟨img', hok, hf.congr fun x => and_congr_right fun hx => ?_⟩
      rw [List.exists_mem_cons_iff, h0]
      exact (or_iff_right hx.symm).symm
    · rw [if_pos h0]
      obtain ⟨hlt, hu⟩ := hdata k List.mem_cons_self h0
      obtain ⟨img₁, hok₁, hf₁⟩ := bfree_ok hlt hu
      -- the other blocks are still in use
      have hdata' : ∀ l ∈ ks, v l ≠ 0 → v l < sb.size ∧ inUse sb img₁ (v l) = true := by
        intro l hl hne
        obtain ⟨hlt', hu'⟩ := hdata l (List.mem_cons_of_mem _ hl) hne
        refine ⟨hlt', (hf₁.used _ hlt').2 ⟨hu', fun heq => hk ?_⟩⟩
        rw [← hinj l (List.mem_cons_of_mem _ hl) k List.mem_cons_self heq hne]
        exact hl
      obtain ⟨img', hok, hf⟩ := ih hks hdata' hinj'
      refine ⟨img', by rw [hok₁, ok_bind, hok], (hf₁.trans hf).congr fun x => ?_⟩
      rw [List.exists_mem_cons_iff]
      constructor
      · rintro (rfl | ⟨hx, hmem⟩)
        · exact ⟨h0, .inl rfl⟩
        · exact ⟨hx, .inr hmem⟩
      · rintro ⟨hx, rfl | hmem⟩
        · exact .inl rfl
        · exact .inr ⟨hx, hmem⟩

theorem truncDirect_eq {is : List Nat} (his : is.Nodup) (d : DInode) (img : Image) : truncDirect sb is d img =
    (freeEach sb d.addrs is img).map fun img' => ({ d with addrs := fun j => if j ∈ is then 0 else d.addrs j }, img') := by
  induction is generalizing d img with
  | nil => simp [truncDirect, freeEach, Except.map]
  | cons j js ih =>
    obtain ⟨hj, hjs⟩ := List.nodup_cons.1 his
    rw [truncDirect, freeEach]
    by_cases h0 : d.addrs j = 0
    · have heq : (fun l => if l ∈ js then 0 else d.addrs l) = fun l => if l ∈ j :: js then 0 else d.addrs l := by
        funext l
        rcases eq_or_ne l j with rfl | hl
        · simp [h0]
        · simp [hl]
      rw [if_neg (not_not.2 h0), if_neg (not_not.2 h0), ih hjs, heq]
    · have heq : (fun l => if l ∈ js then 0 else Function.update d.addrs j 0 l) = fun l => if l ∈ j :: js then 0 else d.addrs l := by
        funext l
        rcases eq_or_ne l j with rfl | hl
        · simp
        · simp [hl]
      have hrest : ∀ l ∈ js, Function.update d.addrs j 0 l = d.addrs l := by
        intro l hl
        refine Function.update_of_ne ?_ _ _
        rintro rfl
        exact hj hl
      rw [if_pos h0, if_pos h0]
      cases bfree sb (d.addrs j) img with
      | error e => rfl
      | ok img₁ =>
        rw [ok_bind, ok_bind, ih hjs]
        simp only [freeEach_congr hrest, heq]

theorem truncEntries_eq {ind : Nat} (hind : lastMap sb < ind) {v : Nat → Nat} {js : List Nat} (hjs : ∀ j ∈ js, j < NINDIRECT)
    (hv : ∀ j ∈ js, uintAt img (ind * BSIZE + j * 4) = v j) (hlt : ∀ j ∈ js, v j ≠ 0 → v j < sb.size) :
    truncEntries sb ind js img = freeEach sb v js img := by
  induction js generalizing img with
  | nil => rfl
  | cons j js ih =>
    have hjs' : ∀ l ∈ js, l < NINDIRECT := fun l hl => hjs l (List.mem_cons_of_mem _ hl)
    have hv' : ∀ l ∈ js, uintAt img (ind * BSIZE + l * 4) = v l := fun l hl => hv l (List.mem_cons_of_mem _ hl)
    have hlt' : ∀ l ∈ js, v l ≠ 0 → v l < sb.size := fun l hl => hlt l (List.mem_cons_of_mem _ hl)
    rw [truncEntries, freeEach, hv j List.mem_cons_self]
    by_cases h0 : v j = 0
    · rw [if_neg (not_not.2 h0), if_neg (not_not.2 h0)]
      exact ih hjs' hv' hlt'
    · rw [if_pos h0, if_pos h0]
      unfold bfree
      split
      swap
      · rfl
      rw [ok_bind, ok_bind]
      refine ih hjs' (fun l hl => ?_) hlt'
      rw [← hv' l hl]
      have hle := mapByte_le (hlt j List.mem_cons_self h0)
      have hl' := hjs' l hl
      refine uintAt_congr fun q hq hq' => Function.update_of_ne ?_ _ _
      rintro rfl
      unfold NINDIRECT BSIZE at *
      omega

/-! ### `itrunc` -/

def blocksIn (sb : SuperBlock) (s : State) (i : Nat) (A : Nat → Prop) (x : Nat) : Prop := x ≠ 0 ∧ ∃ k, A k ∧ s.ptr sb (i, k) = x

theorem Owned.freeEach {A : Nat → Prop} {v f : Nat → Nat} {ks : List Nat} (h : Owned sb s) (hf : Freed sb s.img img (blocksIn sb s i A))
    (hfinj : ∀ k l, f k = f l → k = l) (hks : ks.Nodup) (hv : ∀ k ∈ ks, v k = s.ptr sb (i, f k)) (hA : ∀ k ∈ ks, ¬ A (f k)) :
    ∃ img', freeEach sb v ks img = .ok img' ∧ Freed sb s.img img' (blocksIn sb s i fun k => A k ∨ ∃ l ∈ ks, f l = k) := by
  have hinj : ∀ k l, s.ptr sb (i, k) = s.ptr sb (i, l) → s.ptr sb (i, k) ≠ 0 → k = l := fun k l heq hne =>
    (Prod.mk.inj (h.distinct _ _ heq hne)).2
  have hdata : ∀ k ∈ ks, v k ≠ 0 → v k < sb.size ∧ inUse sb img (v k) = true := by
    intro k hk hne
    rw [hv k hk] at hne ⊢
    have hdata := h.data _ hne
    refine ⟨hdata.lt, (hf.used _ hdata.lt).2 ⟨hdata.used, ?_⟩⟩
    rintro ⟨-, l, hl, heq⟩
    have := hinj _ _ heq.symm hne
    exact hA k hk (this ▸ hl)
  have hdistinct : ∀ k ∈ ks, ∀ l ∈ ks, v k = v l → v k ≠ 0 → k = l := by
    intro k hk l hl heq hne
    rw [hv k hk] at heq hne
    rw [hv l hl] at heq
    exact hfinj k l (hinj _ _ heq hne)
  obtain ⟨img', hok, hf'⟩ := freeEach_ok hks hdata hdistinct
  refine ⟨img', hok, (hf.trans hf').congr fun x => ?_⟩
  constructor
  · rintro (⟨hx, k, hk, heq⟩ | ⟨hx, k, hk, heq⟩)
    · exact ⟨hx, k, .inl hk, heq⟩
    · exact ⟨hx, f k, .inr ⟨k, hk, rfl⟩, by rw [← hv k hk, heq]⟩
  · rintro ⟨hx, k, hk | ⟨l, hl, rfl⟩, heq⟩
    · exact .inl ⟨hx, k, hk, heq⟩
    · exact .inr ⟨hx, l, hl, by rw [hv l hl, heq]⟩

theorem Owned.freed_all {A : Nat → Prop} (h : Owned sb s) (hu : s.Used sb i) (hf : Freed sb s.img img (blocksIn sb s i A))
    (hA : ∀ k, s.ptr sb (i, k) ≠ 0 → A k) (d : DInode) :
    (∀ x < sb.size, inUse sb (iupdate sb i d img) x = true ↔ inUse sb s.img x = true ∧ ¬ (x ≠ 0 ∧ ∃ k, s.ptr sb (i, k) = x)) ∧
      InodesKept sb s.img i (iupdate sb i d img) ∧ ∀ p, lastMap sb < p / BSIZE → (iupdate sb i d img).byte p = s.img.byte p := by
  have hlt := h.inodes i hu.1
  have hlast : sb.bmapstart ≤ lastMap sb := Nat.le_add_left _ _
  refine ⟨fun x hx => ?_, inodesKept_iupdate (fun p hp => hf.byte p (.inl hp)) i d,
    fun p hp => (iupdate_of_ne (by omega)).trans (hf.byte p (.inr hp))⟩
  rw [inUse_congr hx fun p hp _ => iupdate_of_ne (by omega), hf.used x hx]
  refine and_congr_right fun _ => not_congr (and_congr_right fun h0 => exists_congr fun k => and_iff_right_of_imp ?_)
  rintro rfl
  exact hA k h0

/-- All blocks of the inode are freed, and no others. -/
theorem Owned.itrunc (h : Owned sb s) (hu : s.Used sb i) : ∃ d' img', itrunc sb i (s.inode i) s.img = .ok (d', img') ∧
    d' = { s.inode i with size := 0, addrs := fun k => if k ≤ NDIRECT then 0 else (s.inode i).addrs k } ∧
    (∀ x < sb.size, inUse sb img' x = true ↔ inUse sb s.img x = true ∧ ¬ (x ≠ 0 ∧ ∃ k, s.ptr sb (i, k) = x)) ∧
    InodesKept sb s.img i img' ∧ ∀ p, lastMap sb < p / BSIZE → img'.byte p = s.img.byte p := by
  have hNP : NPTR = NDIRECT + 1 + NINDIRECT := rfl
  have hnull : ∀ k, NPTR ≤ k → s.ptr sb (i, k) = 0 := fun k hk => if_neg fun h => Nat.not_lt.2 hk h.2
  -- the direct blocks
  have hf₀ : Freed sb s.img s.img (blocksIn sb s i fun _ => False) :=
    (Freed.refl sb s.img).congr fun x => ⟨False.elim, fun ⟨_, _, hfalse, _⟩ => hfalse⟩
  obtain ⟨img₁, hok₁, hf₁⟩ := h.freeEach hf₀ (v := (s.inode i).addrs) (f := fun k => k) (fun _ _ => id) (List.nodup_range (n := NDIRECT))
    (fun k hk => by
      have hk := List.mem_range.1 hk
      exact ((ptr_of_used hu (by omega)).trans (if_pos hk.le)).symm) fun _ _ => id
  have hd : truncDirect sb (List.range NDIRECT) (s.inode i) s.img =
      .ok ({ s.inode i with addrs := fun j => if j ∈ List.range NDIRECT then 0 else (s.inode i).addrs j }, img₁) := by
    rw [truncDirect_eq List.nodup_range, hok₁]
    rfl
  have hrest : ∀ k, k ≠ NDIRECT →
      (if k ∈ List.range NDIRECT then 0 else (s.inode i).addrs k) = if k ≤ NDIRECT then 0 else (s.inode i).addrs k := fun k hk =>
    ite_cond_congr (propext (List.mem_range.trans ⟨Nat.le_of_lt, fun hle => Nat.lt_of_le_of_ne hle hk⟩))
  have hind : (if NDIRECT ∈ List.range NDIRECT then 0 else (s.inode i).addrs NDIRECT) = (s.inode i).addrs NDIRECT := if_neg (by simp)
  unfold Kernel.itrunc
  simp only [hd, ok_bind, hind]
  by_cases h0 : (s.inode i).addrs NDIRECT = 0
  · rw [if_neg (not_not.2 h0)]
    refine ⟨_, _, rfl, congrArg _ (funext fun k => ?_), h.freed_all hu hf₁ (fun k hne => .inr ⟨k, List.mem_range.2 ?_, rfl⟩) _⟩
    · rcases eq_or_ne k NDIRECT with rfl | hk
      · rw [hind, h0, if_pos (Nat.le_refl _)]
      · exact hrest k hk
    · -- without an indirect block there are no other pointers
      by_contra hge
      refine hne ?_
      rcases Nat.lt_or_ge k NPTR with hlt | hout
      · rw [ptr_of_used hu hlt]
        rcases Nat.lt_or_eq_of_le (Nat.not_lt.1 hge) with hgt | rfl
        · exact (if_neg (by omega)).trans (if_pos h0)
        · exact (ptrAt_ind _ _).trans h0
      · exact hnull k hout
  · rw [if_pos h0]
    have hdata := (h.sound hu).ind h0
    -- the entries of the indirect block
    obtain ⟨img₂, hok₂, hf₂⟩ := h.freeEach hf₁ (v := fun j => s.ptr sb (i, j + (NDIRECT + 1))) (f := fun j => j + (NDIRECT + 1))
      (fun k l hkl => by omega) (List.nodup_range (n := NINDIRECT)) (fun _ _ => rfl) (fun k _ hk => by
        rcases hk with hk | ⟨l, hl, heq⟩
        · exact hk
        · have := List.mem_range.1 hl
          omega)
    have hentry : ∀ j ∈ List.range NINDIRECT, uintAt img₁ ((s.inode i).addrs NDIRECT * BSIZE + j * 4) = s.ptr sb (i, j + (NDIRECT + 1)) := by
      intro j hj
      have hj := List.mem_range.1 hj
      rw [ptr_of_used hu (by omega), ptrAt, if_neg (by omega), if_neg h0, Nat.add_sub_cancel]
      refine uintAt_congr fun q hq hq' => hf₁.byte q (.inr ?_)
      rw [slot_div (j := j + (NDIRECT + 1)) (by omega) (by rw [Nat.add_sub_cancel]; exact hq) (by rw [Nat.add_sub_cancel]; exact hq')]
      exact hdata.behind
    have he := truncEntries_eq hdata.behind (fun j hj => List.mem_range.1 hj) hentry fun j _ hne => (h.data _ hne).lt
    -- and that block itself
    obtain ⟨img₃, hok₃, hf₃⟩ := h.freeEach hf₂ (v := (s.inode i).addrs) (f := fun k => k) (fun _ _ => id) (List.nodup_singleton NDIRECT)
      (fun k hk => by
        rw [List.mem_singleton.1 hk]
        exact (ptr_ind hu).symm) (fun k hk hA => by
        rw [List.mem_singleton.1 hk] at hA
        rcases hA with (hA | ⟨l, hl, heq⟩) | ⟨l, -, heq⟩
        · exact hA
        · have := List.mem_range.1 hl
          omega
        · omega)
    have hb : bfree sb ((s.inode i).addrs NDIRECT) img₂ = .ok img₃ := by
      rw [Kernel.freeEach, if_pos h0] at hok₃
      obtain ⟨img', hok', heq⟩ := bind_ok hok₃
      cases heq
      exact hok'
    simp only [he, hok₂, ok_bind, hb]
    refine ⟨_, _, rfl, congrArg _ (funext fun k => ?_), h.freed_all hu hf₃ (fun k hne => ?_) _⟩
    · dsimp only
      rcases eq_or_ne k NDIRECT with rfl | hk
      · rw [Function.update_self, if_pos (Nat.le_refl _)]
      · rw [Function.update_of_ne hk, hrest k hk]
    · have hlt : k < NPTR := by
        by_contra hge
        exact hne (hnull k (Nat.not_lt.1 hge))
      rcases Nat.lt_trichotomy k NDIRECT with hk | hk | hk
      · exact .inl (.inl (.inr ⟨k, List.mem_range.2 hk, rfl⟩))
      · exact .inr ⟨NDIRECT, List.mem_singleton_self _, hk.symm⟩
      · exact .inl (.inr ⟨k - (NDIRECT + 1), List.mem_range.2 (by omega), by omega⟩)

theorem Owned.ptr_trunc (h : Owned sb s) (haddrs : ∀ k ≤ NDIRECT, d'.addrs k = 0)
    (hbyte : ∀ p, lastMap sb < p / BSIZE → img'.byte p = s.img.byte p) (j k : Nat) :
    (s.set i d' img').ptr sb (j, k) = if j = i then 0 else s.ptr sb (j, k) := by
  unfold State.ptr State.Used
  rcases eq_or_ne j i with rfl | hj
  · rw [if_pos rfl]
    simp only [set_self, set_img]
    split
    · unfold ptrAt
      rw [haddrs NDIRECT (Nat.le_refl _), if_pos rfl]
      split
      · next hk => exact haddrs k hk
      · rfl
    · rfl
  · rw [if_neg hj]
    simp only [set_of_ne hj, set_img]
    split
    · next hu =>
      refine ptrAt_congr rfl (fun h0 p hp => hbyte p ?_) hu.2
      have huj : s.Used sb j := hu.1
      rw [← ptr_ind huj] at h0 hp
      rw [hp]
      exact (h.data _ h0).behind
    · rfl

theorem Consistent.itrunc (h : Consistent sb s) (hu : s.Used sb i) : ∃ d' img', itrunc sb i (s.inode i) s.img = .ok (d', img') ∧
    d'.type = (s.inode i).type ∧ Consistent sb (s.set i d' img') ∧
    ∀ x < sb.size, inUse sb img' x = true ↔ inUse sb s.img x = true ∧ ¬ (x ≠ 0 ∧ ∃ k, s.ptr sb (i, k) = x) := by
  obtain ⟨d', img', hok, hd, hused, -, hbyte⟩ := h.owned.itrunc hu
  have ht : d'.type = (s.inode i).type := by rw [hd]
  have hsize : d'.size = 0 := by rw [hd]
  have haddrs : ∀ k ≤ NDIRECT, d'.addrs k = 0 := fun k hk => by rw [hd]; exact if_pos hk
  have hptr := h.owned.ptr_trunc haddrs hbyte (i := i)
  refine ⟨d', img', hok, ht, ⟨⟨h.owned.size_lt, h.owned.inodes, fun x hx hlt => ?_, ?_, ?_⟩, fun j huj bn hbn => ?_⟩, hused⟩
  · refine (hused x hlt).2 ⟨h.owned.reserved x hx hlt, ?_⟩
    rintro ⟨h0, k, rfl⟩
    have := (h.owned.data _ h0).behind
    omega
  · rintro ⟨j, k⟩ hne
    rw [hptr] at hne ⊢
    split at hne
    · exact absurd rfl hne
    · next hj =>
      have hdata := h.owned.data _ hne
      rw [if_neg hj]
      refine ⟨hdata.lt, hdata.behind, (hused _ hdata.lt).2 ⟨hdata.used, ?_⟩⟩
      rintro ⟨-, l, heq⟩
      exact hj (Prod.mk.inj (h.owned.distinct _ _ heq.symm hne)).1
  · refine h.owned.distinct.clear ?_
    rintro ⟨j, k⟩
    rw [hptr]
    split
    · exact .inl rfl
    · exact .inr rfl
  · rcases eq_or_ne j i with rfl | hj
    · rw [set_self, hsize] at hbn
      exact absurd hbn (Nat.not_lt_zero _)
    · have huj' : s.Used sb j := by
        unfold State.Used at huj ⊢
        rwa [set_of_ne hj] at huj
      rw [set_of_ne hj] at hbn
      obtain ⟨hmax, hne⟩ := h.whole j huj' bn hbn
      refine ⟨hmax, ?_⟩
      rwa [← ptr_slotFor huj hmax, hptr, if_neg hj, ptr_slotFor huj' hmax]

/-! ### Sequences -/

/-- The inode is in use, and the lengths are of type `uint`. -/
def Op.Legal (sb : SuperBlock) (s : State) (op : Op) : Prop :=
  s.Used sb op.inum ∧ match op with
    | .readi _ _ n => n < 2 ^ 32
    | .writei _ src _ => src.length < 2 ^ 32
    | .itrunc _ => True

theorem used_set (ht : d'.type = (s.inode i).type) (j : Nat) : (s.set i d' img').Used sb j ↔ s.Used sb j := by
  unfold State.Used
  rcases eq_or_ne j i with rfl | hj
  · rw [set_self, ht]
  · rw [set_of_ne hj]

theorem Consistent.step {op : Op} (h : Consistent sb s) (hl : op.Legal sb s) :
    step sb s op = .error .outOfBlocks ∨ ∃ s', step sb s op = .ok s' ∧ Consistent sb s' ∧ (∀ j, s'.Used sb j ↔ s.Used sb j) ∧
      ∀ x < sb.size, inUse sb s.img x = false → inUse sb s'.img x = true → x ≠ 0 ∧ ∃ k, s'.ptr sb (op.inum, k) = x := by
  obtain ⟨hu, hl⟩ := hl
  have hkeep : ∀ x < sb.size, inUse sb s.img x = false → inUse sb s.img x = true → x ≠ 0 ∧ ∃ k, s.ptr sb (op.inum, k) = x := by
    intro x _ hfree hused
    rw [hfree] at hused
    cases hused
  cases op with
  | readi i off n =>
    change s.Used sb i at hu
    unfold Kernel.step
    dsimp only
    split
    · exact .inr ⟨s, rfl, h, fun _ => Iff.rfl, hkeep⟩
    · obtain ⟨r, hok⟩ := h.readi hu off hl
      have hself : (⟨Function.update s.inode i (s.inode i), s.img⟩ : State) = s := set_inode s i s.img
      refine .inr ⟨s, ?_, h, fun _ => Iff.rfl, hkeep⟩
      simp only [hok, ok_bind, hself]
      rfl
  | writei i src off =>
    change s.Used sb i at hu
    unfold Kernel.step
    dsimp only
    split
    · exact .inr ⟨s, rfl, h, fun _ => Iff.rfl, hkeep⟩
    · rcases h.writei hu off hl with hfail | ⟨r, d', img', hok, he, hc⟩
      · rw [hfail]
        exact .inl rfl
      · have ht : d'.type = (s.inode i).type := by
          have := he.type
          rwa [set_self] at this
        refine .inr ⟨s.set i d' img', ?_, hc, used_set ht, fun x hx hfree hused => ?_⟩
        · simp only [hok, ok_bind]
          rfl
        · rcases he.taken x hx hused with hold | hnew
          · rw [hfree] at hold
            cases hold
          · exact hnew
  | itrunc i =>
    change s.Used sb i at hu
    obtain ⟨d', img', hok, ht, hc, hused⟩ := h.itrunc hu
    refine .inr ⟨s.set i d' img', ?_, hc, used_set ht, fun x hx hfree hux => ?_⟩
    · unfold Kernel.step
      simp only [hok, ok_bind]
      rfl
    · have := ((hused x hx).1 hux).1
      rw [hfree] at this
      cases this

theorem Op.Legal.congr {op : Op} (h : op.Legal sb s) (hu : ∀ j, s'.Used sb j ↔ s.Used sb j) : op.Legal sb s' := ⟨(hu _).2 h.1, h.2⟩

/-- Every sequence of calls on inodes in use keeps the disk consistent, unless it runs out of blocks, which is the only panic it can
run into. In each state reached `balloc` returns a block that no pointer refers to, the blocks that a call has taken belong to its
inode, and `itrunc` frees exactly the blocks of its inode. -/
theorem run_consistent (h : Consistent sb s) (ops : List Op) (hl : ∀ op ∈ ops, op.Legal sb s) :
    ops.foldlM (step sb) s = .error .outOfBlocks ∨ ∃ t, ops.foldlM (step sb) s = .ok t ∧ Consistent sb t ∧
      (∀ b img', balloc sb t.img = .ok (b, img') → ∀ y, t.ptr sb y ≠ b) ∧
      (∀ op, op.Legal sb t → ∀ t', step sb t op = .ok t' → ∀ x < sb.size, inUse sb t.img x = false → inUse sb t'.img x = true →
        (∀ y, t.ptr sb y ≠ x) ∧ ∃ k, t'.ptr sb (op.inum, k) = x) ∧
      ∀ i, t.Used sb i → ∃ t', step sb t (.itrunc i) = .ok t' ∧
        ∀ x < sb.size, inUse sb t.img x = true ∧ inUse sb t'.img x = false ↔ x ≠ 0 ∧ ∃ k, t.ptr sb (i, k) = x := by
  induction ops generalizing s with
  | nil =>
    refine .inr ⟨s, rfl, h, fun b img' hb y => ?_, fun op hop t' ht x hx hfree hux => ?_, fun i hu => ?_⟩
    · rcases balloc_cases sb s.img with hfail | ⟨b', hb', hlt, hfree⟩
      · rw [hfail] at hb
        cases hb
      · rw [hb'] at hb
        cases hb
        exact h.owned.ne_of_free hfree hlt y
    · rcases h.step hop with hfail | ⟨t'', ht'', -, -, htaken⟩
      · rw [hfail] at ht
        cases ht
      · rw [ht''] at ht
        cases ht
        exact ⟨h.owned.ne_of_free hfree hx, (htaken x hx hfree hux).2⟩
    · obtain ⟨d', img', hok, -, -, hused⟩ := h.itrunc hu
      refine ⟨s.set i d' img', ?_, fun x hx => ?_⟩
      · unfold Kernel.step
        simp only [hok, ok_bind]
        rfl
      · rw [set_img, ← Bool.not_eq_true, hused x hx]
        constructor
        · rintro ⟨hu, hnot⟩
          exact by_contra fun hno => hnot ⟨hu, hno⟩
        · rintro ⟨h0, k, rfl⟩
          exact ⟨(h.owned.data _ h0).used, fun hno => hno.2 ⟨h0, k, rfl⟩⟩
  | cons op ops ih =>
    rw [List.foldlM_cons]
    rcases h.step (hl op List.mem_cons_self) with hfail | ⟨s₁, hok, hc, hu, -⟩
    · rw [hfail]
      exact .inl rfl
    · rw [hok, ok_bind]
      exact ih hc fun op' hop' => (hl op' (List.mem_cons_of_mem _ hop')).congr hu

def growTwo : List Op := [.writei 1 [7, 8] 0, .writei 2 [9] 0, .readi 2 0 4, .itrunc 1, .writei 2 [5] 1]

theorem run_consistent_growTwo : ∃ t, growTwo.foldlM (step tinyDisk) tinyFiles = .ok t ∧ Consistent tinyDisk t := by
  have hl : ∀ op ∈ growTwo, op.Legal tinyDisk tinyFiles := by
    intro op hop
    simp only [growTwo, List.mem_cons, List.not_mem_nil, or_false] at hop
    rcases hop with rfl | rfl | rfl | rfl | rfl <;> exact ⟨by decide, by decide⟩
  rcases run_consistent consistent_tinyFiles growTwo hl with hfail | ⟨t, hok, hc, -⟩
  · have hsome : (growTwo.foldlM (step tinyDisk) tinyFiles).toOption.isSome = true := by decide +kernel
    rw [hfail] at hsome
    cases hsome
  · exact ⟨t, hok, hc⟩

end Ostep.Fs.Kernel
