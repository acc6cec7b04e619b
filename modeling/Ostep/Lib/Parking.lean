import Mathlib.Algebra.Order.BigOperators.Group.Finset
import Mathlib.Data.Finset.Card
import Mathlib.Order.Interval.Finset.Nat
import Ostep.Lib.Probe

/-!
# When linear probing runs past the table

A set of keys `Parks` when for no `h` there are more keys with a hash of at least `h` than indices from `h` on. A table that holds
exactly these keys exists only then (`Probed.parks`), and a search that runs past the end shows that the keys of the table and the new
one do not park (`Probed.not_parks`): behind the last free index all keys have their hashes there as well.
-/

namespace Ostep

variable {κ : Type*} [DecidableEq κ] {size : Nat} {hash : κ → Nat} {t : Nat → Option κ} {k : κ} {K K' : Finset κ}

def Parks (size : Nat) (hash : κ → Nat) (K : Finset κ) : Prop := ∀ h, (K.filter fun k => h ≤ hash k).card ≤ size - h

omit [DecidableEq κ] in
theorem Parks.mono (h : Parks size hash K') (hK : K ⊆ K') : Parks size hash K := fun i =>
  Nat.le_trans (Finset.card_le_card (Finset.filter_subset_filter _ hK)) (h i)

/-- The table holds exactly the keys of `K`. -/
def Holds (t : Nat → Option κ) (K : Finset κ) : Prop := ∀ k, k ∈ K ↔ ∃ i, t i = some k

omit [DecidableEq κ] in
theorem holds_empty : Holds (fun _ => (none : Option κ)) ∅ := fun k => iff_of_false (Finset.notMem_empty k) (by simp)

theorem Holds.store {i : Nat} (h : Holds t K) (hi : search size hash t k = some i) :
    Holds (Function.update t i (some k)) (insert k K) := by
  intro k'
  rw [Finset.mem_insert, h k']
  constructor
  · rintro (rfl | ⟨j, hj⟩)
    · exact ⟨i, Function.update_self ..⟩
    · by_cases hji : j = i
      · subst hji
        obtain h0 | h0 := search_end hi
        · rw [h0] at hj
          cases hj
        · refine ⟨j, ?_⟩
          rw [Function.update_self, ← h0, hj]
      · exact ⟨j, by rw [Function.update_of_ne hji, hj]⟩
  · rintro ⟨j, hj⟩
    by_cases hji : j = i
    · subst hji
      rw [Function.update_self] at hj
      exact .inl (Option.some.inj hj).symm
    · rw [Function.update_of_ne hji] at hj
      exact .inr ⟨j, hj⟩

theorem search_lt {i : Nat} (h : search size hash t k = some i) : hash k ≤ i ∧ i < size := by
  obtain ⟨h1, h2, -⟩ := probe_eq_some_iff.1 h
  omega

theorem search_eq_none (h : search size hash t k = none) : ∀ i, hash k ≤ i → i < size → t i ≠ none ∧ t i ≠ some k := by
  intro i
  induction i using Nat.strong_induction_on with
  | h i ih =>
    intro hle hlt
    by_contra hcon
    have hend : t i = none ∨ t i = some k := by
      by_contra hn
      exact hcon (not_or.1 hn)
    have : search size hash t k = some i :=
      probe_eq_some_iff.2 ⟨hle, by omega, hend, fun m hm hmi => ih m hmi hm (by omega)⟩
    rw [h] at this
    cases this

theorem Probed.parks (ht : Probed size hash t) (hK : Holds t K) : Parks size hash K := by
  intro h
  rw [← Nat.card_Ico]
  have hslot : ∀ k ∈ K, ∃ i, t i = some k ∧ search size hash t k = some i := fun k hk => by
    obtain ⟨i, hi⟩ := (hK k).1 hk
    exact ⟨i, hi, ht i k hi⟩
  refine Finset.card_le_card_of_injOn (fun k => (search size hash t k).getD 0) ?_ ?_
  · intro k hk
    obtain ⟨hk, hle⟩ := Finset.mem_filter.1 (Finset.mem_coe.1 hk)
    obtain ⟨i, -, hi⟩ := hslot k hk
    obtain ⟨h1, h2⟩ := search_lt hi
    dsimp only
    rw [hi]
    exact Finset.mem_coe.2 (Finset.mem_Ico.2 ⟨Nat.le_trans hle h1, h2⟩)
  · intro k hk k' hk' heq
    obtain ⟨i, hti, hi⟩ := hslot k (Finset.mem_filter.1 (Finset.mem_coe.1 hk)).1
    obtain ⟨i', hti', hi'⟩ := hslot k' (Finset.mem_filter.1 (Finset.mem_coe.1 hk')).1
    dsimp only at heq
    rw [hi, hi'] at heq
    obtain rfl : i = i' := heq
    exact Option.some.inj (hti.symm.trans hti')

/-- From some index on the table is full, and everything there has its hash there as well. -/
theorem Probed.full_tail (ht : Probed size hash t) {j : Nat} (hj : ∀ i, j ≤ i → i < size → t i ≠ none) :
    ∃ h ≤ j, ∀ i, h ≤ i → i < size → ∃ k, t i = some k ∧ h ≤ hash k := by
  have hex : ∃ h, ∀ i, h ≤ i → i < size → t i ≠ none := ⟨j, hj⟩
  classical
  refine ⟨Nat.find hex, Nat.find_min' hex hj, fun i hi hlt => ?_⟩
  obtain ⟨k, hk⟩ := Option.ne_none_iff_exists'.1 (Nat.find_spec hex i hi hlt)
  refine ⟨k, hk, Nat.le_of_not_lt fun hhash => ?_⟩
  -- the search for `k` would have passed the free index in front
  obtain ⟨-, -, -, hbefore⟩ := probe_eq_some_iff.1 (ht i k hk)
  refine Nat.find_min hex (Nat.pred_lt (n := Nat.find hex) (by omega)) fun m hm hms => ?_
  by_cases heq : m = (Nat.find hex).pred
  · rw [heq]
    exact (hbefore _ (Nat.le_pred_of_lt hhash) (by rw [Nat.pred_eq_sub_one]; omega)).1
  · exact Nat.find_spec hex m (by rw [Nat.pred_eq_sub_one] at hm heq; omega) hms

theorem Probed.not_parks (ht : Probed size hash t) (hK : Holds t K) (hk : search size hash t k = none) :
    ¬ Parks size hash (insert k K) := by
  intro hparks
  have hseen := search_eq_none hk
  have hnew : k ∉ K := fun hmem => by
    obtain ⟨i, hi⟩ := (hK k).1 hmem
    rw [ht i k hi] at hk
    cases hk
  obtain ⟨h, hle, hfull⟩ := ht.full_tail fun i h1 h2 => (hseen i h1 h2).1
  have hcard : size - h ≤ (K.filter fun k => h ≤ hash k).card := by
    rw [← Nat.card_Ico]
    refine Finset.card_le_card_of_injOn (fun i => (t i).getD k) ?_ ?_
    · intro i hi
      obtain ⟨hi, hlt⟩ := Finset.mem_Ico.1 (Finset.mem_coe.1 hi)
      obtain ⟨k', hk', hhash⟩ := hfull i hi hlt
      dsimp only
      rw [hk']
      exact Finset.mem_coe.2 (Finset.mem_filter.2 ⟨(hK k').2 ⟨i, hk'⟩, hhash⟩)
    · intro i hi i' hi' heq
      obtain ⟨hi, hlt⟩ := Finset.mem_Ico.1 (Finset.mem_coe.1 hi)
      obtain ⟨hi', hlt'⟩ := Finset.mem_Ico.1 (Finset.mem_coe.1 hi')
      obtain ⟨k₁, hk₁, -⟩ := hfull i hi hlt
      obtain ⟨k₂, hk₂, -⟩ := hfull i' hi' hlt'
      dsimp only at heq
      rw [hk₁, hk₂] at heq
      obtain rfl : k₁ = k₂ := heq
      exact ht.unique hk₁ hk₂
  have hins : (insert k K).filter (fun k => h ≤ hash k) = insert k (K.filter fun k => h ≤ hash k) := by
    rw [Finset.filter_insert, if_pos hle]
  have := hparks h
  rw [hins, Finset.card_insert_of_notMem fun hmem => hnew (Finset.mem_filter.1 hmem).1] at this
  omega

end Ostep
