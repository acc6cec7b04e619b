import Mathlib.Data.ZMod.Basic
import Mathlib.Data.ZMod.Units
import Mathlib.Algebra.Ring.GeomSum
import Mathlib.Tactic.Ring
import Mathlib.Tactic.LinearCombination

/-!
# Orbits of affine maps

The map `x ↦ a * x + c` modulo `m` comes to every residue from any start when `a` and the first difference are units and the sums
`1 + a + ⋯ + a ^ (n - 1)` vanish for multiples of `m` only.
-/

namespace Ostep

variable {m : ℕ} {a c x : ZMod m}

theorem iterate_affine (a c x : ZMod m) (n : ℕ) :
    (fun x => a * x + c)^[n] x = x + (∑ i ∈ Finset.range n, a ^ i) * ((a - 1) * x + c) := by
  induction n with
  | zero => simp
  | succ n ih =>
    rw [Function.iterate_succ_apply', ih, Finset.sum_range_succ]
    have hgeom := geom_sum_mul a n
    linear_combination ((a - 1) * x + c) * hgeom

theorem affine_surjective [NeZero m] (ha : IsUnit a) (hdiff : IsUnit ((a - 1) * x + c))
    (hsum : ∀ n, ∑ i ∈ Finset.range n, a ^ i = 0 → m ∣ n) (y : ZMod m) : ∃ n, (fun x => a * x + c)^[n] x = y := by
  have hlt : ∀ {i j : ℕ}, i < j → j < m → (fun x => a * x + c)^[i] x ≠ (fun x => a * x + c)^[j] x := by
    intro i j hij hj heq
    rw [iterate_affine, iterate_affine, add_right_inj, hdiff.mul_left_inj] at heq
    obtain ⟨k, rfl⟩ := Nat.exists_eq_add_of_lt hij
    rw [add_assoc, Finset.sum_range_add, left_eq_add] at heq
    simp only [pow_add, ← Finset.mul_sum] at heq
    have hdvd := hsum (k + 1) ((ha.pow i).mul_right_eq_zero.1 heq)
    have := Nat.le_of_dvd (Nat.succ_pos k) hdvd
    omega
  have hinj : Function.Injective fun i : Fin m => (fun x => a * x + c)^[i] x := by
    intro i j heq
    rcases Nat.lt_trichotomy i j with h | h | h
    · exact absurd heq (hlt h j.isLt)
    · exact Fin.ext h
    · exact absurd heq.symm (hlt h i.isLt)
  have hbij := (Fintype.bijective_iff_injective_and_card _).2 ⟨hinj, by rw [Fintype.card_fin, ZMod.card]⟩
  obtain ⟨i, hi⟩ := hbij.2 y
  exact ⟨i, hi⟩

end Ostep
