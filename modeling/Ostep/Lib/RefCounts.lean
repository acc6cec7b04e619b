import Mathlib.Algebra.BigOperators.Group.Finset.Piecewise
import Mathlib.Algebra.Order.Group.Multiset
import Mathlib.Algebra.Order.Ring.Int
import Mathlib.Data.Fintype.Basic
import Mathlib.Tactic.Abel

/-!
# Reference counts

The references to objects, wherever they are, form a multiset. `Counted ref M` says that the counters agree with it. A table of
pointers, some of them null, holds the references `pointers`; storing and clearing a pointer add and remove one.
-/

namespace Ostep

theorem sum_replace {ι α M : Type*} [DecidableEq ι] [AddCommMonoid M] {t : Finset ι} {i : ι} (hi : i ∈ t) (x : ι → α) (F : α → M) (v : α) :
    ∑ j ∈ t, F (Function.update x i v j) + F (x i) = ∑ j ∈ t, F (x j) + F v := by
  simp only [Function.apply_update fun _ => F]
  rw [Finset.sum_update_of_mem hi, Finset.sum_eq_add_sum_sdiff_singleton_of_mem hi fun j => F (x j)]
  abel

section
variable {α : Type*} [DecidableEq α] {ref : α → Nat} {M : Multiset α} {a : α}

def Counted (ref : α → Nat) (M : Multiset α) : Prop := ∀ a, ref a = M.count a

theorem counted_zero : Counted (fun _ : α => 0) 0 := fun a => (Multiset.count_zero a).symm

theorem Counted.add (h : Counted ref M) (a : α) : Counted (Function.update ref a (ref a + 1)) (a ::ₘ M) := by
  intro b
  by_cases hb : b = a
  · rw [hb, Function.update_self, Multiset.count_cons_self, h a]
  · rw [Function.update_of_ne hb, Multiset.count_cons_of_ne hb, h b]

theorem Counted.pos (h : Counted ref (a ::ₘ M)) : 0 < ref a := by
  rw [h a, Multiset.count_cons_self]
  exact Nat.succ_pos _

theorem Counted.remove (h : Counted ref (a ::ₘ M)) : Counted (Function.update ref a (ref a - 1)) M := by
  intro b
  by_cases hb : b = a
  · rw [hb, Function.update_self, h a, Multiset.count_cons_self, Nat.add_sub_cancel]
  · rw [Function.update_of_ne hb, h b, Multiset.count_cons_of_ne hb]

end

section
variable {κ α : Type*} [Fintype κ] [DecidableEq κ] {o : κ → Option α} {k : κ} {a : α}

def ofPtr (p : Option α) : Multiset α := p.elim 0 ({·})

def pointers (o : κ → Option α) : Multiset α := ∑ k, ofPtr (o k)

theorem pointers_put (h : o k = none) (a : α) : pointers (Function.update o k (some a)) = a ::ₘ pointers o := by
  have hsum := sum_replace (Finset.mem_univ k) o ofPtr (some a)
  rw [h] at hsum
  exact (add_zero _).symm.trans (hsum.trans ((add_comm _ _).trans (Multiset.singleton_add a _)))

theorem pointers_clear (h : o k = some a) : pointers o = a ::ₘ pointers (Function.update o k none) := by
  have hsum := sum_replace (Finset.mem_univ k) o ofPtr none
  rw [h] at hsum
  exact (add_zero _).symm.trans (hsum.symm.trans ((add_comm _ _).trans (Multiset.singleton_add a _)))

omit [DecidableEq κ] in
theorem pointers_null : pointers (fun _ : κ => (none : Option α)) = 0 := Finset.sum_const_zero

omit [DecidableEq κ] in
theorem count_pointers [DecidableEq α] (o : κ → Option α) (a : α) : (pointers o).count a = ({k | o k = some a} : Finset κ).card := by
  rw [pointers, Multiset.count_sum', Finset.card_filter]
  refine Finset.sum_congr rfl fun k _ => ?_
  cases hk : o k with
  | none => simp [ofPtr]
  | some b => simp [ofPtr, Multiset.count_singleton, eq_comm]

omit [DecidableEq κ] in
theorem mem_pointers : a ∈ pointers o ↔ ∃ k, o k = some a := by
  rw [pointers, Multiset.mem_sum]
  constructor
  · rintro ⟨k, -, hk⟩
    cases hok : o k with
    | none =>
      rw [hok] at hk
      exact absurd hk (Multiset.notMem_zero a)
    | some b =>
      rw [hok] at hk
      exact ⟨k, by rw [hok, Multiset.mem_singleton.1 hk]⟩
  · rintro ⟨k, hk⟩
    exact ⟨k, Finset.mem_univ k, by rw [hk]; exact Multiset.mem_singleton_self a⟩

end

end Ostep
