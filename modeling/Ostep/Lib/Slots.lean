import Mathlib.Logic.Function.Basic

/-!
# Distinct pointers

A family of slots holds pointers, of which `null` may stand anywhere. `Distinct` says that no other pointer stands in two slots. A
pointer that is in no slot may be put into one, and slots may be cleared.
-/

namespace Ostep

variable {σ α : Type*} {null b : α} {ptr ptr' : σ → α}

def Distinct (null : α) (ptr : σ → α) : Prop := ∀ x y, ptr x = ptr y → ptr x ≠ null → x = y

theorem Distinct.put [DecidableEq σ] (h : Distinct null ptr) (hb : ∀ x, ptr x ≠ b) (k : σ) : Distinct null (Function.update ptr k b) := by
  intro x y hxy hne
  rcases eq_or_ne x k with rfl | hx
  · rcases eq_or_ne y x with rfl | hy
    · rfl
    · rw [Function.update_self, Function.update_of_ne hy] at hxy
      exact absurd hxy.symm (hb y)
  · rw [Function.update_of_ne hx] at hxy hne
    rcases eq_or_ne y k with rfl | hy
    · rw [Function.update_self] at hxy
      exact absurd hxy (hb x)
    · rw [Function.update_of_ne hy] at hxy
      exact h x y hxy hne

theorem Distinct.clear (h : Distinct null ptr) (hptr : ∀ x, ptr' x = null ∨ ptr' x = ptr x) : Distinct null ptr' := by
  intro x y hxy hne
  rcases hptr x with hx | hx
  · exact absurd hx hne
  · rcases hptr y with hy | hy
    · exact absurd (hxy.trans hy) hne
    · rw [hx] at hxy hne
      exact h x y (hxy.trans hy) hne

end Ostep
