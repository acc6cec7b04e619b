import Mathlib.Data.List.Basic
import Mathlib.Tactic.Common

/-!
# Paths along a successor function

`Path next p l e` says that from `p` the successors lead through the elements of `l` to `e`; a path that ends where it starts is a
cycle. A loop that goes on to the successor as long as it is not at a place to stop comes along a path to its end (`Path.walk`).
-/

namespace Ostep

variable {α β : Type*}

def Path (next : α → α) : α → List α → α → Prop
  | p, [], e => p = e
  | p, x :: l, e => p = x ∧ Path next (next x) l e

namespace Path

variable {next next' : α → α} {p q e e' x y : α} {l l₁ l₂ : List α}

theorem append (h₁ : Path next p l₁ q) (h₂ : Path next q l₂ e) : Path next p (l₁ ++ l₂) e := by
  induction l₁ generalizing p with
  | nil => exact h₁ ▸ h₂
  | cons x l₁ ih => exact ⟨h₁.1, ih h₁.2⟩

theorem split (h : Path next p (l₁ ++ q :: l₂) e) : Path next p l₁ q ∧ Path next (next q) l₂ e := by
  induction l₁ generalizing p with
  | nil => exact ⟨h.1, h.2⟩
  | cons x l₁ ih => exact ⟨⟨h.1, (ih h.2).1⟩, (ih h.2).2⟩

theorem congr (h : Path next p l e) (hnext : ∀ x ∈ l, next' x = next x) : Path next' p l e := by
  induction l generalizing p with
  | nil => exact h
  | cons x l ih =>
    refine ⟨h.1, ?_⟩
    rw [hnext x List.mem_cons_self]
    exact ih h.2 fun y hy => hnext y (List.mem_cons_of_mem _ hy)

theorem rotate (h : Path next p (l₁ ++ q :: l₂) p) : Path next q (q :: (l₂ ++ l₁)) q := by
  obtain ⟨h₁, h₂⟩ := h.split
  exact ⟨rfl, h₂.append h₁⟩

theorem next_mem (h : Path next p (x :: (l₁ ++ q :: l₂)) e) (hy : y ∈ x :: l₁) : next y ∈ l₁ ++ q :: l₂ := by
  induction l₁ generalizing p x with
  | nil =>
    obtain rfl := List.mem_singleton.1 hy
    rw [h.2.1]
    exact List.mem_cons_self
  | cons z l₁ ih =>
    rcases List.mem_cons.1 hy with rfl | hy
    · rw [h.2.1]
      exact List.mem_cons_self
    · exact List.mem_cons_of_mem _ (ih h.2 hy)

/-- A loop that stops at no element of a path comes to its end. -/
theorem walk {stop : α → Prop} {F : Nat → α → β} (hstep : ∀ fuel y, ¬ stop y → F (fuel + 1) y = F fuel (next y)) (h : Path next p l e)
    (hl : ∀ y ∈ l, ¬ stop y) (fuel : Nat) : F (fuel + l.length) p = F fuel e := by
  induction l generalizing p with
  | nil =>
    obtain rfl : p = e := h
    rfl
  | cons x l ih =>
    obtain rfl := h.1
    rw [List.length_cons, ← Nat.add_assoc, hstep _ _ (hl p List.mem_cons_self)]
    exact ih h.2 fun y hy => hl y (List.mem_cons_of_mem _ hy)

theorem exists_walk {stop : α → Prop} {F : Nat → α → β} (hstep : ∀ fuel y, ¬ stop y → F (fuel + 1) y = F fuel (next y))
    (h : Path next p l e) (hs : ∃ y ∈ l, stop y) : ∃ z ∈ l, stop z ∧ ∃ k, ∀ fuel, F (fuel + k) p = F fuel z := by
  induction l generalizing p with
  | nil =>
    obtain ⟨y, hy, -⟩ := hs
    cases hy
  | cons x l ih =>
    obtain rfl := h.1
    by_cases hp : stop p
    · exact ⟨p, List.mem_cons_self, hp, 0, fun _ => rfl⟩
    · obtain ⟨y, hy, hstop⟩ := hs
      rcases List.mem_cons.1 hy with rfl | hy
      · exact absurd hstop hp
      · obtain ⟨z, hz, hzs, k, hk⟩ := ih h.2 ⟨y, hy, hstop⟩
        refine ⟨z, List.mem_cons_of_mem _ hz, hzs, k + 1, fun fuel => ?_⟩
        rw [← Nat.add_assoc, hstep _ _ hp, hk]

theorem exists_pred (h : Path next p (x :: (l₁ ++ y :: l₂)) e) : ∃ w ∈ x :: l₁, next w = y := by
  induction l₁ generalizing p x with
  | nil => exact ⟨x, List.mem_cons_self, h.2.1⟩
  | cons z l₁ ih =>
    obtain ⟨w, hw, heq⟩ := ih h.2
    exact ⟨w, List.mem_cons_of_mem _ hw, heq⟩

theorem next_ne (h : Path next x (x :: l) x) (hnd : (x :: l).Nodup) (hl : x :: l = l₁ ++ q :: l₂) (hy : y ∈ l₁) : next y ≠ x := by
  intro heq
  cases l₁ with
  | nil => cases hy
  | cons w l₁ =>
    rw [List.cons_append] at hl
    obtain ⟨rfl, rfl⟩ := List.cons.inj hl
    exact (List.nodup_cons.1 hnd).1 (heq ▸ h.next_mem hy)

theorem next_mem_cycle (h : Path next p l p) (hy : y ∈ l) (hp : p ∈ l) : next y ∈ l := by
  obtain ⟨l₁, l₂, rfl⟩ := List.append_of_mem hy
  have hnext := h.split.2
  cases l₂ with
  | nil =>
    rw [show next y = p from hnext]
    exact hp
  | cons z l₂ =>
    rw [hnext.1]
    exact List.mem_append_right _ (List.mem_cons_of_mem _ List.mem_cons_self)

theorem exists_last (h : Path next x (x :: l) x) : ∃ l₁ z, x :: l = l₁ ++ [z] ∧ next z = x := by
  obtain ⟨l₁, z, hl⟩ : ∃ l₁ z, x :: l = l₁ ++ [z] := ⟨_, _, (List.dropLast_append_getLast (List.cons_ne_nil x l)).symm⟩
  rw [hl] at h
  exact ⟨l₁, z, hl, h.split.2⟩

/-- Once round a cycle: either no element satisfies `P`, or there is a first one behind the start. -/
theorem cycle_cases (P : α → Prop) (h : Path next x (x :: l) x) :
    (∀ y ∈ x :: l, ¬ P y) ∨ ∃ l₁ z l₂, x :: l = l₁ ++ z :: l₂ ∧ P (next z) ∧ ∀ y ∈ l₁, ¬ P (next y) := by
  classical
  cases hfind : (x :: l).find? fun y => P (next y) with
  | none =>
    have hnone : ∀ y ∈ x :: l, ¬ P (next y) := by simpa using hfind
    refine .inl fun y hy => ?_
    rcases List.mem_cons.1 hy with rfl | hy
    · obtain ⟨k, z, hk, hz⟩ := h.exists_last
      rw [← hz]
      exact hnone z (hk ▸ List.mem_append_right _ (List.mem_singleton_self z))
    · obtain ⟨l₁, l₂, rfl⟩ := List.append_of_mem hy
      obtain ⟨w, hw, rfl⟩ := h.exists_pred
      refine hnone w ?_
      rw [← List.cons_append]
      exact List.mem_append_left _ hw
  | some z =>
    obtain ⟨hP, l₁, l₂, hl, hfirst⟩ := List.find?_eq_some_iff_append.1 hfind
    exact .inr ⟨l₁, z, l₂, hl, by simpa using hP, fun y hy => by simpa using hfirst y hy⟩

end Path

end Ostep
