import Mathlib.Data.List.Basic
import Mathlib.Data.List.Nodup

/-!
# Items in slots

Each slot of a list holds at most one item, and `l.filterMap f` lists what the slots `l` hold. Putting an item into an empty slot adds
it to the list, up to the order.
-/

namespace Ostep

variable {ι α : Type*} {l : List ι} {f g : ι → Option α}

theorem perm_filterMap_of_put (hl : l.Nodup) {i : ι} {a : α} (hi : i ∈ l) (hf : f i = none) (hg : g i = some a)
    (h : ∀ j ∈ l, j ≠ i → g j = f j) : (l.filterMap g).Perm (a :: l.filterMap f) := by
  obtain ⟨l₁, l₂, rfl⟩ := List.append_of_mem hi
  have hnotin : i ∉ l₁ ++ l₂ := (List.nodup_middle.1 hl).notMem
  have hcongr : ∀ j ∈ l₁ ++ l₂, g j = f j := by
    intro j hj
    refine h j (List.mem_append.2 ?_) fun hji => hnotin (hji ▸ hj)
    exact (List.mem_append.1 hj).imp_right (List.mem_cons_of_mem i)
  rw [List.filterMap_append, List.filterMap_append, List.filterMap_cons_some hg, List.filterMap_cons_none hf,
    List.filterMap_congr fun j hj => hcongr j (List.mem_append_left _ hj),
    List.filterMap_congr fun j hj => hcongr j (List.mem_append_right _ hj)]
  exact List.perm_middle

theorem perm_filterMap_of_fill (h : ∀ i ∈ l, f i ≠ none → g i = f i) :
    (l.filterMap g).Perm ((l.filterMap fun i => if (f i).isNone then g i else none) ++ l.filterMap f) := by
  induction l with
  | nil => exact .refl _
  | cons i l ih =>
    have ih := ih fun j hj => h j (List.mem_cons_of_mem _ hj)
    cases hf : f i with
    | none =>
      cases hg : g i with
      | none =>
        rw [List.filterMap_cons_none hg, List.filterMap_cons_none hf, List.filterMap_cons_none (by rw [hf]; exact hg)]
        exact ih
      | some a =>
        rw [List.filterMap_cons_some hg, List.filterMap_cons_none hf, List.filterMap_cons_some (by rw [hf]; exact hg)]
        exact ih.cons a
    | some a =>
      have hg : g i = some a := (h i List.mem_cons_self (by rw [hf]; nofun)).trans hf
      rw [List.filterMap_cons_some hg, List.filterMap_cons_some hf, List.filterMap_cons_none (by rw [hf]; rfl)]
      exact (ih.cons a).trans List.perm_middle.symm

theorem slot_eq_of_nodup (h : (l.filterMap f).Nodup) {i j : ι} {a : α} (hi : i ∈ l) (hj : j ∈ l) (hfi : f i = some a)
    (hfj : f j = some a) : i = j := by
  by_contra hne
  obtain ⟨l₁, l₂, rfl⟩ := List.append_of_mem hi
  have hj' : j ∈ l₁ ++ l₂ := by
    rcases List.mem_append.1 hj with hj | hj
    · exact List.mem_append_left _ hj
    · exact List.mem_append_right _ ((List.mem_cons.1 hj).resolve_left (Ne.symm hne))
  rw [List.filterMap_append, List.filterMap_cons_some hfi, List.nodup_middle, ← List.filterMap_append, List.nodup_cons] at h
  exact h.1 (List.mem_filterMap.2 ⟨j, hj', hfj⟩)

end Ostep
