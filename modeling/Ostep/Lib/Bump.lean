import Mathlib.Data.List.Perm.Basic
import Mathlib.Data.List.Nodup
import Mathlib.Logic.Function.Basic

/-!
# Bump allocation

Numbers are handed out one after the other and never come back. `Owns lo hi own` says that those handed out so far, from `lo` to
`hi`, are distributed over the owners: each belongs to one of them, and is in its list once. `Owns.take` is the rule for handing
out the next one.
-/

namespace Ostep

variable {ι : Type*} {lo hi : Nat} {own : ι → List Nat}

structure Owns (lo hi : Nat) (own : ι → List Nat) : Prop where
  le : lo ≤ hi
  nodup : ∀ i, (own i).Nodup
  range : ∀ {i b}, b ∈ own i → lo ≤ b ∧ b < hi
  all : ∀ {b}, lo ≤ b → b < hi → ∃ i, b ∈ own i
  unique : ∀ {i j b}, b ∈ own i → b ∈ own j → i = j

theorem owns_nil (lo : Nat) : Owns lo lo fun _ : ι => [] where
  le := Nat.le_refl lo
  nodup := fun _ => List.nodup_nil
  range := nofun
  all := fun h h' => by omega
  unique := nofun

section
variable [DecidableEq ι]

theorem Owns.update (h : Owns lo hi own) (i : ι) {l : List Nat} (hl : l.Perm (own i)) : Owns lo hi (Function.update own i l) := by
  have hmem : ∀ {j b}, b ∈ Function.update own i l j ↔ b ∈ own j := by
    intro j b
    by_cases hj : j = i
    · rw [hj, Function.update_self, hl.mem_iff]
    · rw [Function.update_of_ne hj]
  refine ⟨h.le, fun j => ?_, fun hb => h.range (hmem.1 hb), fun hlo hhi => ?_, fun hb hb' => h.unique (hmem.1 hb) (hmem.1 hb')⟩
  · by_cases hj : j = i
    · rw [hj, Function.update_self]
      exact hl.nodup_iff.2 (h.nodup i)
    · rw [Function.update_of_ne hj]
      exact h.nodup j
  · obtain ⟨j, hj⟩ := h.all hlo hhi
    exact ⟨j, hmem.2 hj⟩

theorem Owns.take (h : Owns lo hi own) (i : ι) {l : List Nat} (hl : l.Perm (hi :: own i)) : Owns lo (hi + 1) (Function.update own i l) := by
  have hnew : ∀ {j}, hi ∉ own j := fun hj => Nat.lt_irrefl hi (h.range hj).2
  have hmem : ∀ {j b}, b ∈ Function.update own i l j ↔ (b = hi ∧ j = i) ∨ b ∈ own j := by
    intro j b
    by_cases hj : j = i
    · rw [hj, Function.update_self, hl.mem_iff, List.mem_cons]
      simp
    · rw [Function.update_of_ne hj]
      simp [hj]
  have hle := h.le
  refine ⟨by omega, fun j => ?_, fun hb => ?_, fun {b} hlo hhi => ?_, fun hb hb' => ?_⟩
  · by_cases hj : j = i
    · rw [hj, Function.update_self]
      exact hl.nodup_iff.2 (List.nodup_cons.2 ⟨hnew, h.nodup i⟩)
    · rw [Function.update_of_ne hj]
      exact h.nodup j
  · rcases hmem.1 hb with ⟨rfl, -⟩ | hb
    · omega
    · have := h.range hb
      omega
  · rcases Nat.lt_succ_iff_lt_or_eq.1 hhi with hlt | rfl
    · obtain ⟨j, hj⟩ := h.all hlo hlt
      exact ⟨j, hmem.2 (.inr hj)⟩
    · exact ⟨i, hmem.2 (.inl ⟨rfl, rfl⟩)⟩
  · rcases hmem.1 hb with ⟨rfl, rfl⟩ | hb
    · rcases hmem.1 hb' with ⟨-, rfl⟩ | hb'
      · rfl
      · exact absurd hb' hnew
    · rcases hmem.1 hb' with ⟨rfl, -⟩ | hb'
      · exact absurd hb hnew
      · exact h.unique hb hb'

end

theorem Owns.flatMap (h : Owns lo hi own) {is : List ι} (his : is.Nodup) (hall : ∀ {i b}, b ∈ own i → i ∈ is) :
    (is.flatMap own).Nodup ∧ ∀ b, b ∈ is.flatMap own ↔ lo ≤ b ∧ b < hi := by
  refine ⟨List.nodup_flatMap.2 ⟨fun i _ => h.nodup i, ?_⟩, fun b => ⟨fun hb => ?_, fun ⟨hlo, hhi⟩ => ?_⟩⟩
  · exact his.imp fun hne b hb hb' => hne (h.unique hb hb')
  · obtain ⟨i, -, hb⟩ := List.mem_flatMap.1 hb
    exact h.range hb
  · obtain ⟨i, hb⟩ := h.all hlo hhi
    exact List.mem_flatMap.2 ⟨i, hall hb, hb⟩

end Ostep
