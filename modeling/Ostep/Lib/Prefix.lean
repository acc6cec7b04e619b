import Mathlib.Tactic.Common

/-!
# Initial segments

What a loop with an early exit goes through: `takeWhile` on the indices below a bound is an initial segment (`exists_takeWhile_range`),
and `takeWhile_eq_filter_iff` tells when a loop without the exit finds nothing more.
-/

namespace Ostep

theorem takeWhile_append_eq {α : Type*} (p : α → Bool) (l₁ l₂ : List α) :
    (l₁ ++ l₂).takeWhile p = if l₁.all p then l₁ ++ l₂.takeWhile p else l₁.takeWhile p := by
  induction l₁ with
  | nil => rfl
  | cons a l₁ ih =>
    rw [List.cons_append, List.takeWhile_cons, List.takeWhile_cons, List.all_cons, ih]
    cases p a with
    | false => rfl
    | true => cases l₁.all p <;> rfl

theorem takeWhile_of_all {α : Type*} {p : α → Bool} {l : List α} (h : l.all p = true) : l.takeWhile p = l := by
  have := takeWhile_append_eq p l []
  rwa [if_pos h, List.append_nil, List.takeWhile_nil, List.append_nil] at this

variable {p : Nat → Bool} {m n : Nat}

theorem takeWhile_range (hm : m ≤ n) (hp : ∀ k < m, p k = true) (hstop : m < n → p m = false) :
    (List.range n).takeWhile p = List.range m := by
  induction n with
  | zero =>
    obtain rfl : m = 0 := by omega
    rfl
  | succ n ih =>
    rcases Nat.lt_or_eq_of_le hm with hlt | rfl
    · have hshort := ih (by omega) fun h => hstop (by omega)
      rw [List.range_succ, takeWhile_append_eq, hshort]
      split
      · next hall =>
        -- the indices below `n` all pass, so that `n` is the first that does not
        obtain rfl : m = n := by
          have := congrArg List.length ((takeWhile_of_all hall).symm.trans hshort)
          rw [List.length_range, List.length_range] at this
          exact this.symm
        rw [List.takeWhile_cons, hstop hlt]
        exact List.append_nil _
      · rfl
    · exact takeWhile_of_all (List.all_eq_true.2 fun k hk => hp k (List.mem_range.1 hk))

theorem exists_takeWhile_range (p : Nat → Bool) (n : Nat) : ∃ m ≤ n, (List.range n).takeWhile p = List.range m ∧
    (∀ k < m, p k = true) ∧ (m < n → p m = false) := by
  induction n with
  | zero => exact ⟨0, Nat.le_refl 0, rfl, nofun, nofun⟩
  | succ n ih =>
    obtain ⟨m, hm, -, hp, hstop⟩ := ih
    have hpass : ∃ m ≤ n + 1, (∀ k < m, p k = true) ∧ (m < n + 1 → p m = false) := by
      rcases Nat.lt_or_eq_of_le hm with hlt | rfl
      · exact ⟨m, by omega, hp, fun _ => hstop hlt⟩
      · cases hpm : p m with
        | false => exact ⟨m, by omega, hp, fun _ => hpm⟩
        | true =>
          refine ⟨m + 1, Nat.le_refl _, fun k hk => ?_, fun h => absurd h (Nat.lt_irrefl _)⟩
          rcases Nat.lt_succ_iff_lt_or_eq.1 hk with hk | rfl
          · exact hp k hk
          · exact hpm
    obtain ⟨m, hm, hp, hstop⟩ := hpass
    exact ⟨m, hm, takeWhile_range hm hp hstop, hp, hstop⟩

/-- The loop that stops at the first index without `p` finds all indices below `n` with `p` exactly when these come first. -/
theorem takeWhile_eq_filter_iff (p : Nat → Bool) (m n : Nat) : (List.range m).takeWhile p = (List.range n).filter p ↔
    ∃ k ≤ m, k ≤ n ∧ (∀ j < k, p j = true) ∧ (∀ j, k ≤ j → j < n → p j = false) ∧ (k < m → p k = false) := by
  obtain ⟨k, hk, heq, hp, hstop⟩ := exists_takeWhile_range p m
  have hfilter : ∀ {k : Nat}, k ≤ n → (∀ j < k, p j = true) → (∀ j, k ≤ j → j < n → p j = false) →
      (List.range n).filter p = List.range k := by
    intro k hkn hp hrest
    obtain ⟨l, rfl⟩ := Nat.exists_eq_add_of_le hkn
    have hlow : (List.range k).filter p = List.range k := List.filter_eq_self.2 fun j hj => hp j (List.mem_range.1 hj)
    have hhigh : ((List.range l).map (k + ·)).filter p = [] := by
      refine List.filter_eq_nil_iff.2 fun j hj => ?_
      obtain ⟨i, hi, rfl⟩ := List.mem_map.1 hj
      have := List.mem_range.1 hi
      rw [hrest (k + i) (by omega) (by omega)]
      exact Bool.false_ne_true
    rw [List.range_add, List.filter_append, hlow, hhigh, List.append_nil]
  rw [heq]
  constructor
  · intro h
    have hmem : ∀ j, j < k ↔ j < n ∧ p j = true := by
      intro j
      rw [← List.mem_range, h, List.mem_filter, List.mem_range]
    refine ⟨k, hk, ?_, hp, fun j hkj hjn => ?_, hstop⟩
    · by_contra hlt
      exact Nat.lt_irrefl n ((hmem n).1 (by omega)).1
    · cases hpj : p j with
      | false => rfl
      | true =>
        have := (hmem j).2 ⟨hjn, hpj⟩
        omega
  · rintro ⟨k', hk', hkn, hp', hrest, hstop'⟩
    rw [hfilter hkn hp' hrest, ← heq, takeWhile_range hk' hp' hstop']

theorem flatMap_range_single {α : Type*} {f : Nat → List α} {i n : Nat} (hi : i < n) (h : ∀ j ≠ i, f j = []) :
    (List.range n).flatMap f = f i := by
  induction n with
  | zero => exact absurd hi (Nat.not_lt_zero i)
  | succ n ih =>
    rw [List.range_succ, List.flatMap_append, List.flatMap_singleton]
    rcases Nat.lt_succ_iff_lt_or_eq.1 hi with hlt | rfl
    · rw [ih hlt, h n (Nat.ne_of_gt hlt), List.append_nil]
    · have hnil : (List.range i).flatMap f = [] := List.flatMap_eq_nil_iff.2 fun j hj => h j (Nat.ne_of_lt (List.mem_range.1 hj))
      rw [hnil, List.nil_append]

theorem flatMap_range_blocks {α : Type*} (g : Nat → Nat → α) (b m : Nat) (hb : 0 < b) :
    ((List.range m).flatMap fun i => (List.range b).map (g i)) = (List.range (b * m)).map fun k => g (k / b) (k % b) := by
  induction m with
  | zero => rfl
  | succ m ih =>
    rw [List.range_succ, List.flatMap_append, ih, List.flatMap_singleton, Nat.mul_succ, List.range_add, List.map_append, List.map_map]
    congr 1
    refine List.map_congr_left fun j hj => ?_
    have hlt := List.mem_range.1 hj
    show g m j = g ((b * m + j) / b) ((b * m + j) % b)
    rw [Nat.mul_add_div hb, Nat.mul_add_mod, Nat.div_eq_of_lt hlt, Nat.mod_eq_of_lt hlt, Nat.add_zero]

end Ostep
