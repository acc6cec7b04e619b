import Mathlib.Logic.Function.Basic
import Mathlib.Tactic.Common

/-!
# Linear probing without deletion

A table holds at most one key at each index, and the search for `k` starts at `hash k` and goes up until it
comes to `k` or to a free index, within `size`. `Probed` says that the search finds every key where it is;
this alone makes the keys distinct and the indices between the hash of a key and the key occupied, and storing
a key where the search for it ends keeps it.
-/

namespace Ostep

variable {κ : Type*} [DecidableEq κ]

/-- The search for `k` from `i` on, over at most `n` indices. -/
def probe (t : Nat → Option κ) (k : κ) : Nat → Nat → Option Nat
  | 0, _ => none
  | n + 1, i => if t i = none ∨ t i = some k then some i else probe t k n (i + 1)

variable {t : Nat → Option κ} {k : κ} {n i j : Nat}

theorem probe_eq_some_iff : probe t k n i = some j ↔
    i ≤ j ∧ j < i + n ∧ (t j = none ∨ t j = some k) ∧ ∀ m, i ≤ m → m < j → t m ≠ none ∧ t m ≠ some k := by
  induction n generalizing i with
  | zero =>
    refine iff_of_false nofun ?_
    rintro ⟨h1, h2, -⟩
    omega
  | succ n ih =>
    rw [probe]
    split
    · next hi =>
      constructor
      · intro h
        cases h
        exact ⟨Nat.le_refl _, by omega, hi, fun m h1 h2 => by omega⟩
      · rintro ⟨h1, -, -, hbefore⟩
        rcases Nat.lt_or_eq_of_le h1 with hlt | rfl
        · obtain ⟨hn, hk⟩ := hbefore i (Nat.le_refl i) hlt
          rcases hi with hi | hi
          · exact absurd hi hn
          · exact absurd hi hk
        · rfl
    · next hi =>
      rw [not_or] at hi
      rw [ih]
      constructor
      · rintro ⟨h1, h2, hj, hbefore⟩
        refine ⟨by omega, by omega, hj, fun m hm1 hm2 => ?_⟩
        rcases Nat.lt_or_eq_of_le hm1 with hlt | rfl
        · exact hbefore m hlt hm2
        · exact hi
      · rintro ⟨h1, h2, hj, hbefore⟩
        have hne : i ≠ j := by
          rintro rfl
          rcases hj with hj | hj
          · exact hi.1 hj
          · exact hi.2 hj
        exact ⟨by omega, by omega, hj, fun m hm1 hm2 => hbefore m (by omega) hm2⟩

section
variable (size : Nat) (hash : κ → Nat)

def search (t : Nat → Option κ) (k : κ) : Option Nat := probe t k (size - hash k) (hash k)

def Probed (t : Nat → Option κ) : Prop := ∀ i k, t i = some k → search size hash t k = some i

end

variable {size : Nat} {hash : κ → Nat}

theorem probed_empty : Probed size hash (fun _ => (none : Option κ)) := nofun

theorem search_end (h : search size hash t k = some i) : t i = none ∨ t i = some k := (probe_eq_some_iff.1 h).2.2.1

theorem Probed.unique (ht : Probed size hash t) (hi : t i = some k) (hj : t j = some k) : i = j :=
  Option.some.inj ((ht i k hi).symm.trans (ht j k hj))

theorem Probed.absent (ht : Probed size hash t) (h : search size hash t k = some i) (hi : t i = none) (j : Nat) :
    t j ≠ some k := by
  intro hj
  cases h.symm.trans (ht j k hj)
  rw [hi] at hj
  cases hj

theorem Probed.store (ht : Probed size hash t) (h : search size hash t k = some i) :
    Probed size hash (Function.update t i (some k)) := by
  intro j k' hj
  have hsearch : search size hash t k' = some j := by
    by_cases hji : j = i
    · subst hji
      rw [Function.update_self] at hj
      cases hj
      exact h
    · rw [Function.update_of_ne hji] at hj
      exact ht j k' hj
  obtain ⟨h1, h2, -, hbefore⟩ := probe_eq_some_iff.1 hsearch
  refine probe_eq_some_iff.2 ⟨h1, h2, .inr hj, fun m hm1 hm2 => ?_⟩
  by_cases hmi : m = i
  · subst hmi
    rw [Function.update_self]
    refine ⟨nofun, fun hk => ?_⟩
    cases hk
    -- the search for `k` ended at `m`, before `j`
    cases h.symm.trans hsearch
    omega
  · rw [Function.update_of_ne hmi]
    exact hbefore m hm1 hm2

end Ostep
