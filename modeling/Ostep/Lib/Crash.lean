import Mathlib.Logic.Function.Basic
import Mathlib.Tactic.Common

/-!
# Writes to a disk and crashes

A disk is a function from block numbers. `replay ws d` is the disk after the writes `ws`, oldest first. A crash cuts such a list
anywhere; `Boots prog d d'` says that `d'` is reached from `d` by any number of runs of `prog`, each cut by a crash, where `prog`
gives the writes of a run from the disk that it finds.
-/

namespace Ostep

variable {β : Type*}

def replay (ws : List (Nat × β)) (d : Nat → β) : Nat → β := ws.foldl (fun d w => Function.update d w.1 w.2) d

theorem replay_append (ws ws' : List (Nat × β)) (d : Nat → β) : replay (ws ++ ws') d = replay ws' (replay ws d) :=
  List.foldl_append

theorem replay_cons (w : Nat × β) (ws : List (Nat × β)) (d : Nat → β) :
    replay (w :: ws) d = replay ws (Function.update d w.1 w.2) := rfl

theorem replay_of_not_mem {ws : List (Nat × β)} {d : Nat → β} {x : Nat} (h : ∀ w ∈ ws, w.1 ≠ x) : replay ws d x = d x := by
  induction ws generalizing d with
  | nil => rfl
  | cons w ws ih =>
    rw [replay_cons, ih fun v hv => h v (by simp [hv]), Function.update_of_ne (Ne.symm (h w (by simp)))]

/-- Writes whose value only depends on the block may come in any order and any number of times. -/
theorem replay_map (l : List Nat) (v : Nat → β) (d : Nat → β) (x : Nat) :
    replay (l.map fun b => (b, v b)) d x = if x ∈ l then v x else d x := by
  induction l generalizing d with
  | nil => simp [replay]
  | cons b l ih =>
    rw [List.map_cons, replay_cons, ih]
    by_cases hx : x ∈ l
    · rw [if_pos hx, if_pos (by simp [hx])]
    · rw [if_neg hx]
      by_cases hb : x = b
      · subst hb
        rw [if_pos (by simp)]
        exact Function.update_self ..
      · rw [if_neg (by simp [hb, hx])]
        exact Function.update_of_ne hb ..

inductive Boots (prog : (Nat → β) → List (Nat × β)) (d : Nat → β) : (Nat → β) → Prop
  | refl : Boots prog d d
  | crash {d' : Nat → β} (h : Boots prog d d') (j : Nat) : Boots prog d (replay ((prog d').take j) d')

theorem Boots.inv {prog : (Nat → β) → List (Nat × β)} {I : (Nat → β) → Prop} {d d' : Nat → β}
    (hstep : ∀ d, I d → ∀ j, I (replay ((prog d).take j) d)) (h : Boots prog d d') (hd : I d) : I d' := by
  induction h with
  | refl => exact hd
  | crash _ j ih => exact hstep _ ih j

end Ostep
