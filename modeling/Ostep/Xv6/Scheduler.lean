import Mathlib.Algebra.BigOperators.Fin
import Mathlib.Algebra.Order.BigOperators.Group.Finset
import Ostep.Xv6.ProcSpec

/-!
# The lottery scheduler (`scheduler` in `src/proc.c`)

One pass over the table with `int` arithmetic: signed overflow and a zero modulus stop it. For a table without negative tickets
and a seed that an earlier pass has left, the pass comes to its end exactly when the tickets of the RUNNABLE processes are together
below `INT_MAX` (`scheduler_ok_iff`).
-/

namespace Ostep

def mulInt (m n : Int) : Except Stop Int :=
  if -INT_MAX - 1 ≤ m * n ∧ m * n ≤ INT_MAX then .ok (m * n) else .error .undefined

def modInt (m n : Int) : Except Stop Int :=
  if n = 0 ∨ (m = -INT_MAX - 1 ∧ n = -1) then .error .undefined else .ok (m.tmod n)

end Ostep

namespace Ostep.Xv6

open ProcState

/-- The first loop: the tickets of the RUNNABLE slots `ps` on top of `count`. -/
def addTickets (k : Kernel) (ps : List Slot) (count : Int) : Except Stop Int :=
  ps.foldlM (fun count p => if (k.proc p).state ≠ RUNNABLE then .ok count else addInt count (k.proc p).tickets) count

/-- The second loop: the first RUNNABLE slot at which the count gets to `r`. -/
def pickFrom (k : Kernel) (r : Int) : List Slot → Int → Except Stop (Option Slot)
  | [], _ => .ok none
  | p :: ps, count =>
    if (k.proc p).state ≠ RUNNABLE then pickFrom k r ps count
    else do
      let count ← addInt count (k.proc p).tickets
      if count ≥ r then return some p else pickFrom k r ps count

def nextSeed (seed : Int) : Except Stop Int := do
  let m ← mulInt 8121 seed
  let m ← addInt m 28411
  modInt m 134456

/-- The value drawn: 0 when there is nothing to choose from. -/
def draw (seed count : Int) : Except Stop Int :=
  if count ≠ 0 then do
    let m ← incInt count
    modInt seed m
  else .ok 0

/-- One pass: the new seed and the slot it starts, if any. -/
def scheduler (k : Kernel) (seed : Int) : Except Stop (Int × Option Slot) := do
  let count ← addTickets k (List.finRange NPROC) 0
  let seed ← nextSeed seed
  let r ← draw seed count
  let p ← pickFrom k r (List.finRange NPROC) 0
  return (seed, p)

/-- The tickets of a slot as the scheduler counts them. -/
def runnableTickets (q : Proc) : Int := if q.state = RUNNABLE then q.tickets else 0

def runnableTotal (k : Kernel) : Int := ∑ p, runnableTickets (k.proc p)

/-- A seed that a pass has left, or the first one. -/
def IsSeed (seed : Int) : Prop := 0 ≤ seed ∧ seed < 134456

variable {k : Kernel} {seed : Int}

theorem runnableTickets_nonneg {q : Proc} (h : q.state = RUNNABLE → 0 ≤ q.tickets) : 0 ≤ runnableTickets q := by
  unfold runnableTickets
  split
  · next hq => exact h hq
  · exact Int.le_refl 0

section
variable (h : ∀ p, (k.proc p).state = RUNNABLE → 0 ≤ (k.proc p).tickets)
include h

theorem sum_runnableTickets_nonneg (ps : List Slot) : 0 ≤ (ps.map fun p => runnableTickets (k.proc p)).sum := by
  refine List.sum_nonneg fun x hx => ?_
  obtain ⟨q, -, rfl⟩ := List.mem_map.1 hx
  exact runnableTickets_nonneg (h q)

theorem addTickets_eq (ps : List Slot) {count : Int} (hcount : 0 ≤ count) (hmax : count ≤ INT_MAX) :
    addTickets k ps count = if count + (ps.map fun p => runnableTickets (k.proc p)).sum ≤ INT_MAX
      then .ok (count + (ps.map fun p => runnableTickets (k.proc p)).sum) else .error .undefined := by
  induction ps generalizing count with
  | nil =>
    rw [List.map_nil, List.sum_nil, Int.add_zero, if_pos hmax]
    rfl
  | cons p ps ih =>
    have hrest := sum_runnableTickets_nonneg h ps
    rw [List.map_cons, List.sum_cons, ← Int.add_assoc]
    unfold addTickets at ih ⊢
    rw [List.foldlM_cons]
    by_cases hp : (k.proc p).state = RUNNABLE
    · have htickets := h p hp
      rw [if_neg (not_not.2 hp), runnableTickets, if_pos hp]
      by_cases hle : count + (k.proc p).tickets ≤ INT_MAX
      · rw [addInt, if_pos ⟨by unfold INT_MAX; omega, hle⟩, ok_bind]
        exact ih (by omega) hle
      · rw [addInt, if_neg fun hc => hle hc.2, error_bind, if_neg (by omega)]
    · rw [if_pos hp, ok_bind, runnableTickets, if_neg hp, Int.add_zero]
      exact ih hcount hmax

theorem pickFrom_ok (r : Int) (ps : List Slot) {count : Int} (hcount : 0 ≤ count)
    (hmax : count + (ps.map fun p => runnableTickets (k.proc p)).sum ≤ INT_MAX) : ∃ o, pickFrom k r ps count = .ok o := by
  induction ps generalizing count with
  | nil => exact ⟨none, rfl⟩
  | cons p ps ih =>
    have hrest := sum_runnableTickets_nonneg h ps
    rw [List.map_cons, List.sum_cons, ← Int.add_assoc] at hmax
    rw [pickFrom]
    by_cases hp : (k.proc p).state = RUNNABLE
    · have htickets := h p hp
      rw [runnableTickets, if_pos hp] at hmax
      rw [if_neg (not_not.2 hp), addInt, if_pos ⟨by unfold INT_MAX; omega, by omega⟩, ok_bind]
      split
      · exact ⟨some p, rfl⟩
      · exact ih (by omega) hmax
    · rw [runnableTickets, if_neg hp, Int.add_zero] at hmax
      rw [if_pos hp]
      exact ih hcount hmax

end

theorem nextSeed_ok (h : IsSeed seed) : ∃ seed', nextSeed seed = .ok seed' ∧ IsSeed seed' := by
  obtain ⟨hlo, hhi⟩ := h
  refine ⟨(8121 * seed + 28411).tmod 134456, ?_, Int.tmod_nonneg _ (by omega), Int.tmod_lt_of_pos _ (by decide)⟩
  unfold nextSeed mulInt addInt modInt INT_MAX
  rw [if_pos (by omega), ok_bind, if_pos (by omega), ok_bind, if_neg (by omega)]

theorem draw_ok (seed : Int) {count : Int} (hcount : 0 ≤ count) (hmax : count < INT_MAX) : ∃ r, draw seed count = .ok r := by
  unfold draw
  split
  · refine ⟨seed.tmod (count + 1), ?_⟩
    rw [incInt, if_pos hmax, ok_bind, modInt, if_neg (by omega)]
  · exact ⟨0, rfl⟩

theorem draw_undefined {count : Int} (hmax : count = INT_MAX) : draw seed count = .error .undefined := by
  rw [draw, if_pos (by rw [hmax]; decide), incInt, if_neg (by omega)]
  rfl

/-- When a pass comes to its end. -/
theorem scheduler_ok_iff (h : ∀ p, (k.proc p).state = RUNNABLE → 0 ≤ (k.proc p).tickets) (hseed : IsSeed seed) :
    (∃ out, scheduler k seed = .ok out) ↔ runnableTotal k < INT_MAX := by
  have hsum : runnableTotal k = ((List.finRange NPROC).map fun p => runnableTickets (k.proc p)).sum := Fin.sum_univ_def _
  have hnonneg : 0 ≤ runnableTotal k := Finset.sum_nonneg fun p _ => runnableTickets_nonneg (h p)
  have hcount := addTickets_eq h (List.finRange NPROC) (Int.le_refl 0) (by decide)
  rw [Int.zero_add, ← hsum] at hcount
  obtain ⟨seed', hseed', -⟩ := nextSeed_ok hseed
  unfold scheduler
  rw [hcount]
  rcases Int.lt_trichotomy (runnableTotal k) INT_MAX with hlt | heq | hgt
  · refine iff_of_true ?_ hlt
    obtain ⟨r, hr⟩ := draw_ok seed' hnonneg hlt
    obtain ⟨o, ho⟩ := pickFrom_ok h r (List.finRange NPROC) (Int.le_refl 0) (by rw [Int.zero_add, ← hsum]; omega)
    exact ⟨(seed', o), by rw [if_pos (by omega), ok_bind, hseed', ok_bind, hr, ok_bind, ho, ok_bind]; rfl⟩
  · refine iff_of_false ?_ (by omega)
    rw [if_pos (by omega), ok_bind, hseed', ok_bind, draw_undefined heq, error_bind]
    rintro ⟨out, hout⟩
    cases hout
  · refine iff_of_false ?_ (by omega)
    rw [if_neg (by omega), error_bind]
    rintro ⟨out, hout⟩
    cases hout

theorem scheduler_seed {out : Int × Option Slot} (hseed : IsSeed seed) (h : scheduler k seed = .ok out) : IsSeed out.1 := by
  obtain ⟨count, -, h⟩ := bind_ok h
  obtain ⟨seed', hseed', h⟩ := bind_ok h
  obtain ⟨r, -, h⟩ := bind_ok h
  obtain ⟨p, -, h⟩ := bind_ok h
  cases h
  obtain ⟨seed'', hs, hIs⟩ := nextSeed_ok hseed
  rw [hs] at hseed'
  cases hseed'
  exact hIs

end Ostep.Xv6
