import Mathlib.Data.BitVec
import Ostep.Lib.Ring
import Ostep.Xv6.Pipe

/-!
# What goes through a pipe, and who sleeps on it

The bytes in transit are a queue `q`: `p.Holds q`. A section appends what it stores and removes what it copies (`Moves`), so
along every run what has been copied, followed by the queue, is what has been stored.

Sleepers on `&p->nread` find the pipe empty, those on `&p->nwrite` find it full (`NoneLost`), except after a `pipewrite` that
returns early: it has filled the pipe and wakes nobody. `Wakes` is the condition under which a step does not do this to a reader.
-/

namespace Ostep.Xv6.Pipes

namespace Pipe

variable {p : Pipe} {q : List UInt8}

def Holds (p : Pipe) (q : List UInt8) : Prop := Ring PIPESIZE p.data p.nread p.nwrite q

theorem pipesize_dvd : PIPESIZE ∣ 2 ^ 32 := by decide
theorem pipesize_lt : PIPESIZE < 2 ^ 32 := by decide

theorem Holds.empty_iff (h : p.Holds q) : p.nread = p.nwrite ↔ q = [] := Ring.empty_iff h pipesize_lt

theorem Holds.full_iff (h : p.Holds q) : p.Full ↔ q.length = PIPESIZE := Ring.full_iff h pipesize_lt

theorem Holds.length_le (h : p.Holds q) : q.length ≤ PIPESIZE := Ring.le h

theorem Holds.put (h : p.Holds q) (hlt : q.length < PIPESIZE) (b : UInt8) : (p.put b).Holds (q ++ [b]) := Ring.push h pipesize_dvd hlt b

theorem Holds.advance {b : UInt8} (h : p.Holds (b :: q)) :
    p.data (p.nread.toNat % PIPESIZE) = b ∧ ({ p with nread := p.nread + 1 } : Pipe).Holds q := Ring.pop h pipesize_dvd

/-- Only the data and the counters have changed. -/
structure SameEnds (p p' : Pipe) : Prop where
  readopen : p'.readopen = p.readopen
  writeopen : p'.writeopen = p.writeopen

theorem fill_spec (h : p.Holds q) (addr : List UInt8) : ∃ stored left, addr = stored ++ left ∧ (p.fill addr).2 = left ∧
    (p.fill addr).1.Holds (q ++ stored) ∧ SameEnds p (p.fill addr).1 ∧ (left ≠ [] → (q ++ stored).length = PIPESIZE) := by
  induction addr generalizing p q with
  | nil => exact ⟨[], [], rfl, rfl, by rw [List.append_nil]; exact h, ⟨rfl, rfl⟩, fun hne => absurd rfl hne⟩
  | cons b rest ih =>
    rw [fill]
    split
    · next hfull => exact ⟨[], b :: rest, rfl, rfl, by rw [List.append_nil]; exact h, ⟨rfl, rfl⟩, fun _ => by rw [List.append_nil]; exact h.full_iff.1 hfull⟩
    · next hfull =>
      have hlt : q.length < PIPESIZE := Nat.lt_of_le_of_ne h.length_le (mt h.full_iff.2 hfull)
      obtain ⟨stored, left, haddr, hleft, hholds, hends, hrest⟩ := ih (h.put hlt b)
      rw [List.append_assoc] at hholds hrest
      exact ⟨b :: stored, left, by rw [haddr, List.cons_append], hleft, hholds, ⟨hends.readopen, hends.writeopen⟩, hrest⟩

theorem copy_spec (h : p.Holds q) (n : Nat) :
    (p.copy n).2 = q.take n ∧ (p.copy n).1.Holds (q.drop n) ∧ SameEnds p (p.copy n).1 := by
  induction n generalizing p q with
  | zero => exact ⟨rfl, h, rfl, rfl⟩
  | succ n ih =>
    rw [copy]
    split
    · next he =>
      obtain rfl := h.empty_iff.1 he
      exact ⟨rfl, h, rfl, rfl⟩
    · next hne =>
      rcases q with _ | ⟨b, q⟩
      · exact absurd (h.empty_iff.2 rfl) hne
      · obtain ⟨hb, h'⟩ := h.advance
        obtain ⟨hcopy, hholds, hends⟩ := ih h'
        exact ⟨by rw [hb]; exact congrArg (b :: ·) hcopy, hholds, hends.readopen, hends.writeopen⟩

end Pipe

open Pipe

/-! ### Bytes -/

/-- A section takes the queue from `q` to `q'`. -/
def Moves (q : List UInt8) (c : Section) (q' : List UInt8) : Prop := c.pipe.Holds q' ∧ q ++ c.stored = c.copied ++ q'

variable {p : Pipe} {q : List UInt8} {killed : Bool}

theorem pipewrite_spec (h : p.Holds q) (killed : Bool) (n : Nat) (rest : List UInt8) : ∃ stored left, rest = stored ++ left ∧
    Moves q (p.pipewrite killed n rest) (q ++ stored) ∧ (left ≠ [] → (q ++ stored).length = PIPESIZE) ∧
    ((left = [] ∧ (p.pipewrite killed n rest).wakes = some .nread ∧ (p.pipewrite killed n rest).outcome = .ret n) ∨
      (left ≠ [] ∧ (p.readopen = false ∨ killed = true) ∧ (p.pipewrite killed n rest).wakes = none ∧
        (p.pipewrite killed n rest).outcome = .ret (-1)) ∨
      (left ≠ [] ∧ ¬ (p.readopen = false ∨ killed = true) ∧ (p.pipewrite killed n rest).wakes = some .nread ∧
        (p.pipewrite killed n rest).outcome = .sleep .nwrite (.write n left))) := by
  obtain ⟨stored, left, hrest, hleft, hholds, hends, hfull⟩ := fill_spec h rest
  have htake : rest.take (rest.length - left.length) = stored := by
    rw [hrest, List.length_append, Nat.add_sub_cancel, List.take_left]
  refine ⟨stored, left, hrest, ?_, hfull, ?_⟩
  all_goals
    unfold pipewrite
    dsimp only
    rw [hleft, htake, hends.readopen]
  · split
    · exact ⟨hholds, rfl⟩
    · split
      · exact ⟨hholds, rfl⟩
      · exact ⟨hholds, rfl⟩
  · by_cases hnil : left = []
    · rw [if_pos hnil]
      exact .inl ⟨hnil, rfl, rfl⟩
    · rw [if_neg hnil]
      by_cases hearly : p.readopen = false ∨ killed = true
      · rw [if_pos hearly]
        exact .inr (.inl ⟨hnil, hearly, rfl, rfl⟩)
      · rw [if_neg hearly]
        exact .inr (.inr ⟨hnil, hearly, rfl, rfl⟩)

theorem piperead_spec (h : p.Holds q) (killed : Bool) (n : Nat) :
    (q = [] ∧ p.writeopen = true ∧ (p.piperead killed n).pipe = p ∧ Moves [] (p.piperead killed n) [] ∧ (p.piperead killed n).wakes = none ∧
      ((p.piperead killed n).outcome = .ret (-1) ∨ (p.piperead killed n).outcome = .sleep .nread (.read n))) ∨
    (Moves q (p.piperead killed n) (q.drop n) ∧ (p.piperead killed n).wakes = some .nwrite ∧
      ∃ r, (p.piperead killed n).outcome = .ret r) := by
  unfold piperead
  split
  · next hwait =>
    obtain rfl := h.empty_iff.1 hwait.1
    refine .inl ⟨rfl, hwait.2, ?_⟩
    split
    · exact ⟨rfl, ⟨h, rfl⟩, rfl, .inl rfl⟩
    · exact ⟨rfl, ⟨h, rfl⟩, rfl, .inr rfl⟩
  · obtain ⟨hcopy, hholds, -⟩ := copy_spec h n
    refine .inr ⟨⟨hholds, ?_⟩, rfl, _, rfl⟩
    show q ++ [] = (p.copy n).2 ++ q.drop n
    rw [hcopy, List.append_nil, List.take_append_drop]

theorem enter_moves (h : p.Holds q) (killed : Bool) (call : Call) : ∃ q', Moves q (call.enter p killed) q' := by
  rcases call with ⟨n, rest⟩ | n
  · obtain ⟨stored, left, -, hmoves, -⟩ := pipewrite_spec h killed n rest
    exact ⟨_, hmoves⟩
  · rcases piperead_spec h killed n with ⟨rfl, -, -, hmoves, -⟩ | ⟨hmoves, -⟩
    · exact ⟨_, hmoves⟩
    · exact ⟨_, hmoves⟩

section
variable {ι : Type} [DecidableEq ι] {s s' : St ι} {a : Action ι}

theorem step_cases (h : step s a = some s') :
    (∃ w, a = .close w ∧ s' = { s with pipe := (s.pipe.pipeclose w).1, proc := wakeup (s.pipe.pipeclose w).2 s.proc }) ∨
    (∃ i, a = .kill i ∧ s' = { s with proc := Function.update s.proc i { s.proc i with killed := true, asleep := none } }) ∨
    (∃ i call, callOf s a = some (i, call) ∧ (s.proc i).asleep = none ∧ s' = s.take i (call.enter s.pipe (s.proc i).killed)) := by
  have hcall : ∀ {i call}, callOf s a = some (i, call) → (s.proc i).asleep = none := by
    intro i call hc
    rcases a with ⟨j, addr⟩ | ⟨j, n⟩ | j | w | j
    · obtain ⟨hidle, hc⟩ := Option.ite_none_right_eq_some.1 hc
      cases hc
      exact hidle.1
    · obtain ⟨hidle, hc⟩ := Option.ite_none_right_eq_some.1 hc
      cases hc
      exact hidle.1
    · obtain ⟨hawake, hc⟩ := Option.ite_none_right_eq_some.1 hc
      obtain ⟨call', -, hc⟩ := Option.map_eq_some_iff.1 hc
      cases hc
      exact hawake
    · cases hc
    · cases hc
  unfold step at h
  split at h
  · cases h
  · split at h
    · next w =>
      cases h
      exact .inl ⟨w, rfl, rfl⟩
    · next i =>
      cases h
      exact .inr (.inl ⟨i, rfl, rfl⟩)
    · obtain ⟨⟨i, call⟩, hc, rfl⟩ := Option.map_eq_some_iff.1 h
      exact .inr (.inr ⟨i, call, hc, hcall hc, rfl⟩)

theorem pipeclose_holds (h : p.Holds q) (w : Bool) : (p.pipeclose w).1.Holds q := by
  cases w
  · exact h
  · exact h

/-- What has been stored is what has been copied and the bytes in transit. -/
def InTransit (s : St ι) (q : List UInt8) : Prop := s.pipe.Holds q ∧ s.stored = s.copied ++ q

theorem InTransit.step (h : InTransit s q) (hs : step s a = some s') : ∃ q', InTransit s' q' := by
  rcases step_cases hs with ⟨w, -, rfl⟩ | ⟨i, -, rfl⟩ | ⟨i, call, -, -, rfl⟩
  · exact ⟨q, pipeclose_holds h.1 w, h.2⟩
  · exact ⟨q, h⟩
  · obtain ⟨q', hholds, hmoves⟩ := enter_moves h.1 (s.proc i).killed call
    refine ⟨q', hholds, ?_⟩
    show s.stored ++ _ = s.copied ++ _ ++ q'
    rw [h.2, List.append_assoc, List.append_assoc, hmoves]

omit [DecidableEq ι] in
theorem inTransit_init (c : BitVec 32) (data : Nat → UInt8) (killed : ι → Bool) : InTransit (St.init c data killed) [] :=
  ⟨ring_nil PIPESIZE data c, rfl⟩

theorem run_inTransit {c : BitVec 32} {data : Nat → UInt8} {killed : ι → Bool} {l : List (Action ι)} {t : St ι}
    (h : run step (St.init c data killed) l = some t) : ∃ q, InTransit t q :=
  run_inv (I := fun s => ∃ q, InTransit s q) (fun _ _ _ ⟨_, hq⟩ hs => hq.step hs) ⟨[], inTransit_init c data killed⟩ h

/-- The bytes copied are the first of those stored, and the others, as many as the counters say and no more than `PIPESIZE`, are in
the cells from which they will be read. -/
theorem copied_isPrefix_stored {c : BitVec 32} {data : Nat → UInt8} {killed : ι → Bool} {l : List (Action ι)} {t : St ι}
    (h : run step (St.init c data killed) l = some t) :
    t.copied <+: t.stored ∧ (t.pipe.nwrite - t.pipe.nread).toNat ≤ PIPESIZE ∧
      t.copied.length + (t.pipe.nwrite - t.pipe.nread).toNat = t.stored.length ∧
      ∀ k < (t.pipe.nwrite - t.pipe.nread).toNat,
        t.stored[t.copied.length + k]? = some (t.pipe.data ((t.pipe.nread + BitVec.ofNat 32 k).toNat % PIPESIZE)) := by
  obtain ⟨q, hholds, hq⟩ := run_inTransit h
  have hlen : (t.pipe.nwrite - t.pipe.nread).toNat = q.length := Ring.toNat_sub hholds pipesize_lt
  rw [hlen, hq]
  refine ⟨List.prefix_append _ _, hholds.length_le, (List.length_append ..).symm, fun k hk => ?_⟩
  rw [List.getElem?_append_right (Nat.le_add_right _ _), Nat.add_sub_cancel_left, mod_toNat_add pipesize_dvd,
    hholds.cell k _ (List.getElem?_eq_getElem hk)]
  exact List.getElem?_eq_getElem hk

/-- The counters wrap while three bytes go in and two come out. -/
theorem copied_isPrefix_stored_wrap : ∃ t, run step (St.init (2 ^ 32 - 1) (fun _ => 0) fun _ : Fin 2 => false)
      [.write 0 [1, 2, 3], .read 1 2] = some t ∧ t.pipe.nread = 1 ∧ t.copied <+: t.stored := by
  obtain ⟨t, ht, hread⟩ : ∃ t, run step (St.init (2 ^ 32 - 1) (fun _ => 0) fun _ : Fin 2 => false)
      [.write 0 [1, 2, 3], .read 1 2] = some t ∧ t.pipe.nread = 1 := ⟨_, rfl, by decide⟩
  exact ⟨t, ht, hread, (copied_isPrefix_stored ht).1⟩

/-! ### Sleepers -/

/-- Who sleeps has a reason to: the pipe is empty for those on `&p->nread` and full for those on `&p->nwrite`. -/
structure NoneLost (s : St ι) : Prop where
  nread : ∀ i, (s.proc i).asleep = some .nread → s.pipe.nread = s.pipe.nwrite
  nwrite : ∀ i, (s.proc i).asleep = some .nwrite → s.pipe.Full

/-- When a step begins, or goes on with, a `pipewrite` of more bytes than the pipe can take which will not be allowed to wait, no
reader is asleep. -/
def Wakes (s : St ι) (a : Action ι) : Prop :=
  match callOf s a with
  | some (i, .write _ rest) =>
    PIPESIZE < rest.length → (s.pipe.readopen = false ∨ (s.proc i).killed = true) → ∀ j, (s.proc j).asleep ≠ some .nread
  | _ => True

omit [DecidableEq ι] in
theorem asleep_wakeup {proc : ι → Proc} {chan c : Chan} {j : ι} :
    (wakeup chan proc j).asleep = some c ↔ (proc j).asleep = some c ∧ c ≠ chan := by
  unfold wakeup
  by_cases hj : (proc j).asleep = some chan
  · rw [if_pos hj, hj]
    simp only [reduceCtorEq, Option.some.injEq, false_iff, not_and, not_not]
    exact Eq.symm
  · rw [if_neg hj]
    refine ⟨fun h => ⟨h, ?_⟩, And.left⟩
    rintro rfl
    exact hj h

theorem asleep_take {c : Section} {i j : ι} {ch : Chan} (hi : (s.proc i).asleep = none) :
    ((s.take i c).proc j).asleep = some ch ↔
      (j = i ∧ ∃ call, c.outcome = .sleep ch call) ∨ ((s.proc j).asleep = some ch ∧ c.wakes ≠ some ch) := by
  by_cases hj : j = i
  · subst hj
    show Proc.asleep (Function.update (c.wakes.elim s.proc fun w => wakeup w s.proc) j _ j) = some ch ↔ _
    rw [Function.update_self]
    rcases c.outcome with r | ⟨ch', call⟩
    · simp [Outcome.leave, hi]
    · simp [Outcome.leave, hi]
  · show Proc.asleep (Function.update (c.wakes.elim s.proc fun w => wakeup w s.proc) i _ j) = some ch ↔ _
    rw [Function.update_of_ne hj]
    rcases c.wakes with _ | w
    · simp [hj]
    · rw [Option.elim_some, asleep_wakeup]
      simp [hj, ne_comm (a := ch)]

theorem noneLost_take_write {i : ι} {n : Nat} {rest : List UInt8} (h : NoneLost s) (hq : s.pipe.Holds q) (hi : (s.proc i).asleep = none) :
    NoneLost (s.take i (s.pipe.pipewrite (s.proc i).killed n rest)) ↔
      (PIPESIZE < rest.length → (s.pipe.readopen = false ∨ (s.proc i).killed = true) → ∀ j, (s.proc j).asleep ≠ some .nread) := by
  obtain ⟨stored, left, hrest, ⟨hholds, -⟩, hfull, hend⟩ := pipewrite_spec hq (s.proc i).killed n rest
  have hlen : rest.length = stored.length + left.length := by rw [hrest, List.length_append]
  have hsize := hholds.length_le
  rw [List.length_append] at hsize hfull
  -- who sleeps on `&p->nwrite` has found the pipe full, so nothing has been stored
  have hnwrite : ∀ j, (s.proc j).asleep = some .nwrite → (s.pipe.pipewrite (s.proc i).killed n rest).pipe.Full := by
    intro j hj
    have hq512 := hq.full_iff.1 (h.nwrite j hj)
    rw [hholds.full_iff, List.length_append]
    omega
  -- who sleeps on `&p->nread` has found it empty
  have hempty : ∀ j, (s.proc j).asleep = some .nread → q = [] := fun j hj => hq.empty_iff.1 (h.nread j hj)
  rcases hend with ⟨hleft, hwakes, hout⟩ | ⟨hleft, hearly, hwakes, hout⟩ | ⟨hleft, hwait, hwakes, hout⟩
  · -- all bytes are stored and the readers woken
    rw [hleft, List.length_nil, Nat.add_zero] at hlen
    refine iff_of_true ⟨fun j hj => ?_, fun j hj => ?_⟩ fun hlong => by omega
    · rcases (asleep_take hi).1 hj with ⟨-, call, hcall⟩ | ⟨-, hw⟩
      · rw [hout] at hcall
        cases hcall
      · exact absurd hwakes hw
    · rcases (asleep_take hi).1 hj with ⟨-, call, hcall⟩ | ⟨hj, -⟩
      · rw [hout] at hcall
        cases hcall
      · exact hnwrite j hj
  · -- an early return, after which the pipe is full
    have hq' := hfull hleft
    have hpos := List.length_pos_iff.2 hleft
    constructor
    · intro h' hlong _ j hj
      have hnil := (hholds.empty_iff.1 (h'.nread j ((asleep_take hi).2 (.inr ⟨hj, by rw [hwakes]; nofun⟩))))
      rw [← List.length_eq_zero_iff, List.length_append] at hnil
      unfold PIPESIZE at hq'
      omega
    · intro hnone
      refine ⟨fun j hj => ?_, fun j _ => hholds.full_iff.2 (by rw [List.length_append]; exact hq')⟩
      rcases (asleep_take hi).1 hj with ⟨-, call, hcall⟩ | ⟨hj, -⟩
      · rw [hout] at hcall
        cases hcall
      · have hq0 := hempty j hj
        rw [hq0, List.length_nil, Nat.zero_add] at hq'
        exact absurd hj (hnone (by omega) hearly j)
  · -- the pipe is full, the readers are woken and the writer sleeps
    have hq' := hfull hleft
    refine iff_of_true ⟨fun j hj => ?_, fun j _ => hholds.full_iff.2 (by rw [List.length_append]; exact hq')⟩ fun _ hearly => absurd hearly hwait
    rcases (asleep_take hi).1 hj with ⟨-, call, hcall⟩ | ⟨-, hw⟩
    · rw [hout] at hcall
      cases hcall
    · exact absurd hwakes hw

theorem noneLost_take_read {i : ι} {n : Nat} (h : NoneLost s) (hq : s.pipe.Holds q) (hi : (s.proc i).asleep = none) :
    NoneLost (s.take i (s.pipe.piperead (s.proc i).killed n)) := by
  rcases piperead_spec hq (s.proc i).killed n with ⟨rfl, -, hpipe, -, -, hout⟩ | ⟨⟨hholds, -⟩, hwakes, r, hout⟩
  · -- nothing to read
    refine ⟨fun j _ => ?_, fun j hj => ?_⟩
    · show (s.pipe.piperead _ n).pipe.nread = (s.pipe.piperead _ n).pipe.nwrite
      rw [hpipe]
      exact hq.empty_iff.2 rfl
    · show (s.pipe.piperead _ n).pipe.Full
      rw [hpipe]
      rcases (asleep_take hi).1 hj with ⟨-, call, hcall⟩ | ⟨hj, -⟩
      · rcases hout with hout | hout
        · rw [hout] at hcall
          cases hcall
        · rw [hout] at hcall
          cases hcall
      · exact h.nwrite j hj
  · -- the writers are woken; a reader can only be asleep if there was nothing to copy
    refine ⟨fun j hj => ?_, fun j hj => ?_⟩
    · rcases (asleep_take hi).1 hj with ⟨-, call, hcall⟩ | ⟨hj, -⟩
      · rw [hout] at hcall
        cases hcall
      · obtain rfl := hq.empty_iff.1 (h.nread j hj)
        exact hholds.empty_iff.2 List.drop_nil
    · rcases (asleep_take hi).1 hj with ⟨-, call, hcall⟩ | ⟨-, hw⟩
      · rw [hout] at hcall
        cases hcall
      · exact absurd hwakes hw

/-- A step loses no wakeup exactly when it meets the condition. -/
theorem noneLost_step_iff (h : NoneLost s) (hq : s.pipe.Holds q) (hs : step s a = some s') : NoneLost s' ↔ Wakes s a := by
  rcases step_cases hs with ⟨w, rfl, rfl⟩ | ⟨i, rfl, rfl⟩ | ⟨i, call, hcall, hi, rfl⟩
  · refine iff_of_true ⟨fun j hj => ?_, fun j hj => ?_⟩ trivial
    · have := h.nread j (asleep_wakeup.1 hj).1
      cases w
      · exact this
      · exact this
    · have := h.nwrite j (asleep_wakeup.1 hj).1
      cases w
      · exact this
      · exact this
  · have hother : ∀ j c, (Function.update s.proc i { s.proc i with killed := true, asleep := none } j).asleep = some c →
        (s.proc j).asleep = some c := by
      intro j c hj
      by_cases hji : j = i
      · subst hji
        rw [Function.update_self] at hj
        cases hj
      · rwa [Function.update_of_ne hji] at hj
    exact iff_of_true ⟨fun j hj => h.nread j (hother j _ hj), fun j hj => h.nwrite j (hother j _ hj)⟩ trivial
  · unfold Wakes
    rw [hcall]
    rcases call with ⟨n, rest⟩ | n
    · exact noneLost_take_write h hq hi
    · exact iff_of_true (noneLost_take_read h hq hi) trivial

omit [DecidableEq ι] in
theorem noneLost_init (c : BitVec 32) (data : Nat → UInt8) (killed : ι → Bool) : NoneLost (St.init c data killed) := ⟨nofun, nofun⟩

/-- Along every run no wakeup is lost in any state exactly when each step `Wakes`. -/
theorem noneLost_along {c : BitVec 32} {data : Nat → UInt8} {killed : ι → Bool} {l : List (Action ι)} {t : St ι}
    (hrun : run step (St.init c data killed) l = some t) :
    (Along step Wakes (St.init c data killed) l ↔
        Along step (fun s a => ∀ s', step s a = some s' → NoneLost s') (St.init c data killed) l) ∧
      (Along step Wakes (St.init c data killed) l → NoneLost t) := by
  have hstep : ∀ (s : St ι) a s', (∃ q, InTransit s q) ∧ NoneLost s → Wakes s a → step s a = some s' → (∃ q, InTransit s' q) ∧ NoneLost s' := by
    rintro s a s' ⟨⟨q, hq⟩, hn⟩ hw hs
    exact ⟨hq.step hs, (noneLost_step_iff hn hq.1 hs).2 hw⟩
  have hinit : (∃ q, InTransit (St.init c data killed : St ι) q) ∧ NoneLost (St.init c data killed : St ι) :=
    ⟨⟨[], inTransit_init c data killed⟩, noneLost_init c data killed⟩
  refine ⟨along_congr hstep ?_ hinit hrun, fun hl => (Along.inv hstep hinit hl hrun).2⟩
  rintro s a s' ⟨⟨q, hq⟩, hn⟩ hs
  rw [← noneLost_step_iff hn hq.1 hs, hs]
  simp

/-- A reader is woken by the byte that it waits for. -/
theorem noneLost_along_oneByte : ∃ t, run step (St.init 0 (fun _ => 0) fun _ : Fin 2 => false)
      [.read 0 1, .write 1 [97], .resume 0] = some t ∧ t.copied = [97] ∧ NoneLost t := by
  obtain ⟨t, ht, hcopied⟩ : ∃ t, run step (St.init 0 (fun _ => 0) fun _ : Fin 2 => false)
      [.read 0 1, .write 1 [97], .resume 0] = some t ∧ t.copied = [97] := ⟨_, rfl, by decide⟩
  refine ⟨t, ht, hcopied, (noneLost_along ht).2 ⟨trivial, fun s₁ h₁ => ⟨?_, fun s₂ h₂ => ⟨?_, fun _ _ => trivial⟩⟩⟩⟩
  · cases h₁
    exact fun hlong => absurd hlong (by decide)
  · cases h₁
    cases h₂
    trivial

/-- A reader sleeps; a writer that has been killed stores 512 of its 513 bytes and returns, and the reader sleeps on. -/
theorem not_noneLost_killed_writer : ∃ t, run step (St.init 0 (fun _ => 0) fun _ : Fin 2 => false)
      [.read 0 1, .kill 1, .write 1 (List.replicate 513 97)] = some t ∧ ¬ NoneLost t := by
  have hrun : (run step (St.init 0 (fun _ => 0) fun _ : Fin 2 => false) [.read 0 1, .kill 1, .write 1 (List.replicate 513 97)]).map
      (fun t => ((t.proc 0).asleep, t.pipe.nread, t.pipe.nwrite)) = some (some .nread, 0, 512) := by decide +kernel
  obtain ⟨t, ht, hval⟩ := Option.map_eq_some_iff.1 hrun
  obtain ⟨hasleep, hpipe⟩ := Prod.mk.inj hval
  obtain ⟨hread, hwrite⟩ := Prod.mk.inj hpipe
  refine ⟨t, ht, fun h => ?_⟩
  have := h.nread 0 hasleep
  rw [hread, hwrite] at this
  exact absurd this (by decide)

end

end Ostep.Xv6.Pipes
