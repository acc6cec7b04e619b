import Mathlib.Data.List.Perm.Basic
import Mathlib.Algebra.BigOperators.Group.List.Basic
import Ostep.Lib.Run
import Ostep.Fs.Log

/-!
# Space in the log

File-system operations run at the same time. Each calls `begin_op`, then `log_write` for at most `MAXOPBLOCKS` different blocks, and
`end_op`; the last one commits. `begin_op` keeps `LOGSIZE` blocks free for the running operations, but the log of a disk made by
`mkfs` has `LOGSIZE` blocks with its header, and `log_write` wants to fill only `log.size - 1` of them.
-/

namespace Ostep.Fs.Log

/-- A running operation: the blocks that it has written, and the one for which it is in `log_write`, past the tests. -/
structure Op where
  written : List Nat
  pending : Option Nat
deriving DecidableEq, Repr

inductive Committer where
  | none
  | writing
  | cleared
deriving DecidableEq, Repr

structure St where
  log : LogState
  ops : List Op
  committer : Committer
  halted : Option Panic
deriving DecidableEq, Repr

inductive Action where
  | beginOp
  | logWrite (i b : Nat)
  | logAppend (i : Nat)
  | endOp (i : Nat)
  | clear
  | release
deriving DecidableEq, Repr

/-- After recovery, on a disk with `nlog` log blocks. -/
def St.init (nlog : Nat) : St := ⟨⟨nlog, 0, false, []⟩, [], .none, none⟩

def step (s : St) (a : Action) : Option St :=
  if s.halted.isSome then none
  else match a with
    | .beginOp => (beginOp s.log).map fun log => { s with log, ops := s.ops ++ [⟨[], none⟩] }
    | .logWrite i b =>
      match s.ops[i]? with
      | some op =>
        if op.pending = none ∧ op.written.length < MAXOPBLOCKS ∧ b ∉ op.written then
          match logWriteTest s.log with
          | .error p => some { s with halted := some p }
          | .ok _ => some { s with ops := s.ops.set i { op with pending := some b } }
        else none
      | none => none
    | .logAppend i =>
      match s.ops[i]? with
      | some ⟨written, some b⟩ => some { s with log := logAppend b s.log, ops := s.ops.set i ⟨written ++ [b], none⟩ }
      | _ => none
    | .endOp i =>
      match s.ops[i]? with
      | some ⟨_, none⟩ =>
        match endOp s.log with
        | .error p => some { s with halted := some p }
        | .ok (doCommit, log) =>
          some { s with log, ops := s.ops.eraseIdx i, committer := if doCommit then .writing else s.committer }
      | _ => none
    -- `commit` sets `log.lh.n` to 0, then `end_op` resets `log.committing`
    | .clear => if s.committer = .writing then some { s with log := { s.log with lh := [] }, committer := .cleared } else none
    | .release =>
      if s.committer = .cleared then some { s with log := { s.log with committing := false }, committer := .none } else none

variable {s s' : St} {a : Action}

/-! ### Reserved space -/

/-- How many more blocks the operation may write. -/
def Op.budget (op : Op) : Nat := MAXOPBLOCKS - op.written.length

/-- The blocks in the log and those that the running operations may still add. -/
def St.reserved (s : St) : Nat := s.log.lh.length + (s.ops.map Op.budget).sum

/-- The log fields agree with the operations, and the running ones fit in `cap` blocks. -/
structure Inv (cap : Nat) (s : St) : Prop where
  outstanding : s.log.outstanding = s.ops.length
  committing : s.log.committing = true ↔ s.committer ≠ .none
  alone : s.committer ≠ .none → s.ops = []
  pending : ∀ op ∈ s.ops, op.pending.isSome → op.written.length < MAXOPBLOCKS
  reserved : s.reserved ≤ cap

theorem inv_init (cap nlog : Nat) : Inv cap (St.init nlog) where
  outstanding := rfl
  committing := by simp [St.init]
  alone := fun _ => rfl
  pending := nofun
  reserved := Nat.zero_le _

theorem budget_le (op : Op) : op.budget ≤ MAXOPBLOCKS := Nat.sub_le _ _

theorem sum_budget_le (ops : List Op) : (ops.map Op.budget).sum ≤ ops.length * MAXOPBLOCKS := by
  induction ops with
  | nil => simp
  | cons op ops ih =>
    rw [List.map_cons, List.sum_cons, List.length_cons, Nat.succ_mul]
    have := budget_le op
    omega

section
variable {ops : List Op} {i : Nat} {op : Op} (h : ops[i]? = some op)
include h

theorem sum_budget_eraseIdx : (ops.map Op.budget).sum = op.budget + ((ops.eraseIdx i).map Op.budget).sum := by
  obtain ⟨hi, rfl⟩ := List.getElem?_eq_some_iff.1 h
  have := ((List.getElem_cons_eraseIdx_perm hi).map Op.budget).sum_eq
  rw [List.map_cons, List.sum_cons] at this
  exact this.symm

theorem sum_budget_set (op' : Op) : ((ops.set i op').map Op.budget).sum = op'.budget + ((ops.eraseIdx i).map Op.budget).sum := by
  obtain ⟨hi, -⟩ := List.getElem?_eq_some_iff.1 h
  have := ((List.set_perm_cons_eraseIdx hi op').map Op.budget).sum_eq
  rw [List.map_cons, List.sum_cons] at this
  exact this

end

/-! ### Steps -/

theorem step_cases (h : step s a = some s') : s.halted = none ∧
    ((∃ log, a = .beginOp ∧ beginOp s.log = some log ∧ s' = { s with log, ops := s.ops ++ [⟨[], none⟩] }) ∨
    (∃ i b op, a = .logWrite i b ∧ s.ops[i]? = some op ∧ op.pending = none ∧ op.written.length < MAXOPBLOCKS ∧
      ((∃ p, logWriteTest s.log = .error p ∧ s' = { s with halted := some p }) ∨
        (logWriteTest s.log = .ok () ∧ s' = { s with ops := s.ops.set i { op with pending := some b } }))) ∨
    (∃ i b written, a = .logAppend i ∧ s.ops[i]? = some ⟨written, some b⟩ ∧
      s' = { s with log := logAppend b s.log, ops := s.ops.set i ⟨written ++ [b], none⟩ }) ∨
    (∃ i written, a = .endOp i ∧ s.ops[i]? = some ⟨written, none⟩ ∧
      ((∃ p, endOp s.log = .error p ∧ s' = { s with halted := some p }) ∨
        (∃ doCommit log, endOp s.log = .ok (doCommit, log) ∧
          s' = { s with log, ops := s.ops.eraseIdx i, committer := if doCommit then .writing else s.committer }))) ∨
    (a = .clear ∧ s.committer = .writing ∧ s' = { s with log := { s.log with lh := [] }, committer := .cleared }) ∨
    (a = .release ∧ s.committer = .cleared ∧
      s' = { s with log := { s.log with committing := false }, committer := .none })) := by
  unfold step at h
  split at h
  · cases h
  next hnot =>
    refine ⟨by simpa using hnot, ?_⟩
    rcases a with _ | ⟨i, b⟩ | i | i | _ | _
    all_goals dsimp only at h
    · obtain ⟨log, hlog, rfl⟩ := Option.map_eq_some_iff.1 h
      exact .inl ⟨log, rfl, hlog, rfl⟩
    · refine .inr (.inl ?_)
      split at h
      · next op hop =>
        split at h
        · next hg =>
          refine ⟨i, b, op, rfl, hop, hg.1, hg.2.1, ?_⟩
          split at h
          · next p hp => exact .inl ⟨p, hp, (Option.some.inj h).symm⟩
          · next hp => exact .inr ⟨hp, (Option.some.inj h).symm⟩
        · cases h
      · cases h
    · refine .inr (.inr (.inl ?_))
      split at h
      · next written b hop => exact ⟨i, b, written, rfl, hop, (Option.some.inj h).symm⟩
      · cases h
    · refine .inr (.inr (.inr (.inl ?_)))
      split at h
      · next written hop =>
        refine ⟨i, written, rfl, hop, ?_⟩
        split at h
        · next p hp => exact .inl ⟨p, hp, (Option.some.inj h).symm⟩
        · next doCommit log hp => exact .inr ⟨doCommit, log, hp, (Option.some.inj h).symm⟩
      · cases h
    · refine .inr (.inr (.inr (.inr (.inl ?_))))
      split at h
      · next hw => exact ⟨rfl, hw, (Option.some.inj h).symm⟩
      · cases h
    · refine .inr (.inr (.inr (.inr (.inr ?_))))
      split at h
      · next hc => exact ⟨rfl, hc, (Option.some.inj h).symm⟩
      · cases h

theorem beginOp_some {log log' : LogState} (h : beginOp log = some log') : log.committing = false ∧
    log.lh.length + (log.outstanding + 1) * MAXOPBLOCKS ≤ LOGSIZE ∧ log' = { log with outstanding := log.outstanding + 1 } := by
  unfold beginOp at h
  split at h
  · cases h
  · next hc =>
    split at h
    · cases h
    · next hle => exact ⟨by simpa using hc, by omega, (Option.some.inj h).symm⟩

theorem length_logAppend (b : Nat) (log : LogState) : (logAppend b log).lh.length ≤ log.lh.length + 1 := by
  unfold logAppend
  split
  · exact Nat.le_succ _
  · simp

@[simp] theorem logAppend_outstanding (b : Nat) (log : LogState) : (logAppend b log).outstanding = log.outstanding := by
  unfold logAppend
  split <;> rfl

@[simp] theorem logAppend_committing (b : Nat) (log : LogState) : (logAppend b log).committing = log.committing := by
  unfold logAppend
  split <;> rfl

@[simp] theorem logAppend_size (b : Nat) (log : LogState) : (logAppend b log).size = log.size := by
  unfold logAppend
  split <;> rfl

theorem step_size (h : step s a = some s') : s'.log.size = s.log.size := by
  obtain ⟨-, ⟨log, -, hlog, rfl⟩ | ⟨i, b, op, -, -, -, -, ⟨p, -, rfl⟩ | ⟨-, rfl⟩⟩ | ⟨i, b, written, -, -, rfl⟩ |
    ⟨i, written, -, -, ⟨p, -, rfl⟩ | ⟨doCommit, log, hlog, rfl⟩⟩ | ⟨-, -, rfl⟩ | ⟨-, -, rfl⟩⟩ := step_cases h
  · obtain ⟨-, -, rfl⟩ := beginOp_some hlog
    rfl
  · rfl
  · rfl
  · exact logAppend_size b s.log
  · rfl
  · unfold endOp at hlog
    dsimp only at hlog
    split at hlog
    · cases hlog
    · split at hlog <;> (cases hlog; rfl)
  · rfl
  · rfl

theorem endOp_eq {log : LogState} (h : log.committing = false) : endOp log =
    .ok (decide (log.outstanding - 1 = 0), { log with outstanding := log.outstanding - 1, committing := decide (log.outstanding - 1 = 0) }) := by
  have hfalse : ¬ log.committing = true := by simp [h]
  unfold endOp
  dsimp only
  rw [if_neg hfalse]
  by_cases h0 : log.outstanding - 1 = 0
  · rw [if_pos h0]
    simp [h0]
  · rw [if_neg h0]
    simp [h0, h]

theorem Inv.not_committing {cap : Nat} (hI : Inv cap s) {op : Op} (hop : op ∈ s.ops) : s.committer = .none ∧ s.log.committing = false := by
  have hcom : s.committer = .none := by
    by_contra hne
    rw [hI.alone hne] at hop
    cases hop
  exact ⟨hcom, by simpa [hcom] using hI.committing⟩

theorem Inv.room {cap : Nat} (hI : Inv cap s) {i : Nat} {op : Op} (hop : s.ops[i]? = some op) (hlt : op.written.length < MAXOPBLOCKS) :
    s.log.lh.length < cap := by
  have hres : s.log.lh.length + (s.ops.map Op.budget).sum ≤ cap := hI.reserved
  have hsum := sum_budget_eraseIdx hop
  have hbudget : op.budget = MAXOPBLOCKS - op.written.length := rfl
  omega

theorem Inv.step {cap : Nat} (hI : Inv cap s)
    (hbegin : a = .beginOp → s.log.lh.length + (s.log.outstanding + 1) * MAXOPBLOCKS ≤ cap) (h : step s a = some s') : Inv cap s' := by
  have hres : s.log.lh.length + (s.ops.map Op.budget).sum ≤ cap := hI.reserved
  obtain ⟨-, ⟨log, rfl, hlog, rfl⟩ | ⟨i, b, op, -, hop, -, hlt, ⟨p, -, rfl⟩ | ⟨-, rfl⟩⟩ | ⟨i, b, written, -, hop, rfl⟩ |
    ⟨i, written, -, hop, hend⟩ | ⟨-, hw, rfl⟩ | ⟨-, -, rfl⟩⟩ := step_cases h
  · -- a new operation
    obtain ⟨hnc, -, rfl⟩ := beginOp_some hlog
    have hcom : s.committer = .none := by
      by_contra hne
      rw [hI.committing.2 hne] at hnc
      cases hnc
    refine ⟨by simp [hI.outstanding], hI.committing, fun hne => absurd hcom hne, fun op hop hs => ?_, ?_⟩
    · rcases List.mem_append.1 hop with hop | hop
      · exact hI.pending op hop hs
      · rw [List.mem_singleton.1 hop] at hs
        cases hs
    · have hb := hbegin rfl
      have hsum := sum_budget_le s.ops
      rw [hI.outstanding, Nat.succ_mul] at hb
      show _ + ((s.ops ++ [(⟨[], none⟩ : Op)]).map Op.budget).sum ≤ cap
      rw [List.map_append, List.sum_append]
      show s.log.lh.length + ((s.ops.map Op.budget).sum + MAXOPBLOCKS) ≤ cap
      omega
  · exact ⟨hI.outstanding, hI.committing, hI.alone, hI.pending, hres⟩
  · -- past the tests of `log_write`
    have hsum := sum_budget_eraseIdx hop
    have hcom := (hI.not_committing (List.mem_of_getElem? hop)).1
    refine ⟨by simp [hI.outstanding], hI.committing, fun hne => absurd hcom hne, fun op' hop' hs => ?_, ?_⟩
    · rcases List.mem_or_eq_of_mem_set hop' with hop' | rfl
      · exact hI.pending op' hop' hs
      · exact hlt
    · show s.log.lh.length + ((s.ops.set i { op with pending := some b }).map Op.budget).sum ≤ cap
      rw [sum_budget_set hop]
      show _ + (op.budget + _) ≤ cap
      omega
  · -- the block is in the log now
    have hmem := List.mem_of_getElem? hop
    have hlt : written.length < MAXOPBLOCKS := hI.pending _ hmem rfl
    have hsum := sum_budget_eraseIdx hop
    have hlen := length_logAppend b s.log
    have hcom := (hI.not_committing hmem).1
    refine ⟨by simp [hI.outstanding], by simpa using hI.committing, fun hne => absurd hcom hne, fun op' hop' hs => ?_, ?_⟩
    · rcases List.mem_or_eq_of_mem_set hop' with hop' | rfl
      · exact hI.pending op' hop' hs
      · cases hs
    · show (logAppend b s.log).lh.length + ((s.ops.set i ⟨written ++ [b], none⟩).map Op.budget).sum ≤ cap
      have hbefore : Op.budget ⟨written, some b⟩ = MAXOPBLOCKS - written.length := rfl
      have hafter : Op.budget ⟨written ++ [b], none⟩ = MAXOPBLOCKS - (written.length + 1) := by
        rw [Op.budget, List.length_append, List.length_singleton]
      rw [sum_budget_set hop]
      omega
  · -- the last operation commits, alone
    obtain ⟨hcom, hnc⟩ := hI.not_committing (List.mem_of_getElem? hop)
    have hsum := sum_budget_eraseIdx hop
    have hlen : (s.ops.eraseIdx i).length = s.log.outstanding - 1 := by
      rw [hI.outstanding]
      exact List.length_eraseIdx_of_lt (List.getElem?_eq_some_iff.1 hop).1
    rw [endOp_eq hnc] at hend
    rcases hend with ⟨p, hp, -⟩ | ⟨doCommit, log, hlog, rfl⟩
    · cases hp
    · cases hlog
      refine ⟨hlen.symm, ?_, ?_, fun op hop => hI.pending op (List.mem_of_mem_eraseIdx hop), ?_⟩
      · show decide (s.log.outstanding - 1 = 0) = true ↔ _
        by_cases h0 : s.log.outstanding - 1 = 0 <;> simp [h0, hcom]
      · intro hne
        by_cases h0 : s.log.outstanding - 1 = 0
        · exact List.length_eq_zero_iff.1 (hlen.trans h0)
        · simp [h0, hcom] at hne
      · show s.log.lh.length + ((s.ops.eraseIdx i).map Op.budget).sum ≤ cap
        omega
  · refine ⟨hI.outstanding, ⟨nofun, fun _ => hI.committing.2 (by rw [hw]; nofun)⟩, fun _ => hI.alone (by rw [hw]; nofun), hI.pending, ?_⟩
    exact Nat.le_trans (Nat.add_le_add_right (Nat.zero_le _) _) hres
  · exact ⟨hI.outstanding, by simp, nofun, hI.pending, hres⟩

/-- Whatever the size of the log, `begin_op` keeps the header within its `LOGSIZE` blocks. -/
theorem length_lh_le {nlog : Nat} {l : List Action} {t : St} (h : run step (St.init nlog) l = some t) : t.log.lh.length ≤ LOGSIZE := by
  have hI : Inv LOGSIZE t := run_inv (I := Inv LOGSIZE) (fun s a s' hI h => hI.step (fun ha => by
    obtain ⟨-, ⟨log, -, hlog, -⟩ | ⟨_, _, _, rfl, -⟩ | ⟨_, _, _, rfl, -⟩ | ⟨_, _, rfl, -⟩ | ⟨rfl, -⟩ | ⟨rfl, -⟩⟩ := step_cases h
    · exact (beginOp_some hlog).2.1
    all_goals cases ha) h) (inv_init LOGSIZE nlog) h
  exact Nat.le_trans (Nat.le_add_right _ _) hI.reserved

theorem Inv.no_panic {cap : Nat} (hI : Inv cap s) (hcap : cap ≤ LOGSIZE) (hsize : cap < s.log.size) (h : Log.step s a = some s') :
    s'.halted = none := by
  obtain ⟨hok, ⟨log, -, -, rfl⟩ | ⟨i, b, op, -, hop, -, hlt, htest⟩ | ⟨i, b, written, -, -, rfl⟩ |
    ⟨i, written, -, hop, hend⟩ | ⟨-, -, rfl⟩ | ⟨-, -, rfl⟩⟩ := step_cases h
  · exact hok
  · have hroom := hI.room hop hlt
    have hpos : 0 < s.log.outstanding := by
      rw [hI.outstanding]
      exact List.length_pos_of_mem (List.mem_of_getElem? hop)
    have htestOk : logWriteTest s.log = .ok () := by
      unfold logWriteTest
      rw [if_neg (by omega), if_neg (by omega)]
    rw [htestOk] at htest
    rcases htest with ⟨p, hp, -⟩ | ⟨-, rfl⟩
    · cases hp
    · exact hok
  · exact hok
  · rw [endOp_eq (hI.not_committing (List.mem_of_getElem? hop)).2] at hend
    rcases hend with ⟨p, hp, -⟩ | ⟨doCommit, log, -, rfl⟩
    · cases hp
    · exact hok
  · exact hok
  · exact hok

/-! ### Runs -/

/-- A `begin_op` is made when the blocks in the log and `MAXOPBLOCKS` for each operation fit in `log.size - 1` blocks. -/
def Fits (s : St) (a : Action) : Prop :=
  a = .beginOp → s.log.lh.length + (s.log.outstanding + 1) * MAXOPBLOCKS ≤ s.log.size - 1

instance (s : St) (a : Action) : Decidable (Fits s a) := inferInstanceAs (Decidable (_ → _))

theorem log_write_fits (l : List Action) (t : St) (hfits : Along step Fits (St.init LOGSIZE) l)
    (h : run step (St.init LOGSIZE) l = some t) : t.halted ≠ some .tooBig := by
  have hI := Along.inv (I := fun s => s.log.size = LOGSIZE ∧ s.halted = none ∧ Inv (LOGSIZE - 1) s)
    (fun s a s' ⟨hsize, _, hI⟩ hfits h => by
      have hlt : LOGSIZE - 1 < s.log.size := by rw [hsize]; decide
      exact ⟨(step_size h).trans hsize, hI.no_panic (Nat.sub_le _ _) hlt h, hI.step (fun ha => hsize ▸ hfits ha) h⟩)
    ⟨rfl, rfl, inv_init _ _⟩ hfits h
  rw [hI.2.1]
  nofun

def twoFull : List Action :=
  [Action.beginOp, .beginOp] ++
    (List.range 10).flatMap (fun b => [Action.logWrite 0 b, .logAppend 0, .logWrite 1 (b + 10), .logAppend 1]) ++
    [Action.endOp 0, .endOp 0, .clear, .release]

theorem log_write_fits_twoFull : ∃ t, run step (St.init LOGSIZE) twoFull = some t ∧ t.halted ≠ some .tooBig :=
  ⟨St.init LOGSIZE, by decide +kernel, log_write_fits twoFull _ (by decide +kernel) (by decide +kernel)⟩

/-- Three operations, which `begin_op` lets in at the same time: the last of their 30 blocks is one too many. -/
def threeFull : List Action :=
  [Action.beginOp, .beginOp, .beginOp] ++
    (List.range 9).flatMap (fun b =>
      [Action.logWrite 0 b, .logAppend 0, .logWrite 1 (b + 10), .logAppend 1, .logWrite 2 (b + 20), .logAppend 2]) ++
    [Action.logWrite 0 9, .logAppend 0, .logWrite 1 19, .logAppend 1, .logWrite 2 29]

theorem length_lh_le_threeFull : ∃ t, run step (St.init LOGSIZE) threeFull = some t ∧ t.log.lh.length ≤ LOGSIZE := by
  have hsome : (run step (St.init LOGSIZE) threeFull).isSome := by decide +kernel
  obtain ⟨t, ht⟩ := Option.isSome_iff_exists.1 hsome
  exact ⟨t, ht, length_lh_le ht⟩

theorem log_write_panics_threeFull : ∃ t, run step (St.init LOGSIZE) threeFull = some t ∧ t.halted = some .tooBig :=
  ⟨((run step (St.init LOGSIZE) threeFull).getD (St.init 0)), by decide +kernel, by decide +kernel⟩

end Ostep.Fs.Log
