import Mathlib.Algebra.BigOperators.Group.Finset.Sigma
import Mathlib.Data.Fintype.BigOperators
import Ostep.Lib.Run
import Ostep.Lib.RefCounts
import Ostep.Xv6.Ftable

/-!
# The counts of the file table

`Inv` says that the counters agree with the references: those of the backed descriptors and those held by calls. What else it says is
local to a process (`Proc.Ok`), or about a process that `fork` or `clone` is setting up.
-/

namespace Ostep.Xv6.Files

variable {s s' : St} {p np : Slot} {q r : Proc} {f : FileId} {fd : Fd} {i : Nat}

/-! ### References of one process -/

namespace Proc

def backed (q : Proc) : Fd → Option FileId :=
  match q.call.unbacked with
  | none => q.ofile
  | some fd => Function.update q.ofile fd none

def refs (q : Proc) : Multiset FileId := q.call.held + pointers q.backed

theorem backed_eq_some : q.backed fd = some f ↔ q.ofile fd = some f ∧ q.call.unbacked ≠ some fd := by
  unfold backed
  cases q.call.unbacked with
  | none => exact (and_iff_left nofun).symm
  | some fd' =>
    rw [ne_eq, Option.some.injEq]
    by_cases hfd : fd = fd'
    · rw [hfd]
      exact iff_of_false (by simp) fun h => h.2 rfl
    · simp [hfd, Ne.symm hfd]

end Proc

/-- The new process that `fork` is setting up and the descriptor it is at. -/
def Call.child : Call → Option (Slot × Nat)
  | .forking np i => some (np, i)
  | .forkHas np fd _ => some (np, fd)
  | _ => none

/-- What a call in progress relies on in the table of its own process. -/
def Call.Needs (ofile : Fd → Option FileId) : Call → Prop
  | .dupping src fd f => src ≠ fd ∧ ofile src = some f ∧ ofile fd = some f
  | .pipeHalf fd0 f0 _ => ofile fd0 = some f0
  | .exiting i => ∀ fd : Fd, fd < i → ofile fd = none
  | .exitHas fd => ∀ fd' : Fd, fd' < fd → ofile fd' = none
  | _ => True

structure Proc.Ok (q : Proc) : Prop where
  idle : q.life ≠ .alive → q.call = .user
  closed : q.life = .unused ∨ q.life = .zombie → ∀ fd, q.ofile fd = none
  needs : q.call.Needs q.ofile

/-- A process that is being set up and has no descriptors from `i` on. -/
def Fresh (r : Proc) (i : Nat) : Prop := r.life = .embryo ∧ ∀ fd : Fd, i ≤ fd → r.ofile fd = none

structure Shape (proc : Slot → Proc) : Prop where
  ok : ∀ p, (proc p).Ok
  fresh : ∀ p np i, (proc p).call.child = some (np, i) → Fresh (proc np) i
  one : ∀ p p' np i i', (proc p).call.child = some (np, i) → (proc p').call.child = some (np, i') → p = p'

namespace Shape

variable {proc : Slot → Proc}

theorem set (h : Shape proc) (hq : q.Ok) (hfresh : ∀ p' i, p' ≠ p → (proc p').call.child = some (p, i) → Fresh q i)
    (hchild : ∀ np i, q.call.child = some (np, i) →
      np ≠ p ∧ Fresh (proc np) i ∧ ∀ p' i', p' ≠ p → (proc p').call.child ≠ some (np, i')) :
    Shape (Function.update proc p q) := by
  refine ⟨fun p' => ?_, fun p' np i hc => ?_, fun p₁ p₂ np i₁ i₂ h₁ h₂ => ?_⟩
  · by_cases hp' : p' = p
    · rw [hp', Function.update_self]
      exact hq
    · rw [Function.update_of_ne hp']
      exact h.ok p'
  · by_cases hp' : p' = p
    · rw [hp', Function.update_self] at hc
      obtain ⟨hne, hf, -⟩ := hchild np i hc
      rwa [Function.update_of_ne hne]
    · rw [Function.update_of_ne hp'] at hc
      by_cases hnp : np = p
      · rw [hnp, Function.update_self]
        exact hfresh p' i hp' (hnp ▸ hc)
      · rw [Function.update_of_ne hnp]
        exact h.fresh p' np i hc
  · by_cases hp₁ : p₁ = p <;> by_cases hp₂ : p₂ = p
    · rw [hp₁, hp₂]
    · rw [hp₁, Function.update_self] at h₁
      rw [Function.update_of_ne hp₂] at h₂
      exact absurd h₂ ((hchild np i₁ h₁).2.2 p₂ i₂ hp₂)
    · rw [Function.update_of_ne hp₁] at h₁
      rw [hp₂, Function.update_self] at h₂
      exact absurd h₁ ((hchild np i₂ h₂).2.2 p₁ i₁ hp₁)
    · rw [Function.update_of_ne hp₁] at h₁
      rw [Function.update_of_ne hp₂] at h₂
      exact h.one p₁ p₂ np i₁ i₂ h₁ h₂

theorem not_child (h : Shape proc) (hp : (proc p).life ≠ .embryo) (p' : Slot) (i : Nat) : (proc p').call.child ≠ some (p, i) :=
  fun hc => hp (h.fresh p' p i hc).1

theorem own (h : Shape proc) (hp : (proc p).life = .alive) (hq : q.Ok)
    (hchild : ∀ np i, q.call.child = some (np, i) → ∃ i₀ ≤ i, (proc p).call.child = some (np, i₀)) :
    Shape (Function.update proc p q) := by
  have hne : (proc p).life ≠ .embryo := by
    rw [hp]
    nofun
  refine h.set hq (fun p' i _ hc => absurd hc (h.not_child hne p' i)) fun np i hc => ?_
  obtain ⟨i₀, hi, hold⟩ := hchild np i hc
  obtain ⟨hemb, hnone⟩ := h.fresh p np i₀ hold
  refine ⟨?_, ⟨hemb, fun fd hfd => hnone fd (hi.trans hfd)⟩, fun p' i' hp' hc' => hp' (h.one _ _ _ _ _ hc' hold)⟩
  rintro rfl
  exact hne hemb

end Shape

/-! ### The whole table -/

def St.refs (s : St) : Multiset FileId := ∑ p, (s.proc p).refs

structure Inv (s : St) : Prop where
  safe : s.panicked = false
  counted : Counted s.ref s.refs
  shape : Shape s.proc

theorem refs_set (s : St) (p : Slot) (q : Proc) : (s.set p q).refs + (s.proc p).refs = s.refs + q.refs :=
  sum_replace (Finset.mem_univ p) s.proc Proc.refs q

theorem refs_set_eq (h : q.refs = (s.proc p).refs) : (s.set p q).refs = s.refs := by
  have := refs_set s p q
  rw [h] at this
  exact add_right_cancel this

theorem refs_set_add (h : q.refs = f ::ₘ (s.proc p).refs) : (s.set p q).refs = f ::ₘ s.refs := by
  have := refs_set s p q
  rw [h, Multiset.add_cons, ← Multiset.cons_add] at this
  exact add_right_cancel this

theorem refs_set_remove (h : (s.proc p).refs = f ::ₘ q.refs) : s.refs = f ::ₘ (s.set p q).refs := by
  have := refs_set s p q
  rw [h, Multiset.add_cons, ← Multiset.cons_add] at this
  exact (add_right_cancel this).symm

theorem mem_refs (h : f ∈ (s.proc p).refs) : f ∈ s.refs := Multiset.mem_sum.2 ⟨p, Finset.mem_univ p, h⟩

theorem ref_of_filealloc (h : filealloc s.ref = some f) : s.ref f = 0 := by
  simpa using List.find?_some h

theorem free_of_fdalloc {ofile : Fd → Option FileId} (h : fdalloc ofile = some fd) : ofile fd = none := by
  simpa using List.find?_some h

namespace Inv

theorem keep (h : Inv s) (hrefs : q.refs = (s.proc p).refs) (hshape : Shape (Function.update s.proc p q)) : Inv (s.set p q) where
  safe := h.safe
  counted := by
    rw [refs_set_eq hrefs]
    exact h.counted
  shape := hshape

theorem filealloc (h : Inv s) (hf : filealloc s.ref = some f) (hrefs : q.refs = f ::ₘ (s.proc p).refs)
    (hshape : Shape (Function.update s.proc p q)) : Inv ((s.setRef f 1).set p q) where
  safe := h.safe
  counted := by
    show Counted (Function.update s.ref f 1) (s.set p q).refs
    rw [refs_set_add hrefs, show 1 = s.ref f + 1 by rw [ref_of_filealloc hf]]
    exact h.counted.add f
  shape := hshape

theorem ref_pos (h : Inv s) (hf : f ∈ s.refs) : 0 < s.ref f := by
  rw [h.counted f]
  exact Multiset.count_pos.2 hf

theorem filedup (h : Inv s) (hf : f ∈ (s.proc p).refs) (hrefs : q.refs = f ::ₘ (s.proc p).refs)
    (hshape : Shape (Function.update s.proc p q)) : Inv ((s.filedup f).set p q) := by
  rw [St.filedup, if_neg (Nat.not_lt.2 (h.ref_pos (mem_refs hf)))]
  refine ⟨h.safe, ?_, hshape⟩
  show Counted (Function.update s.ref f (s.ref f + 1)) (s.set p q).refs
  rw [refs_set_add hrefs]
  exact h.counted.add f

theorem fileclose (h : Inv s) (hrefs : (s.proc p).refs = f ::ₘ q.refs) (hshape : Shape (Function.update s.proc p q)) :
    Inv ((s.fileclose f).set p q) := by
  have hcounted := h.counted
  rw [refs_set_remove hrefs] at hcounted
  rw [St.fileclose, if_neg (Nat.not_lt.2 hcounted.pos)]
  exact ⟨h.safe, hcounted.remove, hshape⟩

end Inv

/-! ### Steps -/

theorem Proc.ok_of_alive {ofile : Fd → Option FileId} {call : Call} (hn : call.Needs ofile) {l : Life} (hl : l = .alive) :
    Proc.Ok { life := l, ofile := ofile, call := call } where
  idle := fun hne => absurd hl hne
  closed := by
    rw [hl]
    nofun
  needs := hn

theorem Shape.goOn {proc : Slot → Proc} (h : Shape proc) (hl : (proc p).life = .alive) {call : Call} {ofile : Fd → Option FileId}
    (hn : call.Needs ofile) (hc : call.child = none) :
    Shape (Function.update proc p { life := (proc p).life, ofile := ofile, call := call }) := by
  refine h.own hl (Proc.ok_of_alive hn hl) fun np i hnp => ?_
  rw [show call.child = some (np, i) from hnp] at hc
  cases hc

theorem coe_cons_add (f : FileId) (fs : List FileId) (M : Multiset FileId) : ↑(f :: fs) + M = f ::ₘ (↑fs + M) := by
  rw [← Multiset.cons_coe, Multiset.cons_add]

attribute [local simp] Proc.refs Proc.backed Call.unbacked Call.held Proc.put Proc.clear coe_cons_add

namespace Inv

section
variable (h : Inv s) (hl : (s.proc p).life = .alive)
include h hl

theorem goOn {call : Call} {ofile : Fd → Option FileId}
    (hrefs : Proc.refs { life := (s.proc p).life, ofile := ofile, call := call } = (s.proc p).refs)
    (hn : call.Needs ofile) (hc : call.child = none) :
    Inv (s.set p { life := (s.proc p).life, ofile := ofile, call := call }) := h.keep hrefs (h.shape.goOn hl hn hc)

theorem openAlloc (hs : act s p (s.proc p) .openAlloc = some s') : Inv s' := by
  cases hcall : (s.proc p).call <;> simp only [act, hcall, reduceCtorEq] at hs
  split at hs
  · cases hs
    exact h
  · next f hf =>
    cases hs
    refine h.filealloc hf ?_ (h.shape.goOn hl trivial rfl)
    simp [hcall]

theorem openFd (hs : act s p (s.proc p) .openFd = some s') : Inv s' := by
  cases hcall : (s.proc p).call <;> simp only [act, hcall, reduceCtorEq] at hs
  split at hs
  · cases hs
    refine h.goOn hl ?_ trivial rfl
    simp [hcall]
  · next fd hfd =>
    cases hs
    refine h.goOn hl ?_ trivial rfl
    simp [hcall, pointers_put (free_of_fdalloc hfd)]

theorem dup (hs : act s p (s.proc p) (.dup fd) = some s') : Inv s' := by
  cases hcall : (s.proc p).call <;> simp only [act, hcall, reduceCtorEq] at hs
  split at hs
  · next f fd' hsrc hfd =>
    cases hs
    have hnull := free_of_fdalloc hfd
    have hne : fd ≠ fd' := by
      rintro rfl
      rw [hnull] at hsrc
      cases hsrc
    refine h.goOn hl ?_ ⟨hne, ?_, ?_⟩ rfl
    · simp [hcall, ← hnull]
    · simp [Proc.put, hne, hsrc]
    · simp [Proc.put]
  · cases hs
    exact h

theorem filedupStep (hs : act s p (s.proc p) .filedup = some s') : Inv s' := by
  cases hcall : (s.proc p).call <;> simp only [act, hcall, reduceCtorEq] at hs
  next src fd f =>
  cases hs
  have hneeds := (h.shape.ok p).needs
  rw [hcall] at hneeds
  obtain ⟨hne, hsrc, hfd⟩ := hneeds
  -- the descriptor that is duplicated is itself backed
  have hmem : f ∈ (s.proc p).refs := by
    simp only [Proc.refs, hcall, Multiset.mem_add]
    exact .inr (mem_pointers.2 ⟨src, Proc.backed_eq_some.2 ⟨hsrc, by simpa [hcall] using hne.symm⟩⟩)
  refine h.filedup hmem ?_ (h.shape.goOn hl trivial rfl)
  simp [hcall, ← pointers_clear hfd]

theorem pipeFirst (hs : act s p (s.proc p) .pipeFirst = some s') : Inv s' := by
  cases hcall : (s.proc p).call <;> simp only [act, hcall, reduceCtorEq] at hs
  split at hs
  · cases hs
    exact h
  · next f hf =>
    cases hs
    refine h.filealloc hf ?_ (h.shape.goOn hl trivial rfl)
    simp [hcall]

theorem pipeSecond (hs : act s p (s.proc p) .pipeSecond = some s') : Inv s' := by
  cases hcall : (s.proc p).call <;> simp only [act, hcall, reduceCtorEq] at hs
  split at hs
  · cases hs
    refine h.goOn hl ?_ trivial rfl
    simp [hcall]
  · next f hf =>
    cases hs
    refine h.filealloc hf ?_ (h.shape.goOn hl trivial rfl)
    simp [hcall, Multiset.cons_swap]

theorem pipeNoPage (hs : act s p (s.proc p) .pipeNoPage = some s') : Inv s' := by
  cases hcall : (s.proc p).call <;> simp only [act, hcall, reduceCtorEq] at hs
  cases hs
  refine h.goOn hl ?_ trivial rfl
  simp [hcall]

theorem pipeFd0 (hs : act s p (s.proc p) .pipeFd0 = some s') : Inv s' := by
  cases hcall : (s.proc p).call <;> simp only [act, hcall, reduceCtorEq] at hs
  split at hs
  · cases hs
    refine h.goOn hl ?_ trivial rfl
    simp [hcall]
  · next fd hfd =>
    cases hs
    refine h.goOn hl ?_ (Function.update_self ..) rfl
    simp [hcall, pointers_put (free_of_fdalloc hfd)]

theorem pipeFd1 (hs : act s p (s.proc p) .pipeFd1 = some s') : Inv s' := by
  cases hcall : (s.proc p).call <;> simp only [act, hcall, reduceCtorEq] at hs
  have hneeds := (h.shape.ok p).needs
  rw [hcall] at hneeds
  split at hs
  · cases hs
    refine h.goOn hl ?_ trivial rfl
    simp [hcall, pointers_clear hneeds]
  · next fd hfd =>
    cases hs
    refine h.goOn hl ?_ trivial rfl
    simp [hcall, pointers_put (free_of_fdalloc hfd)]

theorem close (hs : act s p (s.proc p) (.close fd) = some s') : Inv s' := by
  cases hcall : (s.proc p).call <;> simp only [act, hcall, reduceCtorEq] at hs
  split at hs
  · cases hs
    exact h
  · next f hf =>
    cases hs
    refine h.goOn hl ?_ trivial rfl
    simp [hcall, pointers_clear hf]

theorem filecloseStep (hs : act s p (s.proc p) .fileclose = some s') : Inv s' := by
  cases hcall : (s.proc p).call <;> simp only [act, hcall, reduceCtorEq] at hs
  next fs =>
  cases fs with
  | nil =>
    cases hs
    refine h.goOn hl ?_ trivial rfl
    simp [hcall]
  | cons f fs =>
    cases hs
    refine h.fileclose ?_ (h.shape.goOn hl trivial rfl)
    simp [hcall]

theorem exit (hs : act s p (s.proc p) .exit = some s') : Inv s' := by
  cases hcall : (s.proc p).call <;> simp only [act, hcall, reduceCtorEq] at hs
  split at hs
  · cases hs
  · cases hs
    refine h.goOn hl ?_ (fun fd hfd => absurd hfd (Nat.not_lt_zero _)) rfl
    simp [hcall]

theorem exitClose (hs : act s p (s.proc p) .exitClose = some s') : Inv s' := by
  cases hcall : (s.proc p).call <;> simp only [act, hcall, reduceCtorEq] at hs
  next i =>
  have hneeds := (h.shape.ok p).needs
  rw [hcall] at hneeds
  split at hs
  swap
  · cases hs
  next hi =>
  split at hs
  · next hnull =>
    cases hs
    refine h.goOn hl ?_ (fun fd hfd => ?_) rfl
    · simp [hcall]
    · rcases Nat.lt_succ_iff_lt_or_eq.1 hfd with hlt | heq
      · exact hneeds fd hlt
      · rwa [show fd = ⟨i, hi⟩ from Fin.ext heq]
  · next f hf =>
    cases hs
    refine h.fileclose ?_ (h.shape.goOn hl hneeds rfl)
    simp [hcall, pointers_clear hf]

theorem exitClear (hs : act s p (s.proc p) .exitClear = some s') : Inv s' := by
  cases hcall : (s.proc p).call <;> simp only [act, hcall, reduceCtorEq] at hs
  next fd =>
  have hneeds := (h.shape.ok p).needs
  rw [hcall] at hneeds
  cases hs
  refine h.goOn hl ?_ (fun fd' hfd => ?_) rfl
  · simp [hcall]
  · rcases Nat.lt_succ_iff_lt_or_eq.1 hfd with hlt | heq
    · simp [Proc.clear, Fin.ne_of_lt hlt, hneeds fd' hlt]
    · simp [Proc.clear, Fin.ext heq]

theorem exitDone (hs : act s p (s.proc p) .exitDone = some s') : Inv s' := by
  cases hcall : (s.proc p).call <;> simp only [act, hcall, reduceCtorEq] at hs
  next i =>
  have hneeds := (h.shape.ok p).needs
  rw [hcall] at hneeds
  split at hs
  swap
  · cases hs
  next hi =>
  cases hs
  refine h.keep ?_ (h.shape.own hl ⟨fun _ => rfl, fun _ fd => hneeds fd (hi ▸ fd.isLt), trivial⟩ nofun)
  simp [hcall]

/-! `fork` and `clone` -/

theorem fork (hs : act s p (s.proc p) .fork = some s') : Inv s' := by
  cases hcall : (s.proc p).call <;> simp only [act, hcall, reduceCtorEq] at hs
  split at hs
  · cases hs
    exact h
  next np hnp =>
  cases hs
  have hunused : (s.proc np).life = .unused := by simpa using List.find?_some hnp
  have hidle : (s.proc np).call = .user := (h.shape.ok np).idle (by rw [hunused]; nofun)
  have hnull := (h.shape.ok np).closed (.inl hunused)
  have hne : np ≠ p := by
    rintro rfl
    rw [hunused] at hl
    cases hl
  have hchild := h.shape.not_child (p := np) (by rw [hunused]; nofun)
  have h₁ : Inv (s.set np { s.proc np with life := .embryo }) := by
    refine h.keep ?_ (h.shape.set ⟨fun _ => hidle, nofun, ?_⟩ (fun p' i _ hc => absurd hc (hchild p' i)) ?_)
    · rfl
    · rw [hidle]
      trivial
    · simp [hidle, Call.child]
  refine h₁.keep ?_ (h₁.shape.set ?_ (fun p' i _ hc => ?_) ?_)
  · simp [St.set, hne.symm, hcall]
  · exact Proc.ok_of_alive (by trivial) hl
  · exact absurd hc (h₁.shape.not_child (by simp [St.set, hne.symm, hl]) p' i)
  · rintro _ _ ⟨⟩
    refine ⟨hne, ⟨by simp [St.set], fun fd _ => by simp [St.set, hnull]⟩, fun p' i' hp' => ?_⟩
    by_cases hp'n : p' = np
    · simp [hp'n, St.set, hidle, Call.child]
    · simpa [St.set, hp'n] using hchild p' i'

theorem release (hcall : (s.proc p).call = .forking np i) {l : Life}
    (hlife : l = .alive ∨ l = .unused ∧ i = 0) :
    Inv ((s.set np { s.proc np with life := l }).set p { s.proc p with call := .user }) := by
  obtain ⟨hemb, hnull⟩ := h.shape.fresh p np i (by rw [hcall]; rfl)
  have hidle : (s.proc np).call = .user := (h.shape.ok np).idle (by rw [hemb]; nofun)
  have hne : np ≠ p := by
    rintro rfl
    rw [hemb] at hl
    cases hl
  have h₁ : Inv (s.set p { s.proc p with call := .user }) := by
    refine h.goOn hl ?_ trivial rfl
    simp [hcall]
  have hswap : (s.set np { s.proc np with life := l }).set p { s.proc p with call := .user } =
      (s.set p { s.proc p with call := .user }).set np { s.proc np with life := l } := by
    simp [St.set, Function.update_comm hne]
  rw [hswap]
  refine h₁.keep ?_ (h₁.shape.set ⟨fun _ => hidle, fun hl' fd => ?_, ?_⟩ (fun p' i' _ hc => ?_) ?_)
  · simp [St.set, hne]
  · rcases hlife with rfl | ⟨-, rfl⟩
    · rcases hl' with hl' | hl' <;> cases hl'
    · exact hnull fd (Nat.zero_le _)
  · rw [hidle]
    trivial
  · by_cases hp' : p' = p
    · simp [hp', St.set, Call.child] at hc
    · simp only [St.set, Function.update_of_ne hp'] at hc
      exact absurd (h.shape.one p' p np i' i hc (by rw [hcall]; rfl)) hp'
  · simp [hidle, Call.child]

theorem forkFail (hs : act s p (s.proc p) .forkFail = some s') : Inv s' := by
  cases hcall : (s.proc p).call <;> simp only [act, hcall, reduceCtorEq] at hs
  next np i =>
  cases i with
  | zero =>
    cases hs
    exact h.release hl hcall (.inr ⟨rfl, rfl⟩)
  | succ i => cases hs

theorem forkDone (hs : act s p (s.proc p) .forkDone = some s') : Inv s' := by
  cases hcall : (s.proc p).call <;> simp only [act, hcall, reduceCtorEq] at hs
  split at hs
  · cases hs
    exact h.release hl hcall (.inl rfl)
  · cases hs

theorem forkDup (hs : act s p (s.proc p) .forkDup = some s') : Inv s' := by
  cases hcall : (s.proc p).call <;> simp only [act, hcall, reduceCtorEq] at hs
  next np i =>
  split at hs
  swap
  · cases hs
  next hi =>
  split at hs
  · cases hs
    refine h.keep ?_ (h.shape.own hl ?_ ?_)
    · simp [hcall]
    · exact Proc.ok_of_alive (by trivial) hl
    · rintro _ _ ⟨⟩
      exact ⟨i, Nat.le_succ i, by rw [hcall]; rfl⟩
  · next f hf =>
    cases hs
    refine h.filedup (p := p) ?_ ?_ (h.shape.own hl ?_ ?_)
    · simp [hcall, mem_pointers.2 ⟨_, hf⟩]
    · simp [hcall]
    · exact Proc.ok_of_alive (by trivial) hl
    · rintro _ _ ⟨⟩
      exact ⟨i, Nat.le_refl i, by rw [hcall]; rfl⟩

theorem forkStore (hs : act s p (s.proc p) .forkStore = some s') : Inv s' := by
  cases hcall : (s.proc p).call <;> simp only [act, hcall, reduceCtorEq] at hs
  next np fd f =>
  cases hs
  have hchild : (s.proc p).call.child = some (np, fd.val) := by
    rw [hcall]
    rfl
  obtain ⟨hemb, hnull⟩ := h.shape.fresh p np fd hchild
  have hidle : (s.proc np).call = .user := (h.shape.ok np).idle (by rw [hemb]; nofun)
  have hne : np ≠ p := by
    rintro rfl
    rw [hemb] at hl
    cases hl
  have hgive : (s.set np ((s.proc np).put fd f)).refs = f ::ₘ s.refs := by
    refine refs_set_add ?_
    simp [hidle, pointers_put (hnull fd (Nat.le_refl _))]
  have htake : (s.set np ((s.proc np).put fd f)).refs =
      f ::ₘ ((s.set np ((s.proc np).put fd f)).set p { s.proc p with call := .forking np (fd + 1) }).refs := by
    refine refs_set_remove ?_
    simp [St.set, hne.symm, hcall]
  have hshape : Shape (Function.update s.proc p { s.proc p with call := .forking np (fd + 1) }) := by
    refine h.shape.own hl (Proc.ok_of_alive (by trivial) hl) ?_
    rintro _ _ ⟨⟩
    exact ⟨fd, Nat.le_succ _, hchild⟩
  refine ⟨h.safe, ?_, ?_⟩
  · rw [← (Multiset.cons_inj_right f).1 (hgive.symm.trans htake)]
    exact h.counted
  · show Shape (Function.update (Function.update s.proc np _) p _)
    rw [Function.update_comm hne]
    refine hshape.set ⟨fun _ => hidle, ?_, ?_⟩ (fun p' i hp' hc => ⟨hemb, fun fd' hfd' => ?_⟩) ?_
    · simp [hemb]
    · simp only [Proc.put, hidle]
      trivial
    · by_cases hpp : p' = p
      · rw [hpp, Function.update_self] at hc
        cases hc
        simp [Proc.put, Fin.ne_of_gt (Nat.lt_of_succ_le hfd'), hnull fd' (Nat.le_of_succ_le hfd')]
      · rw [Function.update_of_ne hpp] at hc
        exact absurd (h.shape.one _ _ _ _ _ hc hchild) hpp
    · simp [hidle, Call.child]

end

theorem reap (h : Inv s) (hs : act s p (s.proc p) (.reap np) = some s') : Inv s' := by
  cases hcall : (s.proc p).call <;> simp only [act, hcall, reduceCtorEq] at hs
  split at hs
  swap
  · cases hs
  next hz =>
  cases hs
  have hidle : (s.proc np).call = .user := (h.shape.ok np).idle (by rw [hz]; nofun)
  have hchild := h.shape.not_child (p := np) (by rw [hz]; nofun)
  refine h.keep ?_ (h.shape.set ⟨fun _ => hidle, fun _ => (h.shape.ok np).closed (.inr hz), ?_⟩
    (fun p' i _ hc => absurd hc (hchild p' i)) ?_)
  · rfl
  · rw [hidle]
    trivial
  · simp [hidle, Call.child]

theorem step (h : Inv s) {a : Slot × Action} (hs : step s a = some s') : Inv s' := by
  obtain ⟨p, a⟩ := a
  unfold Files.step at hs
  split at hs
  · cases hs
  next hne =>
  have hl : (s.proc p).life = .alive := by
    by_contra hl
    exact hne (.inr hl)
  cases a with
  | openAlloc => exact h.openAlloc hl hs
  | openFd => exact h.openFd hl hs
  | dup fd => exact h.dup hl hs
  | filedup => exact h.filedupStep hl hs
  | pipeFirst => exact h.pipeFirst hl hs
  | pipeSecond => exact h.pipeSecond hl hs
  | pipeNoPage => exact h.pipeNoPage hl hs
  | pipeFd0 => exact h.pipeFd0 hl hs
  | pipeFd1 => exact h.pipeFd1 hl hs
  | close fd => exact h.close hl hs
  | fileclose => exact h.filecloseStep hl hs
  | fork => exact h.fork hl hs
  | forkFail => exact h.forkFail hl hs
  | forkDup => exact h.forkDup hl hs
  | forkStore => exact h.forkStore hl hs
  | forkDone => exact h.forkDone hl hs
  | exit => exact h.exit hl hs
  | exitClose => exact h.exitClose hl hs
  | exitClear => exact h.exitClear hl hs
  | exitDone => exact h.exitDone hl hs
  | reap z => exact h.reap hs

theorem init : Inv St.init where
  safe := rfl
  counted := by
    have hrefs : St.init.refs = 0 := Finset.sum_eq_zero fun p _ => by simp [St.init, pointers_null]
    rw [hrefs]
    exact counted_zero
  shape := ⟨fun p => ⟨fun _ => rfl, fun _ _ => rfl, trivial⟩, nofun, nofun⟩

theorem of_run {l : List (Slot × Action)} (hrun : run Files.step St.init l = some s) : Inv s :=
  run_inv (fun _ _ _ h hs => h.step hs) init hrun

end Inv

/-! ### What the counters mean -/

theorem count_refs (s : St) (f : FileId) : s.refs.count f = (s.descriptors f).card + s.inCalls f := by
  have hcard : (s.descriptors f).card = ∑ p, (pointers (s.proc p).backed).count f := by
    simp only [count_pointers, Proc.backed_eq_some, St.descriptors, St.pointing, Finset.filter_filter, Finset.card_filter,
      Fintype.sum_prod_type]
  rw [St.refs, Multiset.count_sum', hcard, St.inCalls, ← Finset.sum_add_distrib]
  exact Finset.sum_congr rfl fun p _ => by rw [Proc.refs, Multiset.count_add, Multiset.coe_count, add_comm]

/-- A descriptor for a free entry is one that `exit` has closed and is about to clear. -/
theorem Inv.exitHas_of_free (h : Inv s) (hf : s.ref f = 0) (hfd : (s.proc p).ofile fd = some f) : (s.proc p).call = .exitHas fd := by
  have hback : ∀ fd', (s.proc p).backed fd' ≠ some f := by
    intro fd' hfd'
    have hmem : f ∈ (s.proc p).refs := Multiset.mem_add.2 (.inr (mem_pointers.2 ⟨fd', hfd'⟩))
    exact (h.ref_pos (mem_refs hmem)).ne' hf
  have hun : (s.proc p).call.unbacked = some fd := by
    by_contra hne
    exact hback fd (Proc.backed_eq_some.2 ⟨hfd, hne⟩)
  have hneeds := (h.shape.ok p).needs
  cases hcall : (s.proc p).call with
  | dupping src fd' g =>
    -- `src`, which is being duplicated, would be backed
    rw [hcall] at hneeds hun
    cases hun
    obtain ⟨hne, hsrc, hg⟩ := hneeds
    rw [← Option.some.inj (hfd.symm.trans hg)] at hsrc
    refine absurd (Proc.backed_eq_some.2 ⟨hsrc, ?_⟩) (hback src)
    simpa [hcall] using hne.symm
  | exitHas fd' =>
    rw [hcall] at hun
    cases hun
    rfl
  | _ =>
    rw [hcall] at hun
    cases hun

/-- In every state reached the counters are exact and nothing has panicked. Only descriptors that an `exit` has closed and is about
to clear can point at an entry that `filealloc` returns. An entry to which there is no reference is free. -/
theorem ref_eq_of_run {l : List (Slot × Action)} {t : St} (hrun : run step St.init l = some t) :
    t.panicked = false ∧
    ∀ f, t.ref f = (t.descriptors f).card + t.inCalls f ∧
      (filealloc t.ref = some f → ∀ p fd, (t.proc p).ofile fd = some f → (t.proc p).call = .exitHas fd) ∧
      (t.descriptors f = ∅ → t.inCalls f = 0 → t.ref f = 0) := by
  have h := Inv.of_run hrun
  have hcount : ∀ f, t.ref f = (t.descriptors f).card + t.inCalls f := fun f => (h.counted f).trans (count_refs t f)
  refine ⟨h.safe, fun f => ⟨hcount f, fun hf p fd => h.exitHas_of_free (ref_of_filealloc hf), fun hd hc => ?_⟩⟩
  rw [hcount f, hd, hc]
  rfl

/-- The first process forks, and the child opens a file and calls `exit`, which has just called `fileclose` for it. -/
def exitOpens : List (Slot × Action) :=
  (0, Action.fork) :: List.replicate NOFILE (0, Action.forkDup) ++
    [(0, Action.forkDone), (1, .openAlloc), (1, .openFd), (1, .exit), (1, .exitClose)]

theorem ref_eq_of_run_exitOpens : ∃ t, run step St.init exitOpens = some t ∧ t.ref 0 = (t.descriptors 0).card + t.inCalls 0 := by
  have hsome : (run step St.init exitOpens).isSome := by decide +kernel
  obtain ⟨t, ht⟩ := Option.isSome_iff_exists.1 hsome
  exact ⟨t, ht, ((ref_eq_of_run ht).2 0).1⟩

/-- The next `filealloc` returns entry 0, while descriptor 0 of process 1 still points at it. -/
theorem free_while_exiting : ∃ t, run step St.init exitOpens = some t ∧
    t.ref 0 ≠ (t.pointing 0).card + t.inCalls 0 ∧ filealloc t.ref = some 0 ∧ (t.proc 1).ofile 0 = some 0 := by
  have hval : (run step St.init exitOpens).map (fun t => (decide (t.ref 0 ≠ (t.pointing 0).card + t.inCalls 0), filealloc t.ref,
      (t.proc 1).ofile 0)) = some (true, some 0, some 0) := by
    decide +kernel
  obtain ⟨t, ht, hproj⟩ := Option.map_eq_some_iff.1 hval
  obtain ⟨hne, hrest⟩ := Prod.mk.inj hproj
  obtain ⟨halloc, hfd⟩ := Prod.mk.inj hrest
  exact ⟨t, ht, of_decide_eq_true hne, halloc, hfd⟩

end Ostep.Xv6.Files
