import Ostep.Xv6.Proc

/-!
# What the steps do to the table

One lemma per function of `Proc.lean`: the slots it changes and how. Proofs about runs use these and do
not unfold the functions again.
-/

namespace Ostep.Xv6

open ProcState

theorem findSlot_some {q : Slot → Bool} {p : Slot} (h : findSlot q = some p) : q p = true :=
  List.find?_some h

theorem findSlot_none {q : Slot → Bool} (h : findSlot q = none) (p : Slot) : q p = false := by
  have := List.find?_eq_none.1 h p (List.mem_finRange p)
  simpa using this

namespace Kernel

variable (k : Kernel)

@[simp] theorem set_proc (p : Slot) (f : Proc → Proc) (q : Slot) :
    (k.set p f).proc q = if q = p then f (k.proc p) else k.proc q :=
  Function.update_apply ..

@[simp] theorem set_nextpid (p : Slot) (f : Proc → Proc) : (k.set p f).nextpid = k.nextpid := rfl
@[simp] theorem set_pgdirs (p : Slot) (f : Proc → Proc) : (k.set p f).pgdirs = k.pgdirs := rfl

@[simp] theorem setDir_proc (d : Nat) (b : Bool) : (k.setDir d b).proc = k.proc := rfl
@[simp] theorem setDir_nextpid (d : Nat) (b : Bool) : (k.setDir d b).nextpid = k.nextpid := rfl
@[simp] theorem setDir_pgdirs (d : Nat) (b : Bool) (e : Nat) :
    (k.setDir d b).pgdirs e = if e = d then b else k.pgdirs e :=
  Function.update_apply ..

@[simp] theorem freevm_proc (d : Nat) : (k.freevm d).proc = k.proc := rfl
@[simp] theorem freevm_nextpid (d : Nat) : (k.freevm d).nextpid = k.nextpid := rfl
@[simp] theorem freevm_pgdirs (d e : Nat) :
    (k.freevm d).pgdirs e = if e = d then false else k.pgdirs e :=
  setDir_pgdirs ..

/-- `wakeup1` changes a SLEEPING state to RUNNABLE and nothing else. -/
def Woken (s s' : ProcState) : Prop := s' = s ∨ (s = SLEEPING ∧ s' = RUNNABLE)

theorem Woken.unused_iff {s s' : ProcState} (h : Woken s s') : s' = UNUSED ↔ s = UNUSED := by
  rcases h with rfl | ⟨rfl, rfl⟩
  · exact Iff.rfl
  · simp

theorem Woken.zombie_iff {s s' : ProcState} (h : Woken s s') : s' = ZOMBIE ↔ s = ZOMBIE := by
  rcases h with rfl | ⟨rfl, rfl⟩
  · exact Iff.rfl
  · simp

theorem Woken.trans {s s' s'' : ProcState} (h : Woken s s') (h' : Woken s' s'') : Woken s s'' := by
  rcases h with rfl | ⟨rfl, rfl⟩
  · exact h'
  · rcases h' with rfl | ⟨h', -⟩
    · exact .inr ⟨rfl, rfl⟩
    · cases h'

theorem wakeup1_proc (chan : Chan) (p : Slot) :
    ∃ s, Woken (k.proc p).state s ∧ (k.wakeup1 chan).proc p = { k.proc p with state := s } := by
  unfold wakeup1
  dsimp only
  split
  · next h => exact ⟨RUNNABLE, .inr ⟨h.1, rfl⟩, rfl⟩
  · exact ⟨_, .inl rfl, rfl⟩

/-! ### What a step changes -/

/-- A step that leaves alone what identifies the process in a slot: it may only change its state
between states of a live process, and the fields the scheduler and `sleep` work with. -/
structure Same (q q' : Proc) : Prop where
  pid : q'.pid = q.pid
  parent : q'.parent = q.parent
  pgdir : q'.pgdir = q.pgdir
  sz : q'.sz = q.sz
  killed : q'.killed = q.killed
  inuse : q'.inuse = q.inuse
  unused : q'.state = UNUSED ↔ q.state = UNUSED
  zombie : q'.state = ZOMBIE ↔ q.state = ZOMBIE
  ticks : q.state = UNUSED → q'.ticks = q.ticks

theorem Same.rfl {q : Proc} : Same q q :=
  ⟨.refl _, .refl _, .refl _, .refl _, .refl _, .refl _, .rfl, .rfl, fun _ => .refl _⟩

/-- Every slot is the same and every directory stays as it was; a directory that is freed was new. -/
structure Quiet (r : Result) : Prop where
  proc : ∀ p, Same (k.proc p) (r.k.proc p)
  nextpid : r.k.nextpid = k.nextpid
  initproc : r.k.initproc = k.initproc
  pgdirs : ∀ d, r.k.pgdirs d = k.pgdirs d
  freed : ∀ d, r.freed = some d → k.pgdirs d = false

/-- Slot `p` was taken by `allocproc` and given back. -/
structure Lost (p : Slot) (r : Result) : Prop where
  free : (k.proc p).state = UNUSED
  unused : (r.k.proc p).state = UNUSED
  pid : (r.k.proc p).pid = k.nextpid
  others : ∀ q, q ≠ p → r.k.proc q = k.proc q
  nextpid : r.k.nextpid = k.nextpid + 1
  initproc : r.k.initproc = k.initproc
  pgdirs : ∀ d, r.k.pgdirs d = k.pgdirs d
  freed : ∀ d, r.freed = some d → k.pgdirs d = false

/-- Slot `p` holds a new child of `c` with page directory `d`. -/
structure Born (c p : Slot) (d : Nat) (r : Result) : Prop where
  free : (k.proc p).state = UNUSED
  state : (r.k.proc p).state = RUNNABLE
  pid : (r.k.proc p).pid = k.nextpid
  parent : (r.k.proc p).parent = some c
  pgdir : (r.k.proc p).pgdir = d
  sz : (r.k.proc p).sz = (k.proc c).sz
  killed : (r.k.proc p).killed = (k.proc p).killed
  ticks : (r.k.proc p).ticks = (k.proc p).ticks
  others : ∀ q, q ≠ p → r.k.proc q = k.proc q
  nextpid : r.k.nextpid = k.nextpid + 1
  initproc : r.k.initproc = k.initproc
  freed : r.freed = none

structure Exited (c : Slot) (r : Result) : Prop where
  running : (k.proc c).state = RUNNING
  caller : c ≠ k.initproc
  proc : ∀ p, ∃ s, Woken (k.proc p).state s ∧ r.k.proc p = { k.proc p with
    parent := if (k.proc p).parent = some c then some k.initproc else (k.proc p).parent
    ofile := if p = c then fun _ => none else (k.proc p).ofile
    cwd := if p = c then none else (k.proc p).cwd
    state := if p = c then ZOMBIE else s }
  nextpid : r.k.nextpid = k.nextpid
  initproc : r.k.initproc = k.initproc
  pgdirs : r.k.pgdirs = k.pgdirs
  freed : r.freed = none

structure Waited (c p : Slot) (r : Result) : Prop where
  found : k.waitFinds c = some p
  zombie : (k.proc p).state = ZOMBIE
  parent : (k.proc p).parent = some c
  proc : r.k.proc p = { k.proc p with
    kstack := 0, pid := 0, parent := none, name := [], killed := 0, state := UNUSED, tickets := 0,
    ticks := 0, inuse := 0 }
  others : ∀ q, q ≠ p → r.k.proc q = k.proc q
  nextpid : r.k.nextpid = k.nextpid
  initproc : r.k.initproc = k.initproc
  pgdirs : ∀ d, r.k.pgdirs d = if d = (k.proc p).pgdir then false else k.pgdirs d
  freed : r.freed = some (k.proc p).pgdir

structure Joined (p : Slot) (r : Result) : Prop where
  zombie : (k.proc p).state = ZOMBIE
  proc : r.k.proc p = { k.proc p with state := UNUSED }
  others : ∀ q, q ≠ p → r.k.proc q = k.proc q
  nextpid : r.k.nextpid = k.nextpid
  initproc : r.k.initproc = k.initproc
  pgdirs : r.k.pgdirs = k.pgdirs
  freed : r.freed = none

/-- `kill(pid)` has found slot `p`. -/
structure Killed (p : Slot) (pid : Int) (r : Result) : Prop where
  found : (k.proc p).pid = pid
  proc : ∃ s, Woken (k.proc p).state s ∧ r.k.proc p = { k.proc p with killed := 1, state := s }
  others : ∀ q, q ≠ p → r.k.proc q = k.proc q
  nextpid : r.k.nextpid = k.nextpid
  initproc : r.k.initproc = k.initproc
  pgdirs : r.k.pgdirs = k.pgdirs
  freed : r.freed = none

/-- `exec` has put the image with directory `d` into slot `c`. -/
structure Execed (c : Slot) (d sz : Nat) (r : Result) : Prop where
  running : (k.proc c).state = RUNNING
  fresh : k.pgdirs d = false
  pgdir : (r.k.proc c).pgdir = d
  caller : Same { k.proc c with pgdir := d, sz := sz } (r.k.proc c)
  others : ∀ q, q ≠ c → r.k.proc q = k.proc q
  nextpid : r.k.nextpid = k.nextpid
  initproc : r.k.initproc = k.initproc
  pgdirs : ∀ e, r.k.pgdirs e = if e = (k.proc c).pgdir then false else if e = d then true else k.pgdirs e
  freed : r.freed = some (k.proc c).pgdir

/-- When an action ends in `Quiet`: `fork` and `clone` find no slot, `wait` and `join` nothing to
reap, `kill` no process, `exec` no image. -/
def Idle (c : Slot) : Act → Prop
  | .fork .. | .clone .. => ∀ p, (k.proc p).state ≠ UNUSED
  | .exit => False
  | .wait => ∀ p, ¬ ((k.proc p).parent = some c ∧ (k.proc p).state = ZOMBIE)
  | .join word4 => ∀ p, ¬ (k.joinTakes c word4 p ∧ (k.proc p).state = ZOMBIE)
  | .kill pid => ∀ p, (k.proc p).pid ≠ pid
  | .exec dir .. => ∀ d, dir ≠ .ok d
  | _ => True

theorem forall_of_others {k k' : Kernel} {p : Slot} (P : Proc → Prop) (ho : ∀ q, q ≠ p → k'.proc q = k.proc q)
    (hp : P (k'.proc p)) (h : ∀ q, P (k.proc q)) (q : Slot) : P (k'.proc q) := by
  by_cases hq : q = p
  · subst hq; exact hp
  · rw [ho q hq]; exact h q

/-- A process that was there before the step. -/
structure Kept (q q' : Proc) : Prop where
  used : q.state ≠ UNUSED
  pid : q'.pid = q.pid
  pgdir : q'.pgdir = q.pgdir
  sz : q'.sz = q.sz

section
variable {k} {c p : Slot} {r : Result}

theorem Same.kept {q q' : Proc} (h : Same q q') (hu : q'.state ≠ UNUSED) : Kept q q' :=
  ⟨fun hq => hu (h.unused.2 hq), h.pid, h.pgdir, h.sz⟩

theorem kept_of_others (ho : ∀ q, q ≠ p → r.k.proc q = k.proc q) {q : Slot} (hqp : q ≠ p)
    (hq : (r.k.proc q).state ≠ UNUSED) : Kept (k.proc q) (r.k.proc q) := by
  rw [ho q hqp] at hq ⊢
  exact ⟨hq, rfl, rfl, rfl⟩

theorem kept_of_unused (ho : ∀ q, q ≠ p → r.k.proc q = k.proc q) (hp : (r.k.proc p).state = UNUSED) {q : Slot}
    (hq : (r.k.proc q).state ≠ UNUSED) : Kept (k.proc q) (r.k.proc q) := by
  refine kept_of_others ho ?_ hq
  rintro rfl
  exact hq hp

theorem Exited.kept (h : k.Exited c r) {q : Slot} (hq : (r.k.proc q).state ≠ UNUSED) :
    Kept (k.proc q) (r.k.proc q) := by
  obtain ⟨s, hs, hp⟩ := h.proc q
  rw [hp] at hq ⊢
  refine ⟨fun hu => ?_, rfl, rfl, rfl⟩
  by_cases hqc : q = c
  · subst hqc; rw [h.running] at hu; cases hu
  · simp only [if_neg hqc] at hq; exact hq (hs.unused_iff.2 hu)

theorem Killed.kept {pid : Int} (h : k.Killed p pid r) {q : Slot} (hq : (r.k.proc q).state ≠ UNUSED) :
    Kept (k.proc q) (r.k.proc q) := by
  by_cases hqp : q = p
  · subst hqp
    obtain ⟨s, hs, hp⟩ := h.proc
    rw [hp] at hq ⊢
    exact ⟨fun hu => hq (hs.unused_iff.2 hu), rfl, rfl, rfl⟩
  · exact kept_of_others h.others hqp hq

theorem Waited.kept (h : k.Waited c p r) {q : Slot} (hq : (r.k.proc q).state ≠ UNUSED) :
    Kept (k.proc q) (r.k.proc q) :=
  kept_of_unused h.others (by rw [h.proc]) hq

theorem Joined.kept (h : k.Joined p r) {q : Slot} (hq : (r.k.proc q).state ≠ UNUSED) :
    Kept (k.proc q) (r.k.proc q) :=
  kept_of_unused h.others (by rw [h.proc]) hq

theorem Lost.kept (h : k.Lost p r) {q : Slot} (hq : (r.k.proc q).state ≠ UNUSED) :
    Kept (k.proc q) (r.k.proc q) :=
  kept_of_unused h.others h.unused hq

end

/-- Everything a step of slot `c` can do. -/
inductive Did (c : Slot) : Act → Result → Prop
  | idle {a r} : k.Idle c a → k.Quiet r → Did c a r
  | forkLost {kstack copy p r} : (kstack = 0 ∨ ∀ d, copy ≠ .ok d) → k.Lost p r → Did c (.fork kstack copy) r
  | cloneLost {fcn stack p r} : k.Lost p r → Did c (.clone 0 fcn stack) r
  | forked {kstack d p r} : kstack ≠ 0 → k.pgdirs d = false → k.Born c p d r →
      (∀ e, r.k.pgdirs e = if e = d then true else k.pgdirs e) → Did c (.fork kstack (.ok d)) r
  | cloned {kstack fcn stack p r} : kstack ≠ 0 → (k.proc c).state = RUNNING → k.Born c p (k.proc c).pgdir r → r.k.pgdirs = k.pgdirs →
      Did c (.clone kstack fcn stack) r
  | exited {r} : k.Exited c r → Did c .exit r
  | waited {p r} : k.Waited c p r → Did c .wait r
  | joined {word4 p r} : k.joinTakes c word4 p → k.Joined p r → Did c (.join word4) r
  | killed {pid p r} : k.Killed p pid r → Did c (.kill pid) r
  | execed {d sz entry sp name r} : k.Execed c d sz r → Did c (.exec (.ok d) sz entry sp name) r

/-- A process after a step was there before it, is new, or has called `exec`. -/
theorem Did.used_cases {k : Kernel} {c : Slot} {a : Act} {r : Result} (hd : k.Did c a r) {q : Slot}
    (hq : (r.k.proc q).state ≠ UNUSED) :
    Kept (k.proc q) (r.k.proc q) ∨
      (∃ d, k.Born c q d r ∧ ((∃ kstack, a = .fork kstack (.ok d)) ∨
        ((k.proc c).state = RUNNING ∧ d = (k.proc c).pgdir))) ∨
      (q = c ∧ ∃ d sz entry sp name, a = .exec (.ok d) sz entry sp name ∧ k.Execed c d sz r) := by
  cases hd with
  | idle _ h => exact .inl ((h.proc q).kept hq)
  | forkLost _ h => exact .inl (h.kept hq)
  | cloneLost h => exact .inl (h.kept hq)
  | @forked _ d p _ _ _ h _ =>
    by_cases hqp : q = p
    · exact .inr (.inl ⟨d, hqp ▸ h, .inl ⟨_, rfl⟩⟩)
    · exact .inl (kept_of_others h.others hqp hq)
  | @cloned _ _ _ p _ _ hc h _ =>
    by_cases hqp : q = p
    · exact .inr (.inl ⟨_, hqp ▸ h, .inr ⟨hc, rfl⟩⟩)
    · exact .inl (kept_of_others h.others hqp hq)
  | exited h => exact .inl (h.kept hq)
  | waited h => exact .inl (h.kept hq)
  | joined _ h => exact .inl (h.kept hq)
  | killed h => exact .inl (h.kept hq)
  | execed h =>
    by_cases hqc : q = c
    · exact .inr (.inr ⟨hqc, _, _, _, _, _, rfl, h⟩)
    · exact .inl (kept_of_others h.others hqc hq)

theorem Did.nextpid_le {k : Kernel} {c : Slot} {a : Act} {r : Result} (hd : k.Did c a r) :
    k.nextpid ≤ r.k.nextpid := by
  cases hd with
  | idle _ h => exact h.nextpid.ge
  | forkLost _ h => rw [h.nextpid]; omega
  | cloneLost h => rw [h.nextpid]; omega
  | forked _ _ h _ => rw [h.nextpid]; omega
  | cloned _ _ h _ => rw [h.nextpid]; omega
  | exited h => exact h.nextpid.ge
  | waited h => exact h.nextpid.ge
  | joined _ h => exact h.nextpid.ge
  | killed h => exact h.nextpid.ge
  | execed h => exact h.nextpid.ge

/-! ### `allocproc`, `fork`, `clone` -/

def taken (p : Slot) (kstack : Nat) (s : ProcState) : Kernel :=
  { k.set p fun q => { q with state := s, pid := k.nextpid, tickets := 1, inuse := 1, kstack := kstack } with
    nextpid := k.nextpid + 1 }

theorem allocproc_cases (kstack : Nat) :
    (k.allocproc kstack = (k, none) ∧ ∀ p, (k.proc p).state ≠ UNUSED) ∨
      ∃ p, (k.proc p).state = UNUSED ∧
        ((kstack = 0 ∧ k.allocproc kstack = (k.taken p 0 UNUSED, none)) ∨
          (kstack ≠ 0 ∧ k.allocproc kstack = (k.taken p kstack EMBRYO, some p))) := by
  unfold allocproc
  cases hf : findSlot fun p => (k.proc p).state = UNUSED with
  | none => exact .inl ⟨rfl, fun p => by simpa using findSlot_none hf p⟩
  | some p =>
    refine .inr ⟨p, by simpa using findSlot_some hf, ?_⟩
    by_cases hk : kstack = 0
    · refine .inl ⟨hk, ?_⟩
      simp only [hk, if_true]
      congr 1
      simp [set, taken]
    · refine .inr ⟨hk, ?_⟩
      simp only [hk, if_false]
      congr 1
      simp [set, taken]

variable {k}

theorem taken_pgdir (p : Slot) (kstack : Nat) (s : ProcState) (q : Slot) :
    ((k.taken p kstack s).proc q).pgdir = (k.proc q).pgdir := by
  by_cases h : q = p
  · subst h; simp [taken]
  · simp [taken, h]

theorem taken_sz (p : Slot) (kstack : Nat) (s : ProcState) (q : Slot) :
    ((k.taken p kstack s).proc q).sz = (k.proc q).sz := by
  by_cases h : q = p
  · subst h; simp [taken]
  · simp [taken, h]

theorem born_inherit {k₁ : Kernel} {c p : Slot} {kstack d : Nat} {tf : Trapframe} {ret : Option Int}
    (hp : (k.proc p).state = UNUSED) (hproc : k₁.proc = (k.taken p kstack EMBRYO).proc)
    (hn : k₁.nextpid = k.nextpid + 1) (hi : k₁.initproc = k.initproc) :
    k.Born c p d { k := k₁.inherit c p d tf, ret := ret } := by
  have hsz : (k₁.proc c).sz = (k.proc c).sz := by rw [hproc, taken_sz]
  refine ⟨hp, ?_, ?_, ?_, ?_, ?_, ?_, ?_, fun q hq => ?_, hn, hi, rfl⟩
  · simp [inherit]
  · simp [inherit, hproc, taken]
  · simp [inherit]
  · simp [inherit]
  · simp [inherit, hsz]
  · simp [inherit, hproc, taken]
  · simp [inherit, hproc, taken]
  · simp [inherit, hproc, taken, hq]

theorem lost_of_eq {p : Slot} {g : Nat} {r : Result} (hp : (k.proc p).state = UNUSED)
    (hproc : ∀ q, r.k.proc q = if q = p then { (k.taken p 0 UNUSED).proc p with pgdir := g } else k.proc q)
    (hn : r.k.nextpid = k.nextpid + 1) (hi : r.k.initproc = k.initproc)
    (hd : ∀ d, r.k.pgdirs d = k.pgdirs d) (hf : ∀ d, r.freed = some d → k.pgdirs d = false) : k.Lost p r := by
  refine ⟨hp, ?_, ?_, fun q hq => ?_, hn, hi, hd, hf⟩
  · rw [hproc, if_pos rfl]; simp [taken]
  · rw [hproc, if_pos rfl]; simp [taken]
  · rw [hproc, if_neg hq]

theorem did_fork {c : Slot} {kstack : Nat} {copy : NewDir} (hc : copy.fresh k = true) :
    k.Did c (.fork kstack copy) (k.fork c kstack copy) := by
  unfold fork
  rcases k.allocproc_cases kstack with ⟨ha, hnone⟩ | ⟨p, hp, ⟨hk, ha⟩ | ⟨hk, ha⟩⟩
  · rw [ha]
    exact .idle hnone ⟨fun p => .rfl, rfl, rfl, fun d => rfl, fun d hd => by cases hd⟩
  · rw [ha]
    refine .forkLost (.inl hk) (lost_of_eq (p := p) (g := (k.proc p).pgdir) hp (fun q => ?_) rfl rfl (fun d => rfl)
      fun d hd => by cases hd)
    by_cases hq : q = p <;> simp [taken, hq]
  · rw [ha]
    cases copy with
    | none =>
      refine .forkLost (.inr fun d hd => by cases hd) (lost_of_eq (p := p) (g := 0) hp (fun q => ?_) rfl rfl
        (fun d => rfl) fun d hd => by cases hd)
      by_cases hq : q = p <;> simp [taken, hq]
    | bad d =>
      have hd : k.pgdirs d = false := (of_decide_eq_true hc).2
      refine .forkLost (.inr fun d hd => by cases hd) (lost_of_eq (p := p) (g := 0) hp (fun q => ?_) rfl rfl
        (fun e => ?_) fun e he => ?_)
      · by_cases hq : q = p <;> simp [taken, hq]
      · by_cases he : e = d <;> simp [taken, he, hd]
      · cases he; exact hd
    | ok d =>
      exact .forked hk (of_decide_eq_true hc).2 (born_inherit hp rfl rfl rfl) fun e => by simp [inherit, taken]

theorem did_clone {c : Slot} {kstack fcn stack : Nat} (hc : (k.proc c).state = RUNNING) :
    k.Did c (.clone kstack fcn stack) (k.clone c kstack fcn stack) := by
  unfold clone
  rcases k.allocproc_cases kstack with ⟨ha, hnone⟩ | ⟨p, hp, ⟨rfl, ha⟩ | ⟨hk, ha⟩⟩
  · rw [ha]
    exact .idle hnone ⟨fun p => .rfl, rfl, rfl, fun d => rfl, fun d hd => by cases hd⟩
  · rw [ha]
    refine .cloneLost (lost_of_eq (p := p) (g := (k.proc p).pgdir) hp (fun q => ?_) rfl rfl (fun d => rfl)
      fun d hd => by cases hd)
    by_cases hq : q = p <;> simp [taken, hq]
  · rw [ha]
    refine .cloned hk hc (p := p) ?_ rfl
    rw [← taken_pgdir (k := k) p kstack EMBRYO c]
    exact born_inherit hp rfl rfl rfl

/-! ### The other calls -/

theorem same_set {c p : Slot} {f : Proc → Proc} (h : Same (k.proc c) (f (k.proc c))) :
    Same (k.proc p) ((k.set c f).proc p) := by
  rw [set_proc]
  split
  · next hp => rw [hp]; exact h
  · exact .rfl

theorem same_wakeup1 (chan : Chan) (p : Slot) : Same (k.proc p) ((k.wakeup1 chan).proc p) := by
  obtain ⟨s, hs, hp⟩ := k.wakeup1_proc chan p
  rw [hp]
  exact ⟨rfl, rfl, rfl, rfl, rfl, rfl, hs.unused_iff, hs.zombie_iff, fun _ => rfl⟩

theorem quiet_of_same {r : Result} (h : ∀ p, Same (k.proc p) (r.k.proc p)) (hn : r.k.nextpid = k.nextpid)
    (hi : r.k.initproc = k.initproc) (hd : r.k.pgdirs = k.pgdirs) (hf : r.freed = none) : k.Quiet r :=
  ⟨h, hn, hi, fun d => by rw [hd], fun d hd => by rw [hf] at hd; cases hd⟩

theorem did_set {c : Slot} {a : Act} {f : Proc → Proc} {ret : Option Int} (hi : k.Idle c a)
    (h : Same (k.proc c) (f (k.proc c))) : k.Did c a { k := k.set c f, ret := ret } :=
  .idle hi (quiet_of_same (fun _ => same_set h) rfl rfl rfl rfl)

theorem did_sleep {c : Slot} {a : Act} {chan : Chan} (hi : k.Idle c a) (hc : (k.proc c).state = RUNNING) :
    k.Did c a { k := k.sleep c chan, ret := none } :=
  did_set hi ⟨rfl, rfl, rfl, rfl, rfl, rfl, by simp [hc], by simp [hc], fun _ => rfl⟩

theorem did_wait {c : Slot} (hc : (k.proc c).state = RUNNING) : k.Did c .wait (k.wait c) := by
  unfold wait
  cases hf : k.waitFinds c with
  | some p =>
    have hp : (k.proc p).parent = some c ∧ (k.proc p).state = ZOMBIE := by simpa using findSlot_some hf
    refine .waited (p := p) ⟨hf, hp.2, hp.1, ?_, fun q hq => ?_, rfl, rfl, fun d => ?_, rfl⟩
    · simp
    · simp [hq]
    · simp
  | none =>
    have hidle : k.Idle c .wait := fun p => by simpa using findSlot_none hf p
    dsimp only
    split
    · exact .idle hidle (quiet_of_same (fun p => .rfl) rfl rfl rfl rfl)
    · exact did_sleep hidle hc

theorem did_join {c : Slot} {word4 : Nat} (hc : (k.proc c).state = RUNNING) :
    k.Did c (.join word4) (k.join c word4) := by
  unfold join
  cases hf : findSlot fun p => k.joinTakes c word4 p ∧ (k.proc p).state = ZOMBIE with
  | some p =>
    have hp : k.joinTakes c word4 p ∧ (k.proc p).state = ZOMBIE := by simpa using findSlot_some hf
    refine .joined (p := p) hp.1 ⟨hp.2, ?_, fun q hq => ?_, rfl, rfl, rfl, rfl⟩
    · simp
    · simp [hq]
  | none =>
    have hidle : k.Idle c (.join word4) := fun p => by simpa using findSlot_none hf p
    exact did_sleep hidle hc

theorem did_kill {c : Slot} {pid : Int} : k.Did c (.kill pid) (k.kill pid) := by
  unfold kill
  cases hf : findSlot fun p => (k.proc p).pid = pid with
  | some p =>
    refine .killed (p := p) ⟨by simpa using findSlot_some hf, ?_, fun q hq => ?_, rfl, rfl, rfl, rfl⟩
    · refine ⟨if (k.proc p).state = SLEEPING then RUNNABLE else (k.proc p).state, ?_, by simp⟩
      split
      · next h => exact .inr ⟨h, rfl⟩
      · exact .inl rfl
    · simp [hq]
  | none =>
    exact .idle (fun p => by simpa using findSlot_none hf p) (quiet_of_same (fun p => .rfl) rfl rfl rfl rfl)

theorem did_exec {c : Slot} {dir : NewDir} {sz entry sp : Nat} {name : List UInt8} (hc : (k.proc c).state = RUNNING)
    (hd : dir.fresh k = true) : k.Did c (.exec dir sz entry sp name) (k.exec c dir sz entry sp name) := by
  cases dir with
  | none => exact .idle (fun d hd => by cases hd) (quiet_of_same (fun p => .rfl) rfl rfl rfl rfl)
  | bad d =>
    have hd : k.pgdirs d = false := (of_decide_eq_true hd).2
    refine .idle (fun d hd => by cases hd) ⟨fun p => .rfl, rfl, rfl, fun e => ?_, fun e he => ?_⟩
    · by_cases he : e = d <;> simp [exec, he, hd]
    · cases he; exact hd
  | ok d =>
    refine .execed ⟨hc, (of_decide_eq_true hd).2, ?_, ?_, fun q hq => ?_, rfl, rfl, fun e => ?_, rfl⟩
    · simp [exec]
    · refine ⟨?_, ?_, ?_, ?_, ?_, ?_, ?_, ?_, ?_⟩ <;> simp [exec]
    · simp [exec, hq]
    · simp [exec]

theorem exit_proc {c : Slot} {r : Result} (h : k.exit c = some r) (p : Slot) :
    ∃ s, Woken (k.proc p).state s ∧ r.k.proc p = { k.proc p with
      parent := if (k.proc p).parent = some c then some k.initproc else (k.proc p).parent
      ofile := if p = c then fun _ => none else (k.proc p).ofile
      cwd := if p = c then none else (k.proc p).cwd
      state := if p = c then ZOMBIE else s } := by
  unfold exit at h
  split at h
  · cases h
  extract_lets k₁ k₂ k₃ k₄ at h
  cases h
  have h₁ : k₁.proc p = { k.proc p with
      ofile := if p = c then fun _ => none else (k.proc p).ofile
      cwd := if p = c then none else (k.proc p).cwd } := by
    by_cases hp : p = c
    · subst hp; simp [k₁]
    · simp [k₁, hp]
  obtain ⟨s₂, hs₂, h₂⟩ : ∃ s, Woken (k₁.proc p).state s ∧ k₂.proc p = { k₁.proc p with state := s } :=
    k₁.wakeup1_proc _ p
  have h₃ : k₃.proc p = { k₂.proc p with
      parent := if (k₂.proc p).parent = some c then some k.initproc else (k₂.proc p).parent } := by
    by_cases hp : (k₂.proc p).parent = some c <;> simp [k₃, hp]
  obtain ⟨s₄, hs₄, h₄⟩ : ∃ s, Woken (k₃.proc p).state s ∧ k₄.proc p = { k₃.proc p with state := s } := by
    by_cases hz : (List.finRange NPROC).any fun p => (k₂.proc p).parent = some c ∧ (k₂.proc p).state = ZOMBIE
    · rw [show k₄ = _ from if_pos hz]; exact k₃.wakeup1_proc _ p
    · rw [show k₄ = _ from if_neg hz]; exact ⟨_, .inl rfl, rfl⟩
  rw [h₁] at hs₂ h₂
  rw [h₂] at h₃
  rw [h₃] at hs₄ h₄
  refine ⟨s₄, hs₂.trans hs₄, ?_⟩
  by_cases hp : p = c
  · subst hp; simp [h₄]
  · simp [h₄, hp]

theorem did_exit {c : Slot} {r : Result} (hc : (k.proc c).state = RUNNING) (h : k.exit c = some r) :
    k.Did c .exit r := by
  have hproc := exit_proc h
  unfold exit at h
  split at h
  · cases h
  next hi =>
  extract_lets k₁ k₂ k₃ k₄ at h
  cases h
  have h₄ : k₄.nextpid = k.nextpid ∧ k₄.initproc = k.initproc ∧ k₄.pgdirs = k.pgdirs := by
    by_cases hz : (List.finRange NPROC).any fun p => (k₂.proc p).parent = some c ∧ (k₂.proc p).state = ZOMBIE
    · rw [show k₄ = _ from if_pos hz]; exact ⟨rfl, rfl, rfl⟩
    · rw [show k₄ = _ from if_neg hz]; exact ⟨rfl, rfl, rfl⟩
  exact .exited ⟨hc, hi, hproc, h₄.1, h₄.2.1, h₄.2.2, rfl⟩

theorem step_did {c : Slot} {a : Act} {r : Result} (h : step k (c, a) = some r) : k.Did c a r := by
  unfold step at h
  split at h
  swap
  · cases h
  next he =>
  cases a with
  | fork kstack copy => cases h; exact did_fork (of_decide_eq_true he).2.1
  | clone kstack fcn stack => cases h; exact did_clone (of_decide_eq_true he).1
  | exit => exact did_exit (of_decide_eq_true he) h
  | wait => cases h; exact did_wait (of_decide_eq_true he)
  | join word4 => cases h; exact did_join (of_decide_eq_true he)
  | exec dir sz entry sp name => cases h; exact did_exec (of_decide_eq_true he).1 (of_decide_eq_true he).2
  | kill pid => cases h; exact did_kill
  | settickets n =>
    simp only [act] at h
    split at h
    · cases h; exact .idle trivial (quiet_of_same (fun p => .rfl) rfl rfl rfl rfl)
    · cases h; exact did_set trivial ⟨rfl, rfl, rfl, rfl, rfl, rfl, .rfl, .rfl, fun _ => rfl⟩
  | sleep chan =>
    have hc : (k.proc c).state = RUNNING := of_decide_eq_true he
    cases h
    exact did_sleep trivial hc
  | wakeup chan => cases h; exact .idle trivial (quiet_of_same (same_wakeup1 _) rfl rfl rfl rfl)
  | yield =>
    have hc : (k.proc c).state = RUNNING := of_decide_eq_true he
    cases h
    exact did_set trivial ⟨rfl, rfl, rfl, rfl, rfl, rfl, by simp [hc], by simp [hc], fun _ => rfl⟩
  | sched =>
    have hc : (k.proc c).state = RUNNABLE := (of_decide_eq_true he).1
    cases h
    exact did_set trivial ⟨rfl, rfl, rfl, rfl, rfl, rfl, by simp [hc], by simp [hc], fun hu => by simp [hc] at hu⟩

end Kernel

theorem next_did {k k' : Kernel} {c : Slot} {a : Act} (h : next k (c, a) = some k') :
    ∃ r, k.Did c a r ∧ r.k = k' := by
  obtain ⟨r, hr, rfl⟩ := Option.map_eq_some_iff.1 h
  exact ⟨r, Kernel.step_did hr, rfl⟩

/-! ### The first process -/

/-- What `userinit` leaves: the first process in slot 0 with page directory `d`, every other slot as it
was at boot. -/
structure Started (d : Nat) (k : Kernel) : Prop where
  state : (k.proc 0).state = RUNNABLE
  pid : (k.proc 0).pid = 1
  parent : (k.proc 0).parent = none
  pgdir : (k.proc 0).pgdir = d
  others : ∀ p, p ≠ 0 → k.proc p = {}
  nextpid : k.nextpid = 2
  initproc : k.initproc = 0
  pgdirs : ∀ e, k.pgdirs e = decide (e = d)

theorem userinit_started {kstack d : Nat} {k : Kernel} (h : userinit kstack d = some k) : Started d k ∧ (k.proc 0).tickets = 1 := by
  have hf : findSlot (fun p => (boot.proc p).state = UNUSED) = some 0 := by decide
  unfold userinit Kernel.allocproc at h
  rw [hf] at h
  by_cases hk : kstack = 0
  · simp [hk] at h
  by_cases hd : d = 0
  · simp [hk, hd] at h
  simp only [hk, hd, if_false, Option.some.injEq] at h
  subst h
  refine ⟨⟨?_, ?_, ?_, ?_, fun p hp => ?_, ?_, ?_, fun e => ?_⟩, ?_⟩ <;> simp [boot]
  simp [hp]

end Ostep.Xv6
