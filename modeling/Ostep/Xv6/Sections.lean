import Ostep.Xv6.ProcSpec

/-!
# Critical sections of the process table

Here each section of `proc.c` under `ptable.lock` is a step of its own. `fork` and `clone` have two, one in `allocproc` and one at
the end, and between them write to a slot that is an EMBRYO, without the lock; a step of another process may come in between.
`fork_eq_parts` puts the parts together again.
-/

namespace Ostep.Xv6

open ProcState Kernel

/-- The slot that a process in `fork` or `clone` has taken, and whether it has been filled in. -/
structure Taken where
  slot : Slot
  filled : Bool
deriving DecidableEq

structure Table where
  k : Kernel
  taken : Slot → Option Taken

/-- What a process does from one point at which `ptable.lock` is free to another. -/
inductive Part where
  /-- `allocproc` up to `release` -/
  | alloc
  /-- `kalloc` fails in `allocproc` -/
  | noStack
  /-- `copyuvm` fails in `fork` -/
  | noCopy
  /-- the fields of the new process are filled in -/
  | fill (kstack pgdir : Nat) (tf : Trapframe)
  /-- the last section of `fork` and `clone` -/
  | start
  | call (a : Act)

namespace Kernel

variable (k : Kernel)

def allocSection (p : Slot) : Kernel :=
  { k.set p fun q => { q with state := EMBRYO, pid := k.nextpid, tickets := 1, inuse := 1 } with nextpid := k.nextpid + 1 }

def fill (c p : Slot) (kstack pgdir : Nat) (tf : Trapframe) : Kernel :=
  k.set p fun q =>
    { q with
      kstack := kstack
      pgdir := pgdir
      sz := (k.proc c).sz
      parent := some c
      tf := tf
      ofile := fun i => if i < NOFILE ∧ (k.proc c).ofile i ≠ none then (k.proc c).ofile i else q.ofile i
      cwd := (k.proc c).cwd
      name := (k.proc c).name }

def start (c p : Slot) : Kernel := k.set p fun q => { q with state := RUNNABLE, tickets := (k.proc c).tickets }

end Kernel

/-- A process that has taken a slot goes on with its `fork` or `clone`; it may be interrupted. -/
def canCall (s : Table) (c : Slot) : Act → Bool
  | .fork .. | .clone .. => false
  | .yield | .sched | .wakeup _ => true
  | _ => (s.taken c).isNone

def partStep (s : Table) (a : Slot × Part) : Option Table :=
  let (c, part) := a
  match part with
  | .call a => if canCall s c a then (next s.k (c, a)).map fun k => { s with k } else none
  | .alloc =>
    if (s.k.proc c).state = RUNNING ∧ s.taken c = none ∧ s.k.canAlloc then
      match findSlot fun p => (s.k.proc p).state = UNUSED with
      | none => some s
      | some p => some ⟨s.k.allocSection p, Function.update s.taken c (some ⟨p, false⟩)⟩
    else none
  | .noStack =>
    match s.taken c with
    | some ⟨p, false⟩ =>
      if (s.k.proc c).state = RUNNING then
        some ⟨s.k.set p fun q => { q with kstack := 0, state := UNUSED }, Function.update s.taken c none⟩
      else none
    | _ => none
  | .noCopy =>
    match s.taken c with
    | some ⟨p, false⟩ =>
      if (s.k.proc c).state = RUNNING then
        some ⟨s.k.set p fun q => { q with pgdir := 0, kstack := 0, state := UNUSED }, Function.update s.taken c none⟩
      else none
    | _ => none
  | .fill kstack pgdir tf =>
    match s.taken c with
    | some ⟨p, false⟩ =>
      if (s.k.proc c).state = RUNNING then
        some ⟨s.k.fill c p kstack pgdir tf, Function.update s.taken c (some ⟨p, true⟩)⟩
      else none
    | _ => none
  | .start =>
    match s.taken c with
    | some ⟨p, true⟩ =>
      if (s.k.proc c).state = RUNNING then some ⟨s.k.start c p, Function.update s.taken c none⟩ else none
    | _ => none

/-- A `fork` that nobody interrupts, seen as one step. -/
theorem fork_eq_parts {s : Table} {c : Slot} {kstack d : Nat} (hc : (s.k.proc c).state = RUNNING) (ht : s.taken c = none)
    (ha : s.k.canAlloc = true) (hk : kstack ≠ 0) (hfree : ∃ p, (s.k.proc p).state = UNUSED) :
    ∃ t, run partStep s [(c, .alloc), (c, .fill kstack d { (s.k.proc c).tf with eax := 0 }), (c, .start)] = some t ∧
      t.k.proc = (s.k.fork c kstack (.ok d)).k.proc ∧ t.taken = s.taken := by
  cases hp : findSlot fun p => (s.k.proc p).state = UNUSED with
  | none =>
    obtain ⟨p, hfree⟩ := hfree
    have := findSlot_none hp p
    simp [hfree] at this
  | some p =>
    have hun : (s.k.proc p).state = UNUSED := by simpa using findSlot_some hp
    have hcp : c ≠ p := by
      rintro rfl
      rw [hun] at hc
      cases hc
    refine ⟨⟨((s.k.allocSection p).fill c p kstack d { (s.k.proc c).tf with eax := 0 }).start c p, s.taken⟩, ?_, ?_, rfl⟩
    · simp [run, partStep, hc, ht, ha, hp, allocSection, Kernel.fill, hcp]
    · funext q
      by_cases hq : q = p
      · simp [hq, Kernel.fork, Kernel.allocproc, hp, hk, inherit, Kernel.start, Kernel.fill, allocSection, hcp]
      · simp [hq, Kernel.fork, Kernel.allocproc, hp, hk, inherit, Kernel.start, Kernel.fill, allocSection, hcp]

end Ostep.Xv6
