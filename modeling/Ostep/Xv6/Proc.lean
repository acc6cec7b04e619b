import Mathlib.Data.List.FinRange
import Mathlib.Logic.Function.Basic
import Ostep.Lib.CInt
import Ostep.Lib.Run

/-!
# The process table (`src/proc.c`, `src/proc.h`)

A `Slot` is an index into `ptable.proc`; a `struct proc *` is an `Option Slot`, `none` being the null
pointer. Each function of `proc.c` that works on the table is a function on `Kernel`. What they get from
the page allocator is an argument: the kernel stack (0 when `kalloc` fails) and the page directory that
`copyuvm` or `exec` builds (`NewDir`). `pgdirs` records which pages are page directories in use: handed
out by `setupkvm` and not passed to `freevm` since.
-/

namespace Ostep.Xv6

def NPROC : Nat := 64
def NOFILE : Nat := 16
def PGSIZE : Nat := 4096

abbrev Slot := Fin NPROC

instance : NeZero NPROC := ⟨by decide⟩

inductive ProcState where
  | UNUSED | EMBRYO | SLEEPING | RUNNABLE | RUNNING | ZOMBIE
deriving DecidableEq, Repr

open ProcState

/-- What a process sleeps on: nothing, a slot of the table (in `wait` and `join`), another address. -/
inductive Chan where
  | null
  | proc (p : Slot)
  | addr (a : Nat)
deriving DecidableEq, Repr

def Chan.ofPtr : Option Slot → Chan
  | none => .null
  | some p => .proc p

/-- The registers of `struct trapframe` that the process code touches. -/
structure Trapframe where
  eax : Nat := 0
  ebp : Nat := 0
  esp : Nat := 0
  eip : Nat := 0
deriving DecidableEq, Repr

structure Proc where
  sz : Nat := 0
  pgdir : Nat := 0
  kstack : Nat := 0
  state : ProcState := UNUSED
  pid : Int := 0
  parent : Option Slot := none
  tf : Trapframe := {}
  chan : Chan := .null
  killed : Int := 0
  ofile : Nat → Option Nat := fun _ => none
  cwd : Option Nat := none
  name : List UInt8 := []
  inuse : Int := 0
  tickets : Int := 0
  ticks : Int := 0

structure Kernel where
  proc : Slot → Proc
  nextpid : Int
  initproc : Slot
  pgdirs : Nat → Bool

/-- How an attempt to build a page directory ends: `setupkvm` fails, a later step fails and the new
directory goes to `freevm`, or it is complete. -/
inductive NewDir where
  | none
  | bad (d : Nat)
  | ok (d : Nat)
deriving DecidableEq, Repr

/-- The first slot that satisfies `q`, as the loops over `ptable.proc` find it. -/
def findSlot (q : Slot → Bool) : Option Slot := (List.finRange NPROC).find? q

namespace Kernel

def set (k : Kernel) (p : Slot) (f : Proc → Proc) : Kernel :=
  { k with proc := Function.update k.proc p (f (k.proc p)) }

def setDir (k : Kernel) (d : Nat) (b : Bool) : Kernel := { k with pgdirs := Function.update k.pgdirs d b }

def freevm (k : Kernel) (d : Nat) : Kernel := k.setDir d false

section
variable (k : Kernel)

def wakeup1 (chan : Chan) : Kernel :=
  { k with proc := fun p =>
      if (k.proc p).state = SLEEPING ∧ (k.proc p).chan = chan then { k.proc p with state := RUNNABLE }
      else k.proc p }

/-- `allocproc` with `kstack` the result of its `kalloc`. -/
def allocproc (kstack : Nat) : Kernel × Option Slot :=
  match findSlot fun p => (k.proc p).state = UNUSED with
  | none => (k, none)
  | some p =>
    let k₁ := { k.set p fun q => { q with state := EMBRYO, pid := k.nextpid, tickets := 1, inuse := 1 } with
      nextpid := k.nextpid + 1 }
    if kstack = 0 then (k₁.set p fun q => { q with kstack := 0, state := UNUSED }, none)
    else (k₁.set p fun q => { q with kstack := kstack }, some p)

/-- The part that `fork` and `clone` share: what the new process takes from the caller. -/
def inherit (c np : Slot) (pgdir : Nat) (tf : Trapframe) : Kernel :=
  k.set np fun q =>
    { q with
      pgdir := pgdir
      sz := (k.proc c).sz
      parent := some c
      tf := tf
      ofile := fun i => if i < NOFILE ∧ (k.proc c).ofile i ≠ none then (k.proc c).ofile i else q.ofile i
      cwd := (k.proc c).cwd
      name := (k.proc c).name
      state := RUNNABLE
      tickets := (k.proc c).tickets }

/-- The result of a system call: the table, the value it returns (`none`: it sleeps or never
returns) and the page directory it has passed to `freevm`. -/
structure Result where
  k : Kernel
  ret : Option Int
  freed : Option Nat := none

def fork (c : Slot) (kstack : Nat) (copy : NewDir) : Result :=
  match k.allocproc kstack with
  | (k, none) => { k := k, ret := some (-1) }
  | (k, some np) =>
    match copy with
    | .ok d => { k := (k.setDir d true).inherit c np d { (k.proc c).tf with eax := 0 }
                 ret := some (k.proc np).pid }
    | .bad d => { k := (k.set np fun q => { q with pgdir := 0, kstack := 0, state := UNUSED }).freevm d
                  ret := some (-1), freed := some d }
    | .none => { k := k.set np fun q => { q with pgdir := 0, kstack := 0, state := UNUSED }
                 ret := some (-1) }

def clone (c : Slot) (kstack fcn stack : Nat) : Result :=
  match k.allocproc kstack with
  | (k, none) => { k := k, ret := some (-1) }
  | (k, some np) =>
    let esp := (stack + PGSIZE - 12) % 2 ^ 32
    { k := k.inherit c np (k.proc c).pgdir { eax := 0, ebp := esp, esp := esp, eip := fcn }
      ret := some (k.proc np).pid }

/-- `exit`; `none` is `panic("init exiting")`. -/
def exit (c : Slot) : Option Result :=
  if c = k.initproc then none
  else
    let k₁ := k.set c fun q => { q with ofile := fun _ => none, cwd := none }
    let k₂ := k₁.wakeup1 (.ofPtr (k.proc c).parent)
    -- the loop that passes children to init wakes init when one of them is a zombie
    let k₃ := { k₂ with proc := fun p =>
      if (k₂.proc p).parent = some c then { k₂.proc p with parent := some k.initproc } else k₂.proc p }
    let k₄ := if (List.finRange NPROC).any fun p => (k₂.proc p).parent = some c ∧ (k₂.proc p).state = ZOMBIE
      then k₃.wakeup1 (.proc k.initproc) else k₃
    some { k := k₄.set c fun q => { q with state := ZOMBIE }, ret := none }

/-- `sleep(chan, lk)` up to the call of `sched`. -/
def sleep (c : Slot) (chan : Chan) : Kernel := k.set c fun q => { q with chan := chan, state := SLEEPING }

def waitFinds (c : Slot) : Option Slot :=
  findSlot fun p => (k.proc p).parent = some c ∧ (k.proc p).state = ZOMBIE

/-- One pass of the `for(;;)` loop of `wait`. -/
def wait (c : Slot) : Result :=
  match k.waitFinds c with
  | some p =>
    { k := (k.set p fun q => { q with
        kstack := 0, pid := 0, parent := none, name := [], killed := 0, state := UNUSED, tickets := 0,
        ticks := 0, inuse := 0 }).freevm (k.proc p).pgdir
      ret := some (k.proc p).pid
      freed := some (k.proc p).pgdir }
  | none =>
    if ¬ ((List.finRange NPROC).any fun p => (k.proc p).parent = some c) ∨ (k.proc c).killed ≠ 0 then
      { k := k, ret := some (-1) }
    else { k := k.sleep c (.proc c), ret := none }

/-- `p->parent->pgdir`; through a null parent it is the word at address 4, whatever is there. -/
def parentPgdir (word4 : Nat) : Option Slot → Nat
  | none => word4
  | some q => (k.proc q).pgdir

/-- The condition under which the scan of `join` does not skip a slot. -/
def joinTakes (c : Slot) (word4 : Nat) (p : Slot) : Bool :=
  ¬ ((k.proc p).parent ≠ some c ∧ k.parentPgdir word4 (k.proc p).parent ≠ (k.proc p).pgdir)

/-- One pass of the `for(;;)` loop of `join`. -/
def join (c : Slot) (word4 : Nat) : Result :=
  match findSlot fun p => k.joinTakes c word4 p ∧ (k.proc p).state = ZOMBIE with
  | some p => { k := k.set p fun q => { q with state := UNUSED }, ret := some (k.proc p).pid }
  | none => { k := k.sleep c (.proc c), ret := none }

def kill (pid : Int) : Result :=
  match findSlot fun p => (k.proc p).pid = pid with
  | some p =>
    { k := k.set p fun q =>
        { q with killed := 1, state := if q.state = SLEEPING then RUNNABLE else q.state }
      ret := some 0 }
  | none => { k := k, ret := some (-1) }

/-- `exec` from the point where the new image is built or has failed. -/
def exec (c : Slot) (dir : NewDir) (sz entry sp : Nat) (name : List UInt8) : Result :=
  match dir with
  | .ok d =>
    { k := ((k.setDir d true).set c fun q =>
        { q with name := name, pgdir := d, sz := sz, tf := { q.tf with eip := entry, esp := sp } }).freevm
          (k.proc c).pgdir
      ret := some 0
      freed := some (k.proc c).pgdir }
  | .bad d => { k := k.freevm d, ret := some (-1), freed := some d }
  | .none => { k := k, ret := some (-1) }

end

end Kernel

def boot : Kernel := { proc := fun _ => {}, nextpid := 1, initproc := 0, pgdirs := fun _ => false }

/-- `userinit` with the pages it gets; `none` when there are none and the machine stops. -/
def userinit (kstack d : Nat) : Option Kernel :=
  match boot.allocproc kstack with
  | (_, none) => none
  | (k, some p) =>
    if d = 0 then none
    else some { (k.setDir d true).set p fun q => { q with
        pgdir := d, sz := PGSIZE, tf := { esp := PGSIZE, eip := 0 }, name := "initcode".toUTF8.toList,
        cwd := some 1, state := RUNNABLE } with
      initproc := p }

/-! ### Steps -/

/-- What a process does next. `exec` and `fork` carry what the page allocator gives them, `join` the
word it would read through a null pointer. -/
inductive Act where
  | fork (kstack : Nat) (copy : NewDir)
  | clone (kstack fcn stack : Nat)
  | exit
  | wait
  | join (word4 : Nat)
  | exec (dir : NewDir) (sz entry sp : Nat) (name : List UInt8)
  | kill (pid : Int)
  | settickets (n : Int)
  | sleep (chan : Nat)
  | wakeup (chan : Nat)
  | yield
  | sched

/-- `setupkvm` only hands out a page that is not a page directory in use. -/
def NewDir.fresh (k : Kernel) : NewDir → Bool
  | .none => true
  | .bad d => d ≠ 0 ∧ k.pgdirs d = false
  | .ok d => d ≠ 0 ∧ k.pgdirs d = false

/-- `nextpid++` does not overflow, or is not reached. -/
def Kernel.canAlloc (k : Kernel) : Bool :=
  k.nextpid < INT_MAX ∨ findSlot (fun p => (k.proc p).state = UNUSED) = none

/-- When slot `c` can take a step: the scheduler starts a RUNNABLE process, everything else is done by
a RUNNING one, except that interrupts too call `wakeup`. Nothing follows a signed overflow. -/
def enabled (k : Kernel) (c : Slot) : Act → Bool
  | .sched => (k.proc c).state = RUNNABLE ∧ (k.proc c).ticks < INT_MAX
  | .wakeup _ => true
  | .fork _ copy => (k.proc c).state = RUNNING ∧ copy.fresh k ∧ k.canAlloc
  | .clone .. => (k.proc c).state = RUNNING ∧ k.canAlloc
  | .exec dir .. => (k.proc c).state = RUNNING ∧ dir.fresh k
  | _ => (k.proc c).state = RUNNING

open Kernel in
def act (k : Kernel) (c : Slot) : Act → Option Result
  | .fork kstack copy => some (k.fork c kstack copy)
  | .clone kstack fcn stack => some (k.clone c kstack fcn stack)
  | .exit => k.exit c
  | .wait => some (k.wait c)
  | .join word4 => some (k.join c word4)
  | .exec dir sz entry sp name => some (k.exec c dir sz entry sp name)
  | .kill pid => some (k.kill pid)
  | .settickets n =>
    if n < 0 then some { k := k, ret := some (-1) }
    else some { k := k.set c fun q => { q with tickets := n }, ret := some 0 }
  | .sleep chan => some { k := k.sleep c (.addr chan), ret := none }
  | .wakeup chan => some { k := k.wakeup1 (.addr chan), ret := none }
  | .yield => some { k := k.set c fun q => { q with state := RUNNABLE }, ret := none }
  | .sched =>
    some { k := k.set c fun q => { q with state := RUNNING, ticks := q.ticks + 1, chan := .null }, ret := none }

def step (k : Kernel) (a : Slot × Act) : Option Kernel.Result :=
  if enabled k a.1 a.2 then act k a.1 a.2 else none

def next (k : Kernel) (a : Slot × Act) : Option Kernel := (step k a).map (·.k)

end Ostep.Xv6
