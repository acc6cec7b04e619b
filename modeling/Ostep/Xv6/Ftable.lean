import Mathlib.Algebra.BigOperators.Group.Finset.Basic
import Mathlib.Data.Fintype.Prod
import Mathlib.Data.List.FinRange
import Mathlib.Logic.Function.Basic
import Ostep.Xv6.Proc

/-!
# The file table (`src/file.c`, descriptors in `src/sysfile.c` and `src/proc.c`)

`ftable.file[f].ref` counts the references to entry `f`. A step of a process is one section under `ftable.lock` or one write to a
table `ofile`. Between its steps a call may hold references in local variables: those of `open` and `pipe` for which there is no
descriptor yet, and those that it is about to pass to `fileclose`. There are also descriptors without a reference: `dup` sets one
up before it calls `filedup`, and `exit` clears one after it has called `fileclose`.
-/

namespace Ostep.Xv6.Files

def NFILE : Nat := 100

instance : NeZero NFILE := ⟨by decide⟩
instance : NeZero NOFILE := ⟨by decide⟩

abbrev FileId := Fin NFILE
abbrev Fd := Fin NOFILE

inductive Life where
  | unused | embryo | alive | zombie
deriving DecidableEq

/-- Where a process is between two steps. -/
inductive Call where
  | user
  /-- `open` has the entry `f` -/
  | opening (f : FileId)
  /-- `dup` of descriptor `src` has set up `fd` and is about to call `filedup` -/
  | dupping (src fd : Fd) (f : FileId)
  /-- `pipealloc` has one entry -/
  | pipeOne (f0 : FileId)
  /-- `pipealloc` has both -/
  | pipeBoth (f0 f1 : FileId)
  /-- `pipe` has a descriptor for the first -/
  | pipeHalf (fd0 : Fd) (f0 f1 : FileId)
  /-- `fileclose` is still to be called for these -/
  | closing (fs : List FileId)
  /-- `fork` or `clone` is at descriptor `i` of the new process `np` -/
  | forking (np : Slot) (i : Nat)
  /-- it has called `filedup` for that descriptor -/
  | forkHas (np : Slot) (fd : Fd) (f : FileId)
  /-- `exit` is at descriptor `i` -/
  | exiting (i : Nat)
  /-- it has called `fileclose` for descriptor `fd`, which it has still to clear -/
  | exitHas (fd : Fd)

/-- The references in local variables. -/
def Call.held : Call → List FileId
  | .opening f => [f]
  | .pipeOne f0 => [f0]
  | .pipeBoth f0 f1 => [f0, f1]
  | .pipeHalf _ _ f1 => [f1]
  | .closing fs => fs
  | .forkHas _ _ f => [f]
  | _ => []

/-- The descriptor without a reference. -/
def Call.unbacked : Call → Option Fd
  | .dupping _ fd _ => some fd
  | .exitHas fd => some fd
  | _ => none

structure Proc where
  life : Life
  ofile : Fd → Option FileId
  call : Call

structure St where
  ref : FileId → Nat
  proc : Slot → Proc
  panicked : Bool := false

inductive Action where
  | openAlloc | openFd
  | dup (fd : Fd) | filedup
  | pipeFirst | pipeSecond | pipeNoPage | pipeFd0 | pipeFd1
  | close (fd : Fd)
  | fileclose
  | fork | forkFail | forkDup | forkStore | forkDone
  | exit | exitClose | exitClear | exitDone
  /-- `wait` or `join` frees the slot of a process that has exited -/
  | reap (z : Slot)

def filealloc (ref : FileId → Nat) : Option FileId := (List.finRange NFILE).find? fun f => ref f = 0

def fdalloc (ofile : Fd → Option FileId) : Option Fd := (List.finRange NOFILE).find? fun fd => ofile fd = none

namespace St

def set (s : St) (p : Slot) (q : Proc) : St := { s with proc := Function.update s.proc p q }

def setRef (s : St) (f : FileId) (n : Nat) : St := { s with ref := Function.update s.ref f n }

def filedup (s : St) (f : FileId) : St := if s.ref f < 1 then { s with panicked := true } else s.setRef f (s.ref f + 1)

/-- The section of `fileclose`; at 0 the entry is free again. -/
def fileclose (s : St) (f : FileId) : St := if s.ref f < 1 then { s with panicked := true } else s.setRef f (s.ref f - 1)

end St

namespace Proc

def put (q : Proc) (fd : Fd) (f : FileId) : Proc := { q with ofile := Function.update q.ofile fd (some f) }

def clear (q : Proc) (fd : Fd) : Proc := { q with ofile := Function.update q.ofile fd none }

end Proc

/-- A step of process `p`, which is `q`. -/
def act (s : St) (p : Slot) (q : Proc) : Action → Option St
  | .openAlloc =>
    match q.call with
    | .user =>
      match filealloc s.ref with
      | none => some s
      | some f => some ((s.setRef f 1).set p { q with call := .opening f })
    | _ => none
  | .openFd =>
    match q.call with
    | .opening f =>
      match fdalloc q.ofile with
      | none => some (s.set p { q with call := .closing [f] })
      | some fd => some (s.set p { q.put fd f with call := .user })
    | _ => none
  | .dup src =>
    match q.call with
    | .user =>
      match q.ofile src, fdalloc q.ofile with
      | some f, some fd => some (s.set p { q.put fd f with call := .dupping src fd f })
      | _, _ => some s
    | _ => none
  | .filedup =>
    match q.call with
    | .dupping _ _ f => some ((s.filedup f).set p { q with call := .user })
    | _ => none
  | .pipeFirst =>
    match q.call with
    | .user =>
      match filealloc s.ref with
      | none => some s
      | some f => some ((s.setRef f 1).set p { q with call := .pipeOne f })
    | _ => none
  | .pipeSecond =>
    match q.call with
    | .pipeOne f0 =>
      match filealloc s.ref with
      | none => some (s.set p { q with call := .closing [f0] })
      | some f => some ((s.setRef f 1).set p { q with call := .pipeBoth f0 f })
    | _ => none
  | .pipeNoPage =>
    match q.call with
    | .pipeBoth f0 f1 => some (s.set p { q with call := .closing [f0, f1] })
    | _ => none
  | .pipeFd0 =>
    match q.call with
    | .pipeBoth f0 f1 =>
      match fdalloc q.ofile with
      | none => some (s.set p { q with call := .closing [f0, f1] })
      | some fd0 => some (s.set p { q.put fd0 f0 with call := .pipeHalf fd0 f0 f1 })
    | _ => none
  | .pipeFd1 =>
    match q.call with
    | .pipeHalf fd0 f0 f1 =>
      match fdalloc q.ofile with
      | none => some (s.set p { q.clear fd0 with call := .closing [f0, f1] })
      | some fd1 => some (s.set p { q.put fd1 f1 with call := .user })
    | _ => none
  | .close fd =>
    match q.call with
    | .user =>
      match q.ofile fd with
      | none => some s
      | some f => some (s.set p { q.clear fd with call := .closing [f] })
    | _ => none
  | .fileclose =>
    match q.call with
    | .closing (f :: fs) => some ((s.fileclose f).set p { q with call := .closing fs })
    | .closing [] => some (s.set p { q with call := .user })
    | _ => none
  | .fork =>
    match q.call with
    | .user =>
      match findSlot fun np => (s.proc np).life = .unused with
      | none => some s
      | some np => some ((s.set np { s.proc np with life := .embryo }).set p { q with call := .forking np 0 })
    | _ => none
  | .forkFail =>
    match q.call with
    | .forking np 0 => some ((s.set np { s.proc np with life := .unused }).set p { q with call := .user })
    | _ => none
  | .forkDup =>
    match q.call with
    | .forking np i =>
      if h : i < NOFILE then
        match q.ofile ⟨i, h⟩ with
        | none => some (s.set p { q with call := .forking np (i + 1) })
        | some f => some ((s.filedup f).set p { q with call := .forkHas np ⟨i, h⟩ f })
      else none
    | _ => none
  | .forkStore =>
    match q.call with
    | .forkHas np fd f =>
      some ((s.set np ((s.proc np).put fd f)).set p { q with call := .forking np (fd + 1) })
    | _ => none
  | .forkDone =>
    match q.call with
    | .forking np i =>
      if i = NOFILE then some ((s.set np { s.proc np with life := .alive }).set p { q with call := .user }) else none
    | _ => none
  | .exit =>
    match q.call with
    | .user => if p = 0 then none else some (s.set p { q with call := .exiting 0 })
    | _ => none
  | .exitClose =>
    match q.call with
    | .exiting i =>
      if h : i < NOFILE then
        match q.ofile ⟨i, h⟩ with
        | none => some (s.set p { q with call := .exiting (i + 1) })
        | some f => some ((s.fileclose f).set p { q with call := .exitHas ⟨i, h⟩ })
      else none
    | _ => none
  | .exitClear =>
    match q.call with
    | .exitHas fd => some (s.set p { q.clear fd with call := .exiting (fd + 1) })
    | _ => none
  | .exitDone =>
    match q.call with
    | .exiting i => if i = NOFILE then some (s.set p { q with life := .zombie, call := .user }) else none
    | _ => none
  | .reap z =>
    match q.call with
    | .user => if (s.proc z).life = .zombie then some (s.set z { s.proc z with life := .unused }) else none
    | _ => none

def step (s : St) (a : Slot × Action) : Option St :=
  if s.panicked ∨ (s.proc a.1).life ≠ .alive then none else act s a.1 (s.proc a.1) a.2

/-- The first process, which has no open files, in slot 0. -/
def St.init : St where
  ref := fun _ => 0
  proc := fun p => { life := if p = 0 then .alive else .unused, ofile := fun _ => none, call := .user }

/-! ### What is counted -/

/-- The pairs of a process and a descriptor that point at entry `f`. -/
def St.pointing (s : St) (f : FileId) : Finset (Slot × Fd) := {x | (s.proc x.1).ofile x.2 = some f}

/-- Those among them that are backed by a reference. -/
def St.descriptors (s : St) (f : FileId) : Finset (Slot × Fd) := {x ∈ s.pointing f | (s.proc x.1).call.unbacked ≠ some x.2}

/-- The references to entry `f` that calls in progress hold. -/
def St.inCalls (s : St) (f : FileId) : Nat := ∑ p, (s.proc p).call.held.count f

end Ostep.Xv6.Files
