import Mathlib.Logic.Function.Basic
import Ostep.Lib.Run

/-!
# Pipes (`src/pipe.c`)

`pipewrite`, `piperead` and `pipeclose` hold `p->lock` except while they sleep. What a call does from one point where it has the
lock to the next where it gives it up is a `Section`: it changes the pipe, may wake the sleepers of one channel, and ends in a
return or in a sleep. A process that has been woken goes on with its call in a section of its own. `stored` and `copied` are
histories: the bytes that `pipewrite` has put into the pipe and those that `piperead` has taken out, in order.
-/

namespace Ostep.Xv6.Pipes

def PIPESIZE : Nat := 512

structure Pipe where
  data : Nat → UInt8
  nread : BitVec 32
  nwrite : BitVec 32
  readopen : Bool
  writeopen : Bool

/-- What the processes of a pipe sleep on: `&p->nread` or `&p->nwrite`. -/
inductive Chan where
  | nread
  | nwrite
deriving DecidableEq

/-- A call of which a part is still to be done: the bytes that are not yet stored of the `n` to be written, or the number of bytes
wanted. A negative number counts as 0. -/
inductive Call where
  | write (n : Nat) (rest : List UInt8)
  | read (n : Nat)
deriving DecidableEq

inductive Outcome where
  | ret (r : Int)
  | sleep (chan : Chan) (call : Call)
deriving DecidableEq

structure Section where
  pipe : Pipe
  wakes : Option Chan := none
  outcome : Outcome
  stored : List UInt8 := []
  copied : List UInt8 := []

namespace Pipe

def Full (p : Pipe) : Prop := p.nwrite = p.nread + BitVec.ofNat 32 PIPESIZE

instance (p : Pipe) : Decidable p.Full := inferInstanceAs (Decidable (_ = _))

def put (p : Pipe) (b : UInt8) : Pipe :=
  { p with data := Function.update p.data (p.nwrite.toNat % PIPESIZE) b, nwrite := p.nwrite + 1 }

/-- The `for` loop of `pipewrite` up to a full pipe: the pipe and the bytes that are left. -/
def fill (p : Pipe) : List UInt8 → Pipe × List UInt8
  | [] => (p, [])
  | b :: rest => if p.Full then (p, b :: rest) else (p.put b).fill rest

def copy (p : Pipe) : Nat → Pipe × List UInt8
  | 0 => (p, [])
  | n + 1 =>
    if p.nread = p.nwrite then (p, [])
    else
      let (p', addr) := { p with nread := p.nread + 1 }.copy n
      (p', p.data (p.nread.toNat % PIPESIZE) :: addr)

/-- `pipewrite` with `rest` of its `n` bytes to go. -/
def pipewrite (p : Pipe) (killed : Bool) (n : Nat) (rest : List UInt8) : Section :=
  let (p', left) := p.fill rest
  let stored := rest.take (rest.length - left.length)
  if left = [] then { pipe := p', wakes := some .nread, outcome := .ret n, stored }
  else if p'.readopen = false ∨ killed then { pipe := p', outcome := .ret (-1), stored }
  else { pipe := p', wakes := some .nread, outcome := .sleep .nwrite (.write n left), stored }

def piperead (p : Pipe) (killed : Bool) (n : Nat) : Section :=
  if p.nread = p.nwrite ∧ p.writeopen then
    if killed then { pipe := p, outcome := .ret (-1) } else { pipe := p, outcome := .sleep .nread (.read n) }
  else
    let (p', addr) := p.copy n
    { pipe := p', wakes := some .nwrite, outcome := .ret addr.length, copied := addr }

def pipeclose (p : Pipe) (writable : Bool) : Pipe × Chan :=
  if writable then ({ p with writeopen := false }, .nread) else ({ p with readopen := false }, .nwrite)

/-- `pipeclose` passes the pipe to `kfree`. -/
def Closed (p : Pipe) : Prop := p.readopen = false ∧ p.writeopen = false

instance (p : Pipe) : Decidable p.Closed := inferInstanceAs (Decidable (_ ∧ _))

end Pipe

/-! ### Processes -/

/-- A process as far as the pipe is concerned: the channel it is SLEEPING on, if any, and the call it is in. -/
structure Proc where
  killed : Bool := false
  asleep : Option Chan := none
  call : Option Call := none

structure St (ι : Type) where
  pipe : Pipe
  proc : ι → Proc
  stored : List UInt8 := []
  copied : List UInt8 := []

inductive Action (ι : Type) where
  | write (i : ι) (addr : List UInt8)
  | read (i : ι) (n : Nat)
  /-- A process that has been woken takes the lock again. -/
  | resume (i : ι)
  | close (writable : Bool)
  | kill (i : ι)

def wakeup {ι : Type} (chan : Chan) (proc : ι → Proc) (i : ι) : Proc :=
  if (proc i).asleep = some chan then { proc i with asleep := none } else proc i

def callOf {ι : Type} (s : St ι) : Action ι → Option (ι × Call)
  | .write i addr => if (s.proc i).asleep = none ∧ (s.proc i).call = none then some (i, .write addr.length addr) else none
  | .read i n => if (s.proc i).asleep = none ∧ (s.proc i).call = none then some (i, .read n) else none
  | .resume i => if (s.proc i).asleep = none then (s.proc i).call.map (i, ·) else none
  | _ => none

def Call.enter (p : Pipe) (killed : Bool) : Call → Section
  | .write n rest => p.pipewrite killed n rest
  | .read n => p.piperead killed n

def Outcome.leave (o : Outcome) (q : Proc) : Proc :=
  match o with
  | .ret _ => { q with asleep := none, call := none }
  | .sleep chan call => { q with asleep := some chan, call := some call }

section
variable {ι : Type} [DecidableEq ι]

def St.take (s : St ι) (i : ι) (c : Section) : St ι :=
  let woken := c.wakes.elim s.proc fun chan => wakeup chan s.proc
  { pipe := c.pipe
    proc := Function.update woken i (c.outcome.leave (woken i))
    stored := s.stored ++ c.stored
    copied := s.copied ++ c.copied }

/-- One step. There is none once both ends are closed, since the pipe is no more. -/
def step (s : St ι) (a : Action ι) : Option (St ι) :=
  if s.pipe.Closed then none
  else
    match a with
    | .close writable => some { s with pipe := (s.pipe.pipeclose writable).1, proc := wakeup (s.pipe.pipeclose writable).2 s.proc }
    | .kill i => some { s with proc := Function.update s.proc i { s.proc i with killed := true, asleep := none } }
    | a => (callOf s a).map fun (i, call) => s.take i (call.enter s.pipe (s.proc i).killed)

end

/-- An empty pipe with both ends open, whose counters stand at `c`, and processes that are in no call. -/
def St.init {ι : Type} (c : BitVec 32) (data : Nat → UInt8) (killed : ι → Bool) : St ι where
  pipe := ⟨data, c, c, true, true⟩
  proc := fun i => { killed := killed i }

end Ostep.Xv6.Pipes
