import Mathlib.Data.BitVec
import Mathlib.Logic.Function.Basic
import Mathlib.Tactic.Common

/-!
# The console's input (`src/console.c`)

Typed characters go into a ring of 128 bytes with three counters that wrap: `r`, up to which has been read, `w`, up to which lines are
complete, and `e`, up to which the current line has been typed. Each call of `consoleread` copies until a newline, a `^D` or the
end of its buffer, and sleeps when it finds nothing. A call holds `cons.lock` from where it begins or wakes up to where it
sleeps or returns, and `consoleintr` holds it for each character, so a run is a sequence of such sections.
-/

namespace Ostep.Xv6.Console

def INPUT_BUF : Nat := 128

structure Input where
  buf : Nat → UInt8
  r : BitVec 32
  w : BitVec 32
  e : BitVec 32

namespace Input

variable (input : Input)

def killLine : Nat → Input → Input
  | 0, input => input
  | n + 1, input =>
    if input.e ≠ input.w ∧ input.buf ((input.e - 1).toNat % INPUT_BUF) ≠ 10 then killLine n { input with e := input.e - 1 } else input

/-- The body of the loop of `consoleintr`, for the character `c`. -/
def consoleintr (c : Nat) : Input :=
  if c = 16 then input
  else if c = 21 then killLine (input.e - input.w).toNat input
  else if c = 8 ∨ c = 127 then
    if input.e ≠ input.w then { input with e := input.e - 1 } else input
  else if c ≠ 0 ∧ (input.e - input.r).toNat < INPUT_BUF then
    let c := if c = 13 then 10 else c
    let input := { input with
      buf := Function.update input.buf (input.e.toNat % INPUT_BUF) (UInt8.ofNat c)
      e := input.e + 1 }
    if c = 10 ∨ c = 4 ∨ input.e = input.r + BitVec.ofNat 32 INPUT_BUF then { input with w := input.e } else input
  else input

end Input

inductive Outcome where
  | ret (n : Int)
  /-- With so many bytes to go. -/
  | sleep (n : Nat)
deriving DecidableEq

/-- What a call does while it holds the lock. -/
structure Section where
  input : Input
  /-- The bytes stored at `dst`. -/
  copied : List UInt8
  /-- A `^D` has been taken from the ring. -/
  eof : Bool
  outcome : Outcome

/-- `consoleread` with `n` of `target` bytes to go. -/
def consoleread (killed : Bool) (target : Nat) : Nat → Input → Section
  | 0, input => ⟨input, [], false, .ret target⟩
  | n + 1, input =>
    if input.r = input.w then
      if killed then ⟨input, [], false, .ret (-1)⟩ else ⟨input, [], false, .sleep (n + 1)⟩
    else
      let c := input.buf (input.r.toNat % INPUT_BUF)
      let input := { input with r := input.r + 1 }
      if c = 4 then
        if n + 1 < target then ⟨{ input with r := input.r - 1 }, [], false, .ret (target - (n + 1 : Nat))⟩
        else ⟨input, [], true, .ret (target - (n + 1 : Nat))⟩
      else if c = 10 then ⟨input, [c], false, .ret (target - n)⟩
      else
        let s := consoleread killed target n input
        { s with copied := c :: s.copied }

/-! ### Runs -/

/-- A call of `consoleread`: how many bytes it asked for and how many are left, what it has copied, and its result if it has returned. -/
structure Read where
  target : Nat
  left : Nat
  copied : List UInt8
  result : Option Int

structure St where
  input : Input
  reads : List Read
  /-- All characters that have been committed. -/
  committed : List UInt8
  /-- The characters that have been taken from the ring, each with the number of the call. -/
  taken : List (Nat × UInt8)

inductive Action where
  | type (c : Nat)
  /-- A process calls `consoleread`; `killed` is what the call finds in `myproc()->killed`. -/
  | read (n : Int) (killed : Bool)
  /-- A call that has slept goes on. -/
  | resume (k : Nat) (killed : Bool)

def between (buf : Nat → UInt8) (a b : BitVec 32) : List UInt8 :=
  (List.range (b - a).toNat).map fun j => buf ((a.toNat + j) % INPUT_BUF)

def Read.after (read : Read) (c : Section) : Read :=
  match c.outcome with
  | .ret n => { read with left := 0, copied := read.copied ++ c.copied, result := some n }
  | .sleep n => { read with left := n, copied := read.copied ++ c.copied }

/-- What has been taken from the ring. -/
def Section.taken (c : Section) : List UInt8 := c.copied ++ if c.eof then [4] else []

/-- Call `k` takes the lock, unless it has returned. -/
def St.enter (s : St) (k : Nat) (killed : Bool) : Option St :=
  match s.reads[k]? with
  | none => none
  | some read =>
    if read.result = none then
      let c := consoleread killed read.target read.left s.input
      some { s with
        input := c.input
        reads := s.reads.set k (read.after c)
        taken := s.taken ++ c.taken.map fun b => (k, b) }
    else none

def step (s : St) : Action → Option St
  | .type c =>
    let input := s.input.consoleintr c
    some { s with input := input, committed := s.committed ++ between input.buf s.input.w input.w }
  | .read n killed => St.enter { s with reads := s.reads ++ [⟨n.toNat, n.toNat, [], none⟩] } s.reads.length killed
  | .resume k killed => s.enter k killed

/-- All three counters are equal. -/
def St.init (buf : Nat → UInt8) (c : BitVec 32) : St := ⟨⟨buf, c, c, c⟩, [], [], []⟩

end Ostep.Xv6.Console
