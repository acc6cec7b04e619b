import Mathlib.Logic.Function.Basic
import Ostep.Lib.CInt
import Ostep.Fs.Format

/-!
# The log (`log.c`)

Blocks are seen through the buffer cache. `Dev` holds what `bread` returns for each block and the single-block writes that have
been sent to the disk, in order. The in-memory header `log.lh` is the list of its `log.lh.n` block numbers.
-/

namespace Ostep.Fs.Log

def MAXOPBLOCKS : Nat := 10
def LOGSIZE : Nat := MAXOPBLOCKS * 3

abbrev Block := Nat → UInt8

structure Dev where
  cache : Nat → Block
  sent : List (Nat × Block)

def bwrite (b : Nat) (dev : Dev) : Dev := { dev with sent := dev.sent ++ [(b, dev.cache b)] }

def copyBlock (dst src : Nat) (dev : Dev) : Dev := { dev with cache := Function.update dev.cache dst (dev.cache src) }

@[simp] theorem bwrite_sent (b : Nat) (dev : Dev) : (bwrite b dev).sent = dev.sent ++ [(b, dev.cache b)] := rfl

@[simp] theorem bwrite_cache (b : Nat) (dev : Dev) : (bwrite b dev).cache = dev.cache := rfl

@[simp] theorem copyBlock_sent (dst src : Nat) (dev : Dev) : (copyBlock dst src dev).sent = dev.sent := rfl

@[simp] theorem copyBlock_cache (dst src : Nat) (dev : Dev) :
    (copyBlock dst src dev).cache = Function.update dev.cache dst (dev.cache src) := rfl

/-! ### The header block -/

def word (h : Block) (i : Nat) : Nat :=
  (h (4 * i)).toNat + 2 ^ 8 * (h (4 * i + 1)).toNat + 2 ^ 16 * (h (4 * i + 2)).toNat + 2 ^ 24 * (h (4 * i + 3)).toNat

/-- `lh->n` -/
def headN (h : Block) : Int := toInt32 (word h 0)

/-- `hb->n` and `hb->block` set from the in-memory header; the other bytes stay. -/
def putHead (lh : List Nat) (h : Block) : Block := fun p =>
  if p < 4 * (lh.length + 1) then byteOf ((lh.length :: lh).getD (p / 4) 0) (p % 4) else h p

/-- The block numbers in a header; more than `LOGSIZE` do not fit in `log.lh.block`. -/
def readHead (h : Block) : Except Stop (List Nat) :=
  if headN h > LOGSIZE then .error .undefined else .ok ((List.range (headN h).toNat).map fun i => word h (i + 1))

def writeHead (start : Nat) (lh : List Nat) (dev : Dev) : Dev :=
  bwrite start { dev with cache := Function.update dev.cache start (putHead lh (dev.cache start)) }

@[simp] theorem writeHead_sent (start : Nat) (lh : List Nat) (dev : Dev) :
    (writeHead start lh dev).sent = dev.sent ++ [(start, putHead lh (dev.cache start))] := by
  simp [writeHead]

@[simp] theorem writeHead_cache (start : Nat) (lh : List Nat) (dev : Dev) :
    (writeHead start lh dev).cache = Function.update dev.cache start (putHead lh (dev.cache start)) := rfl

/-! ### Commit and recovery -/

/-- Copies the modified blocks from the cache to the log. -/
def writeLog (start : Nat) (lh : List Nat) (dev : Dev) : Dev :=
  (List.range lh.length).foldl (fun dev tail =>
    bwrite (start + tail + 1) (copyBlock (start + tail + 1) (lh.getD tail 0) dev)) dev

/-- Copies the committed blocks from the log to their home locations. -/
def installTrans (start : Nat) (lh : List Nat) (dev : Dev) : Dev :=
  (List.range lh.length).foldl (fun dev tail =>
    bwrite (lh.getD tail 0) (copyBlock (lh.getD tail 0) (start + tail + 1) dev)) dev

def commit (start : Nat) (lh : List Nat) (dev : Dev) : Dev :=
  if lh.length > 0 then
    writeHead start [] (installTrans start lh (writeHead start lh (writeLog start lh dev)))
  else dev

def recoverFromLog (start : Nat) (dev : Dev) : Except Stop Dev := do
  let lh ← readHead (dev.cache start)
  return writeHead start [] (installTrans start lh dev)

/-! ### Operations -/

inductive Panic where
  /-- `too big a transaction` -/
  | tooBig
  /-- `log_write outside of trans` -/
  | noTrans
  /-- `log.committing` -/
  | committing
deriving DecidableEq, Repr

/-- `struct log` without its lock, its place and its device. -/
structure LogState where
  size : Nat
  outstanding : Nat
  committing : Bool
  lh : List Nat
deriving DecidableEq, Repr

/-- `begin_op`, once it gets the lock; nothing when it goes to sleep. -/
def beginOp (log : LogState) : Option LogState :=
  if log.committing then none
  else if log.lh.length + (log.outstanding + 1) * MAXOPBLOCKS > LOGSIZE then none
  else some { log with outstanding := log.outstanding + 1 }

/-- `end_op` up to the release of the lock, with `do_commit`. -/
def endOp (log : LogState) : Except Panic (Bool × LogState) :=
  let log := { log with outstanding := log.outstanding - 1 }
  if log.committing then .error .committing
  else if log.outstanding = 0 then .ok (true, { log with committing := true })
  else .ok (false, log)

/-- The tests of `log_write`, which are made without the lock. -/
def logWriteTest (log : LogState) : Except Panic Unit :=
  if log.lh.length ≥ LOGSIZE ∨ (log.lh.length : Int) ≥ (log.size : Int) - 1 then .error .tooBig
  else if log.outstanding < 1 then .error .noTrans
  else .ok ()

/-- The rest of `log_write`: a block that is in the header already is absorbed. -/
def logAppend (b : Nat) (log : LogState) : LogState := if b ∈ log.lh then log else { log with lh := log.lh ++ [b] }

end Ostep.Fs.Log
