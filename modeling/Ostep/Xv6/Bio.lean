import Ostep.Lib.Dll
import Ostep.Lib.RefCounts
import Ostep.Xv6.Proc

/-!
# The buffer cache (`src/bio.c`, the sleep locks of `src/sleeplock.c`)

A `struct buf *` is a `Ptr`, and the memory gives the contents of `bcache.head` and of the elements of `bcache.buf`. What a process
does is cut into the sections that `bcache.lock` or the spin lock of a sleep lock makes atomic: `bget` up to `release`, the end of
`acquiresleep`, `brelse` up to its `releasesleep`, and the rest of `brelse`. In between the holder of a buffer's sleep lock, or the
disk driver on its behalf, may write the flags of the buffer. The fields `gets` and `puts` are not in the source. They count, for
each buffer, the calls of `bget` that have found it and the calls of `brelse` that have given it back.
-/

namespace Ostep.Xv6.Bio

def NBUF : Nat := 30

abbrev BufId := Fin NBUF

instance : NeZero NBUF := ⟨by decide⟩

def B_DIRTY : UInt32 := 0x4

inductive Ptr where
  | null
  | head
  | buf (b : BufId)
deriving DecidableEq

/-- `pid` is the process whose number is in the lock, `none` for the number 0. -/
structure Sleeplock where
  locked : Bool
  pid : Option Slot
deriving DecidableEq

def initsleeplock : Sleeplock := ⟨false, none⟩

def holdingsleep (lk : Sleeplock) (p : Slot) : Bool := lk.locked && lk.pid = some p

structure Buf where
  flags : UInt32
  dev : UInt32
  blockno : UInt32
  lock : Sleeplock
  refcnt : UInt32
  prev : Ptr
  next : Ptr
deriving DecidableEq

def Buf.Holds (b : Buf) (dev blockno : UInt32) : Prop := b.dev = dev ∧ b.blockno = blockno

instance (b : Buf) (dev blockno : UInt32) : Decidable (b.Holds dev blockno) := inferInstanceAs (Decidable (_ ∧ _))

def Buf.Unused (b : Buf) : Prop := b.refcnt = 0 ∧ b.flags &&& B_DIRTY = 0

instance (b : Buf) : Decidable b.Unused := inferInstanceAs (Decidable (_ ∧ _))

abbrev Mem := Ptr → Buf

namespace Mem

def setNext (m : Mem) (x y : Ptr) : Mem := Function.update m x { m x with next := y }

def setPrev (m : Mem) (x y : Ptr) : Mem := Function.update m x { m x with prev := y }

def setLock (m : Mem) (x : Ptr) (lk : Sleeplock) : Mem := Function.update m x { m x with lock := lk }

def setFlags (m : Mem) (x : Ptr) (flags : UInt32) : Mem := Function.update m x { m x with flags := flags }

def setRefcnt (m : Mem) (x : Ptr) (n : UInt32) : Mem := Function.update m x { m x with refcnt := n }

def linkFront (m : Mem) (b : Ptr) : Mem :=
  let m := m.setNext b (m .head).next
  let m := m.setPrev b .head
  let m := m.setPrev (m .head).next b
  m.setNext .head b

def unlink (m : Mem) (b : Ptr) : Mem :=
  let m := m.setPrev (m b).next (m b).prev
  m.setNext (m b).prev (m b).next

end Mem

def bss : Mem := fun _ => ⟨0, 0, 0, ⟨false, none⟩, 0, .null, .null⟩

def binit (m : Mem) : Mem :=
  let m := m.setPrev .head .head
  let m := m.setNext .head .head
  (List.finRange NBUF).foldl (fun m b => (m.setLock (.buf b) initsleeplock).linkFront (.buf b)) m

/-- How `bget` can fail to return: its panic, or a loop that does not come back to the head. -/
inductive Stop where
  | noBuffers
  | endless
deriving DecidableEq

/-- The part of `bget` under `bcache.lock`. -/
def bget (m : Mem) (dev blockno : UInt32) : Except Stop (Ptr × Mem) :=
  -- Is the block already cached?
  match scan (fun b => (m b).next) .head (fun b => (m b).Holds dev blockno) (NBUF + 1) (m .head).next with
  | none => .error .endless
  | some (some b) => .ok (b, m.setRefcnt b ((m b).refcnt + 1))
  | some none =>
    -- Not cached; recycle an unused buffer.
    match scan (fun b => (m b).prev) .head (fun b => (m b).Unused) (NBUF + 1) (m .head).prev with
    | none => .error .endless
    | some (some b) => .ok (b, Function.update m b { m b with dev := dev, blockno := blockno, flags := 0, refcnt := 1 })
    | some none => .error .noBuffers

/-- The part of `brelse` under `bcache.lock`. -/
def unref (m : Mem) (b : Ptr) : Mem :=
  let m := m.setRefcnt b ((m b).refcnt - 1)
  if (m b).refcnt = 0 then (m.unlink b).linkFront b else m

/-- Where a process is between two steps. -/
inductive Call where
  | outside
  /-- `bget` is in `acquiresleep` -/
  | getting (b : Ptr)
  /-- `brelse` has called `releasesleep` -/
  | releasing (b : Ptr)
deriving DecidableEq

/-- The reference that a call under way has. -/
def Call.ref : Call → Option Ptr
  | .outside => none
  | .getting b => some b
  | .releasing b => some b

structure St where
  mem : Mem
  call : Slot → Call
  gets : Ptr → Nat
  puts : Ptr → Nat

def St.init : St := ⟨binit bss, fun _ => .outside, fun _ => 0, fun _ => 0⟩

inductive Action where
  | bget (dev blockno : UInt32)
  | acquiresleep
  | brelse (b : Ptr)
  | unref
  | setFlags (b : Ptr) (flags : UInt32)

/-- A step of process `p`; a step that would panic is not one. -/
def act (s : St) (p : Slot) : Action → Option St
  | .bget dev blockno =>
    match s.call p, bget s.mem dev blockno with
    | .outside, .ok (b, m) =>
      some { s with mem := m, call := Function.update s.call p (.getting b), gets := Function.update s.gets b (s.gets b + 1) }
    | _, _ => none
  | .acquiresleep =>
    match s.call p with
    | .getting b =>
      if (s.mem b).lock.locked then none
      else some { s with mem := s.mem.setLock b ⟨true, some p⟩, call := Function.update s.call p .outside }
    | _ => none
  | .brelse b =>
    match s.call p with
    | .outside =>
      if holdingsleep (s.mem b).lock p then
        some { s with mem := s.mem.setLock b ⟨false, none⟩, call := Function.update s.call p (.releasing b) }
      else none
    | _ => none
  | .unref =>
    match s.call p with
    | .releasing b =>
      some { s with mem := unref s.mem b, call := Function.update s.call p .outside, puts := Function.update s.puts b (s.puts b + 1) }
    | _ => none
  | .setFlags b flags =>
    match s.call p with
    | .outside => if holdingsleep (s.mem b).lock p then some { s with mem := s.mem.setFlags b flags } else none
    | _ => none

def step (s : St) (a : Slot × Action) : Option St := act s a.1 a.2

end Ostep.Xv6.Bio
