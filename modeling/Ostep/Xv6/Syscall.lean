import Ostep.Xv6.Mmu

/-!
# System calls that store through a user pointer (`src/syscall.c`, `src/sysfile.c`, `src/sysproc.c`)

The arguments of a call lie on the user stack, from `esp + 4` on. The handlers of `read`, `fstat`, `pipe`,
`getpinfo` and `clone` are modelled down to the bytes that they store through their pointer: an `Outcome` is
the value returned (`none` when the call does not return) and the stores in order. What a call finds when it
has waited (the contents of a pipe, the typed characters) is part of the state it starts from.
-/

namespace Ostep.Xv6

structure Outcome where
  ret : Option Int
  stores : List (Nat × UInt8) := []

/-- The stores of consecutive bytes from address `a` on. -/
def storeBytes (a : Nat) (bs : List UInt8) : List (Nat × UInt8) := bs.zipIdx.map fun (b, i) => ((a + i) % 2 ^ 32, b)

/-! ### Files -/

def PIPESIZE : Nat := 512
def BSIZE : Nat := 512
def NDEV : Nat := 10
def T_DEV : Int := 3
def CONSOLE : Int := 1

structure Pipe where
  data : Nat → UInt8
  nread : Nat
  nwrite : Nat

/-- How the first loop of `piperead` ends. -/
inductive PipeWait where
  | killed
  | ready (p : Pipe)

/-- What `consoleread` gets next: a character, or a kill while it waits for one. -/
inductive Typed where
  | killed
  | char (c : UInt8)

structure Inode where
  type : Int
  major : Int
  dev : Int
  inum : Int
  nlink : Int
  size : Nat
  /-- The bytes of the file, as `bread` finds them. -/
  data : Nat → UInt8
  typed : List Typed

inductive FileType where
  | none
  | pipe (p : PipeWait)
  | inode (ip : Inode) (off : Nat)

structure File where
  type : FileType
  readable : Bool

/-- The copy loop of `piperead`, with `n` bytes to go at `addr`. -/
def pipeCopy (p : Pipe) : Nat → Nat → List (Nat × UInt8)
  | 0, _ => []
  | n + 1, addr =>
    if p.nread = p.nwrite then []
    else (addr % 2 ^ 32, p.data (p.nread % PIPESIZE)) :: pipeCopy { p with nread := (p.nread + 1) % 2 ^ 32 } n (addr + 1)

def piperead (w : PipeWait) (addr n : Nat) : Outcome :=
  match w with
  | .killed => { ret := some (-1) }
  | .ready p => let st := pipeCopy p n addr; { ret := some st.length, stores := st }

/-- The loop of `consoleread`, with `n` characters to go at `dst` after `done` stored ones. -/
def consoleCopy : List Typed → Nat → Nat → Nat → List (Nat × UInt8) → Outcome
  | _, _, 0, done, st => { ret := some done, stores := st }
  | [], _, _ + 1, _, st => { ret := none, stores := st }
  | .killed :: _, _, _ + 1, _, st => { ret := some (-1), stores := st }
  | .char c :: rest, dst, n + 1, done, st =>
    if c = 4 then { ret := some done, stores := st }
    else if c = 10 then { ret := some (done + 1), stores := st ++ [(dst % 2 ^ 32, c)] }
    else consoleCopy rest (dst + 1) n (done + 1) (st ++ [(dst % 2 ^ 32, c)])

def consoleread (ip : Inode) (dst n : Nat) : Outcome := consoleCopy ip.typed dst n 0 []

/-- The block loop of `readi`, with `n` bytes to go; `fuel` bounds the number of blocks. -/
def readBlocks (data : Nat → UInt8) : Nat → Nat → Nat → Nat → List (Nat × UInt8)
  | 0, _, _, _ => []
  | fuel + 1, dst, off, n =>
    if n = 0 then []
    else
      let m := min n (BSIZE - off % BSIZE)
      storeBytes dst ((List.range m).map fun i => data (off + i)) ++ readBlocks data fuel (dst + m) (off + m) (n - m)

def readi (ip : Inode) (dst off n : Nat) : Outcome :=
  if ip.type = T_DEV then
    if ip.major < 0 ∨ (NDEV : Int) ≤ ip.major ∨ ip.major ≠ CONSOLE then { ret := some (-1) }
    else consoleread ip dst n
  else if ip.size < off ∨ (off + n) % 2 ^ 32 < off then { ret := some (-1) }
  else
    let n := if ip.size < (off + n) % 2 ^ 32 then ip.size - off else n
    { ret := some n, stores := readBlocks ip.data n dst off n }

def fileread (f : File) (addr n : Nat) : Outcome :=
  if f.readable = false then { ret := some (-1) }
  else
    match f.type with
    | .pipe w => piperead w addr n
    | .inode ip off => readi ip addr off n
    | .none => { ret := none }  -- panic("fileread")

def stati (ip : Inode) (st : Nat) : List (Nat × UInt8) :=
  storeBytes (st + 4) (le32 ip.dev) ++ storeBytes (st + 8) (le32 ip.inum) ++
    storeBytes st ((le32 ip.type).take 2) ++ storeBytes (st + 12) ((le32 ip.nlink).take 2) ++
    storeBytes (st + 16) (le32 ip.size)

def filestat (f : File) (st : Nat) : Outcome :=
  match f.type with
  | .inode ip _ => { ret := some 0, stores := stati ip st }
  | _ => { ret := some (-1) }

/-! ### Arguments -/

/-- A process that makes a call: the table and its slot, the memory it sees, the open files, the page that
`kalloc` has for a kernel stack and the two files that `pipealloc` makes. -/
structure Caller where
  k : Kernel
  c : Slot
  mem : Nat → UInt8
  file : Nat → File
  kstack : Nat
  newPipe : Option (Nat × Nat)

namespace Caller

variable (m : Caller)

def sz : Nat := (m.k.proc m.c).sz

def fetchint (addr : Nat) : Option Int :=
  if m.sz ≤ addr ∨ m.sz < (addr + 4) % 2 ^ 32 then none
  else some (ofLe32 (m.mem addr) (m.mem (addr + 1)) (m.mem (addr + 2)) (m.mem (addr + 3)))

def argint (n : Nat) : Option Int := m.fetchint (((m.k.proc m.c).tf.esp + 4 + 4 * n) % 2 ^ 32)

def argptr (n : Nat) (size : Int) : Option Nat :=
  match m.argint n with
  | none => none
  | some i =>
    if size < 0 ∨ m.sz ≤ toUint32 i ∨ m.sz < (toUint32 i + toUint32 size) % 2 ^ 32 then none else some (toUint32 i)

def rawptr (n : Nat) (_ : Int) : Option Nat := (m.argint n).map toUint32

def argfd (n : Nat) : Option File :=
  match m.argint n with
  | none => none
  | some fd => if fd < 0 ∨ (NOFILE : Int) ≤ fd then none else ((m.k.proc m.c).ofile fd.toNat).map m.file

def fdalloc (ofile : Nat → Option Nat) : Option Nat := (List.range NOFILE).find? fun fd => (ofile fd).isNone

/-! ### Handlers

The handlers that check their pointer take the function that fetches it as an argument: `argptr` in the
kernel, and `rawptr` to say what the call would store without the check. -/

section
variable (ptr : Nat → Int → Option Nat)

def sysRead : Outcome :=
  match m.argfd 0, m.argint 2 with
  | some f, some n =>
    match ptr 1 n with
    | some p => fileread f p n.toNat
    | none => { ret := some (-1) }
  | _, _ => { ret := some (-1) }

def sysFstat : Outcome :=
  match m.argfd 0, ptr 1 20 with
  | some f, some st => filestat f st
  | _, _ => { ret := some (-1) }

def sysPipe : Outcome :=
  match ptr 0 8 with
  | none => { ret := some (-1) }
  | some fd =>
    match m.newPipe with
    | none => { ret := some (-1) }
    | some (rf, _) =>
      let ofile := (m.k.proc m.c).ofile
      match fdalloc ofile with
      | none => { ret := some (-1) }
      | some fd0 =>
        match fdalloc (Function.update ofile fd0 (some rf)) with
        | none => { ret := some (-1) }
        | some fd1 => { ret := some 0, stores := storeBytes fd (le32 fd0) ++ storeBytes (fd + 4) (le32 fd1) }

end

def pstatInuse : Nat := 0
def pstatTickets : Nat := 256
def pstatPid : Nat := 512
def pstatTicks : Nat := 768

def getpstat (ps : Nat) : List (Nat × UInt8) :=
  (List.finRange NPROC).flatMap fun p =>
    if (m.k.proc p).state = .UNUSED then []
    else
      storeBytes (ps + pstatInuse + 4 * p) (le32 1) ++
        storeBytes (ps + pstatPid + 4 * p) (le32 (m.k.proc p).pid) ++
        storeBytes (ps + pstatTicks + 4 * p) (le32 (m.k.proc p).ticks) ++
        storeBytes (ps + pstatTickets + 4 * p) (le32 (m.k.proc p).tickets)

def sysGetpinfo : Outcome :=
  match m.argint 0 with
  | none => { ret := some (-1) }
  | some ps => { ret := some 0, stores := m.getpstat (toUint32 ps) }

def sysClone : Outcome :=
  match m.argint 0, m.argint 1, m.argint 2, m.argint 3 with
  | some fcn, some arg1, some arg2, some stack =>
    match (m.k.allocproc m.kstack).2 with
    | none => { ret := some (-1) }
    | some _ =>
      let stack := toUint32 stack
      { ret := (m.k.clone m.c m.kstack (toUint32 fcn) stack).ret
        stores := storeBytes (stack + PGSIZE - 12) (le32 0xFFFFFFFF) ++ storeBytes (stack + PGSIZE - 8) (le32 arg1) ++
          storeBytes (stack + PGSIZE - 4) (le32 arg2) }
  | _, _, _, _ => { ret := some (-1) }

end Caller

/-- The calls that store through a user pointer. -/
inductive Sys where
  | read | fstat | pipe | getpinfo | clone
deriving DecidableEq, Repr

/-- Their numbers in `src/syscall.h`. -/
def Sys.ofNum : Int → Option Sys
  | 4 => some .pipe
  | 5 => some .read
  | 8 => some .fstat
  | 24 => some .getpinfo
  | 27 => some .clone
  | _ => none

/-- The handler, with `ptr` to fetch its pointer where it has a check. -/
def Sys.handler (m : Caller) (ptr : Nat → Int → Option Nat) : Sys → Outcome
  | .read => m.sysRead ptr
  | .fstat => m.sysFstat ptr
  | .pipe => m.sysPipe ptr
  | .getpinfo => m.sysGetpinfo
  | .clone => m.sysClone

end Ostep.Xv6
