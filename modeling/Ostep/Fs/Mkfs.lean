import Mathlib.Logic.Function.Basic
import Ostep.Fs.Log

/-!
# The image builder (`mkfs.c`)

The image file is an `Image`: empty at first, and a write behind its end makes it longer. Numbers in memory are those that the
bytes stand for, lowest byte first, which is what `xint` and `xshort` are for. A `read` of a block that is not there ends the
program, and so does a failed `assert`; the other system calls succeed, and what goes to the terminal is left out.
-/

namespace Ostep.Fs.Mkfs

def FSSIZE : Nat := 1000
def NINODES : Nat := 200
def nbitmap : Nat := FSSIZE / (BSIZE * 8) + 1
def ninodeblocks : Nat := NINODES / IPB + 1
def nlog : Nat := Log.LOGSIZE
def nmeta : Nat := 2 + nlog + ninodeblocks + nbitmap
def nblocks : Nat := FSSIZE - nmeta

def sb : SuperBlock where
  size := FSSIZE
  nblocks := nblocks
  ninodes := NINODES
  nlog := nlog
  logstart := 2
  inodestart := 2 + nlog
  bmapstart := 2 + nlog + ninodeblocks

inductive Halt where
  | exit (msg : String)
  | assert (cond : String)
deriving DecidableEq, Repr

/-! ### Blocks and inodes -/

def rsect (sec : Nat) (img : Image) : Except Halt (Nat → UInt8) :=
  if sec * BSIZE + BSIZE ≤ img.len then .ok fun k => img.byte (sec * BSIZE + k) else .error (.exit "read")

def wsect (sec : Nat) (buf : Nat → UInt8) (img : Image) : Image where
  len := max img.len (sec * BSIZE + BSIZE)
  byte := fun p => if p / BSIZE = sec then buf (p % BSIZE) else img.byte p

def uintOf (buf : Nat → UInt8) (p : Nat) : Nat :=
  (buf p).toNat + 2 ^ 8 * (buf (p + 1)).toNat + 2 ^ 16 * (buf (p + 2)).toNat + 2 ^ 24 * (buf (p + 3)).toNat

def shortOf (buf : Nat → UInt8) (p : Nat) : Int := toInt16 ((buf p).toNat + 2 ^ 8 * (buf (p + 1)).toNat)

/-- A buffer with the bytes `src 0`, …, `src (n - 1)` from offset `p` on. -/
def bcopy (src : Nat → UInt8) (p n : Nat) (buf : Nat → UInt8) (k : Nat) : UInt8 :=
  if p ≤ k ∧ k < p + n then src (k - p) else buf k

def dinodeOf (buf : Nat → UInt8) (p : Nat) : DInode where
  type := shortOf buf p
  major := shortOf buf (p + 2)
  minor := shortOf buf (p + 4)
  nlink := shortOf buf (p + 6)
  size := uintOf buf (p + 8)
  addrs := fun j => if j < 13 then uintOf buf (p + 12 + j * 4) else 0

def winode (inum : Nat) (ip : DInode) (img : Image) : Except Halt Image := do
  let bn := IBLOCK inum sb
  let buf ← rsect bn img
  return wsect bn (bcopy ip.mem (inum % IPB * 64) 64 buf) img

def rinode (inum : Nat) (img : Image) : Except Halt DInode := do
  let buf ← rsect (IBLOCK inum sb) img
  return dinodeOf buf (inum % IPB * 64)

structure St where
  img : Image
  freeinode : Nat
  freeblock : Nat

def ialloc (type : Int) (s : St) : Except Halt (Nat × St) := do
  let img ← winode s.freeinode ⟨type, 0, 0, 1, 0, fun _ => 0⟩ s.img
  return (s.freeinode, ⟨img, s.freeinode + 1, s.freeblock⟩)

def bitmapOf (used : Nat) : Nat → UInt8 :=
  (List.range used).foldl (fun buf i => Function.update buf (i / 8) (UInt8.ofNat ((buf (i / 8)).toNat ||| 1 <<< (i % 8)))) fun _ => 0

def balloc (used : Nat) (img : Image) : Except Halt Image :=
  if used < BSIZE * 8 then .ok (wsect sb.bmapstart (bitmapOf used) img) else .error (.assert "used < BSIZE*8")

/-! ### Files -/

/-- Entry `k` of the indirect block; a new block if there is none. -/
def entryFor (k : Nat) (din : DInode) (s : St) : Except Halt (Nat × DInode × St) := do
  let indirect ← rsect (din.addrs NDIRECT) s.img
  if uintOf indirect (k * 4) = 0 then
    let indirect := bcopy (xint s.freeblock) (k * 4) 4 indirect
    return (s.freeblock, din, ⟨wsect (din.addrs NDIRECT) indirect s.img, s.freeinode, s.freeblock + 1⟩)
  else return (uintOf indirect (k * 4), din, s)

/-- Block `fbn` of a file, in the loop of `iappend`: allocated if there is none. -/
def blockFor (fbn : Nat) (din : DInode) (s : St) : Except Halt (Nat × DInode × St) :=
  if fbn < NDIRECT then
    if din.addrs fbn = 0 then
      .ok (s.freeblock, { din with addrs := Function.update din.addrs fbn s.freeblock }, { s with freeblock := s.freeblock + 1 })
    else .ok (din.addrs fbn, din, s)
  else if din.addrs NDIRECT = 0 then
    entryFor (fbn - NDIRECT) { din with addrs := Function.update din.addrs NDIRECT s.freeblock } { s with freeblock := s.freeblock + 1 }
  else entryFor (fbn - NDIRECT) din s

/-- The loop of `iappend`, with the bytes still to be written. -/
def iappendLoop : Nat → DInode → St → Nat → List UInt8 → Except Halt (DInode × St × Nat)
  | 0, din, s, off, _ => .ok (din, s, off)
  | fuel + 1, din, s, off, p =>
    if p = [] then .ok (din, s, off)
    else do
      let fbn := off / BSIZE
      if ¬ fbn < MAXFILE then .error (.assert "fbn < MAXFILE")
      let (x, din, s) ← blockFor fbn din s
      let n1 := min p.length ((fbn + 1) * BSIZE - off)
      let buf ← rsect x s.img
      let buf := bcopy (fun k => p.getD k 0) (off - fbn * BSIZE) n1 buf
      iappendLoop fuel din { s with img := wsect x buf s.img } (off + n1) (p.drop n1)

def iappend (inum : Nat) (p : List UInt8) (s : St) : Except Halt St := do
  let din ← rinode inum s.img
  let (din, s, off) ← iappendLoop p.length din s din.size p
  let img ← winode inum { din with size := off } s.img
  return { s with img := img }

def dirent (inum : Nat) (name : List UInt8) : List UInt8 :=
  [xshort inum 0, xshort inum 1] ++ (name ++ List.replicate DIRSIZ 0).take DIRSIZ

/-- An argument of `mkfs`, with what the calls of `read` return until one returns 0. -/
structure HostFile where
  arg : List UInt8
  reads : List (List UInt8)

def HostFile.name (f : HostFile) : List UInt8 := if f.arg.head? = some 95 then f.arg.tail else f.arg

def addFile (rootino : Nat) (s : St) (f : HostFile) : Except Halt St := do
  if 47 ∈ f.arg then .error (.assert "index(argv[i], '/') == 0")
  let (inum, s) ← ialloc T_FILE s
  let s ← iappend rootino (dirent inum f.name) s
  f.reads.foldlM (fun s buf => iappend inum buf s) s

def blank : Image :=
  wsect 1 (bcopy sb.mem 0 28 fun _ => 0) ((List.range FSSIZE).foldl (fun img i => wsect i (fun _ => 0) img) ⟨0, fun _ => 0⟩)

def main (files : List HostFile) : Except Halt Image := do
  let (rootino, s) ← ialloc T_DIR ⟨blank, 1, nmeta⟩
  if rootino ≠ ROOTINO then .error (.assert "rootino == ROOTINO")
  let s ← iappend rootino (dirent rootino [46]) s
  let s ← iappend rootino (dirent rootino [46, 46]) s
  let s ← files.foldlM (addFile rootino) s
  let din ← rinode rootino s.img
  let img ← winode rootino { din with size := (din.size / BSIZE + 1) * BSIZE } s.img
  balloc s.freeblock img

end Ostep.Fs.Mkfs
