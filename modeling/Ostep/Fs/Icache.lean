import Ostep.Lib.Loop
import Ostep.Fs.Kernel

/-!
# The inode cache and path names (`fs.c`)

An inode in memory is a slot of the cache. One process runs at a time, so that the locks are left out; `ilock` is what it does once
it has the lock. The disk is seen through the buffer cache. Paths and names are C strings without their terminator.
-/

namespace Ostep.Fs.Kernel

def NINODE : Nat := 50

inductive PathPanic where
  /-- A panic in another function. -/
  | fs (p : Panic)
  /-- `iget: no inodes` -/
  | igetNoInodes
  /-- `ilock` -/
  | ilock
  /-- `ilock: no type` -/
  | ilockNoType
  /-- `iunlock` -/
  | iunlock
deriving DecidableEq, Repr

/-- `struct inode` without its device and its lock. -/
structure Inode where
  inum : Nat
  ref : Int
  valid : Bool
  d : DInode

structure World where
  inode : Nat → Inode
  img : Image

def World.set (w : World) (k : Nat) (ip : Inode) : World := { w with inode := Function.update w.inode k ip }

/-! ### Inodes -/

def shortOn (img : Image) (p : Nat) : Int := toInt16 ((img.byte p).toNat + 2 ^ 8 * (img.byte (p + 1)).toNat)

def dinodeOn (img : Image) (p : Nat) : DInode where
  type := shortOn img p
  major := shortOn img (p + 2)
  minor := shortOn img (p + 4)
  nlink := shortOn img (p + 6)
  size := uintAt img (p + 8)
  addrs := fun j => if j < NDIRECT + 1 then uintAt img (p + 12 + j * 4) else 0

/-- The result is the number of the slot: one that holds the inode already, or the first one that nobody refers to. -/
def iget (inum : Nat) (w : World) : Except PathPanic (Nat × World) :=
  match (List.range NINODE).find? fun k => (w.inode k).ref > 0 ∧ (w.inode k).inum = inum with
  | some k => .ok (k, w.set k { w.inode k with ref := (w.inode k).ref + 1 })
  | none =>
    match (List.range NINODE).find? fun k => (w.inode k).ref = 0 with
    | some k => .ok (k, w.set k { w.inode k with inum, ref := 1, valid := false })
    | none => .error .igetNoInodes

def idup (k : Nat) (w : World) : World := w.set k { w.inode k with ref := (w.inode k).ref + 1 }

def ilock (sb : SuperBlock) (k : Nat) (w : World) : Except PathPanic World :=
  let ip := w.inode k
  if ip.ref < 1 then .error .ilock
  else if ip.valid = false then
    let d := dinodeOn w.img (IBLOCK ip.inum sb * BSIZE + ip.inum % IPB * 64)
    if d.type = 0 then .error .ilockNoType else .ok (w.set k { ip with d, valid := true })
  else .ok w

def iunlock (k : Nat) (w : World) : Except PathPanic Unit := if (w.inode k).ref < 1 then .error .iunlock else .ok ()

/-- An inode without links that nobody else refers to is truncated and freed. -/
def freeUnlinked (sb : SuperBlock) (k : Nat) (w : World) : Except PathPanic World :=
  let ip := w.inode k
  if ip.valid = true ∧ ip.d.nlink = 0 ∧ ip.ref = 1 then do
    let (d, img) ← (itrunc sb ip.inum ip.d w.img).mapError .fs
    let d := { d with type := 0 }
    return { w.set k { ip with d, valid := false } with img := iupdate sb ip.inum d img }
  else .ok w

def iput (sb : SuperBlock) (k : Nat) (w : World) : Except PathPanic World := do
  let w ← freeUnlinked sb k w
  return w.set k { w.inode k with ref := (w.inode k).ref - 1 }

def iunlockput (sb : SuperBlock) (k : Nat) (w : World) : Except PathPanic World := do
  iunlock k w
  iput sb k w

/-- `dirlookup` of directory `k`, with the reference to the inode that is found. -/
def dirlookupAt (sb : SuperBlock) (k : Nat) (name : List UInt8) (w : World) : Except PathPanic (Option Nat × World) := do
  let (found, d, img) ← (dirlookup sb (w.inode k).d w.img name).mapError .fs
  let w := { w.set k { w.inode k with d } with img }
  match found with
  | none => return (none, w)
  | some (inum, _) => do
    let (next, w) ← iget inum w
    return (some next, w)

/-! ### Paths -/

def isSlash (c : UInt8) : Bool := c = 47

/-- The next element of the path, cut to `DIRSIZ` bytes, and the rest without leading slashes. -/
def skipelem (path : List UInt8) : Option (List UInt8 × List UInt8) :=
  match path.dropWhile isSlash with
  | [] => none
  | c :: s => some (((c :: s).takeWhile (!isSlash ·)).take DIRSIZ, ((c :: s).dropWhile (!isSlash ·)).dropWhile isSlash)

/-- The end of `namex`: a parent has a name below it. -/
def namexDone (sb : SuperBlock) (nameiparent : Bool) (k : Nat) (w : World) : Except PathPanic (Option (Nat × List UInt8) × World) :=
  if nameiparent then do
    let w ← iput sb k w
    return (none, w)
  else return (some (k, []), w)

/-- The loop of `namex` from slot `k` on. The result is a slot, with the last name when it is the parent's. A pass uses up at least one
byte of the path. -/
def namexFrom (sb : SuperBlock) (nameiparent : Bool) : Nat → Nat → List UInt8 → World → Except PathPanic (Option (Nat × List UInt8) × World)
  | 0, k, _, w => namexDone sb nameiparent k w
  | fuel + 1, k, path, w =>
    match skipelem path with
    | none => namexDone sb nameiparent k w
    | some (name, path) => do
      let w ← ilock sb k w
      if (w.inode k).d.type ≠ T_DIR then
        let w ← iunlockput sb k w
        return (none, w)
      else if nameiparent = true ∧ path = [] then
        -- stop one level early
        iunlock k w
        return (some (k, name), w)
      else
        let (next, w) ← dirlookupAt sb k name w
        let w ← iunlockput sb k w
        match next with
        | none => return (none, w)
        | some next => namexFrom sb nameiparent fuel next path w

def namexStart (cwd : Nat) (path : List UInt8) (w : World) : Except PathPanic (Nat × World) :=
  if path.head?.any isSlash then iget ROOTINO w else .ok (cwd, idup cwd w)

def namex (sb : SuperBlock) (cwd : Nat) (nameiparent : Bool) (path : List UInt8) (w : World) :
    Except PathPanic (Option (Nat × List UInt8) × World) := do
  let (k, w) ← namexStart cwd path w
  namexFrom sb nameiparent path.length k path w

def namei (sb : SuperBlock) (cwd : Nat) (path : List UInt8) (w : World) : Except PathPanic (Option Nat × World) := do
  let (ip, w) ← namex sb cwd false path w
  return (ip.map Prod.fst, w)

def nameiparent (sb : SuperBlock) (cwd : Nat) (path : List UInt8) (w : World) :
    Except PathPanic (Option (Nat × List UInt8) × World) := namex sb cwd true path w

end Ostep.Fs.Kernel
