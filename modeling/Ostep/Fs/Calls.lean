import Ostep.Fs.Dir
import Ostep.Fs.Icache

/-!
# System calls on paths (`sysfile.c`)

A call runs to its end before the next one starts, and `begin_op` and `end_op` are left out. A process is its current directory and its
descriptors. An open file belongs to one descriptor, since nothing here duplicates descriptors; it is the slot of its inode.
-/

namespace Ostep.Fs.Kernel

def NOFILE : Nat := 16
def NFILE : Nat := 100

inductive CallPanic where
  /-- A panic of a function on inodes or paths. -/
  | path (p : PathPanic)
  /-- A panic of a function on directories. -/
  | dir (p : DirPanic)
  /-- `ialloc: no inodes` -/
  | iallocNoInodes
  /-- `isdirempty: readi` -/
  | isdirempty
  /-- `unlink: nlink < 1` -/
  | unlinkNlink
  /-- `create dots` -/
  | createDots
  /-- `create: dirlink` -/
  | createDirlink
  /-- `init exiting` -/
  | initExiting
  /-- There is no such process to make the call. -/
  | noProcess
deriving DecidableEq, Repr

/-! ### Inodes and directories -/

def short (n : Int) : Int := toInt16 (toUint16 n)

/-- The inode in slot `k` and the disk are changed. -/
def World.write (w : World) (k : Nat) (d : DInode) (img : Image) : World := { w.set k { w.inode k with d } with img }

def iupdateAt (sb : SuperBlock) (k : Nat) (d : DInode) (w : World) : World := w.write k d (iupdate sb (w.inode k).inum d w.img)

def ialloc (sb : SuperBlock) (type : Int) (w : World) : Except CallPanic (Nat × World) :=
  match (List.range sb.ninodes).find? fun inum => 1 ≤ inum ∧ (dinodeOn w.img (IBLOCK inum sb * BSIZE + inum % IPB * 64)).type = 0 with
  | some inum => (iget inum { w with img := iupdate sb inum { DInode.zero with type } w.img }).mapError .path
  | none => .error .iallocNoInodes

/-- The entry goes into the first free slot, when the name is new. -/
def putEntry (sb : SuperBlock) (k : Nat) (name : List UInt8) (inum : Nat) (w : World) : Except CallPanic World := do
  let (off, d, img) ← (freeFrom sb ((w.inode k).d.size + 1) 0 (w.inode k).d w.img).mapError .dir
  let (r, d, img) ← (writei sb (w.inode k).inum d img (direntBytes inum name) off).mapError (.dir ∘ .fs)
  if r = some 16 then return w.write k d img else .error (.dir .dirlink)

def dirlinkAt (sb : SuperBlock) (k : Nat) (name : List UInt8) (inum : Nat) (w : World) : Except CallPanic (Bool × World) := do
  let (found, w) ← (dirlookupAt sb k name w).mapError .path
  match found with
  | some ip => do
    let w ← (iput sb ip w).mapError .path
    return (false, w)
  | none => do
    let w ← putEntry sb k name inum w
    return (true, w)

def emptyFrom (sb : SuperBlock) : Nat → Nat → DInode → Image → Except CallPanic (Bool × DInode × Image)
  | 0, _, dp, img => .ok (true, dp, img)
  | fuel + 1, off, dp, img =>
    if off < dp.size then do
      let (dst, dp, img) ← (readi sb dp img off 16).mapError (.path ∘ .fs)
      match dst with
      | none => .error .isdirempty
      | some dst =>
        if dst.length ≠ 16 then .error .isdirempty
        else if (direntOf dst).inum ≠ 0 then return (false, dp, img)
        else emptyFrom sb fuel (off + 16) dp img
    else .ok (true, dp, img)

/-- Only a directory has to be empty. -/
def removable (sb : SuperBlock) (k : Nat) (w : World) : Except CallPanic (Bool × World) :=
  if (w.inode k).d.type = T_DIR then do
    let (empty, d, img) ← emptyFrom sb ((w.inode k).d.size + 1) (2 * 16) (w.inode k).d w.img
    return (empty, w.write k d img)
  else .ok (true, w)

/-! ### `create` -/

/-- The entries `.` and `..` of the new directory `ip`, and the link to `dp`. -/
def createDots (sb : SuperBlock) (dp ip : Nat) (w : World) : Except CallPanic World := do
  let w := iupdateAt sb dp { (w.inode dp).d with nlink := short ((w.inode dp).d.nlink + 1) } w
  let (ok, w) ← dirlinkAt sb ip [46] (w.inode ip).inum w
  if ok then
    let (ok, w) ← dirlinkAt sb ip [46, 46] (w.inode dp).inum w
    if ok then return w else .error .createDots
  else .error .createDots

def createEntry (sb : SuperBlock) (dp ip : Nat) (name : List UInt8) (w : World) : Except CallPanic World := do
  let (ok, w) ← dirlinkAt sb dp name (w.inode ip).inum w
  if ok then (iunlockput sb dp w).mapError .path else .error .createDirlink

/-- The part of `create` that makes the inode, with `major` and `minor` 0. -/
def createNew (sb : SuperBlock) (dp : Nat) (name : List UInt8) (type : Int) (w : World) : Except CallPanic (Nat × World) := do
  let (ip, w) ← ialloc sb type w
  let w ← (ilock sb ip w).mapError .path
  let w := iupdateAt sb ip { (w.inode ip).d with major := 0, minor := 0, nlink := 1 } w
  if type = T_DIR then
    let w ← createDots sb dp ip w
    let w ← createEntry sb dp ip name w
    return (ip, w)
  else
    let w ← createEntry sb dp ip name w
    return (ip, w)

def create (sb : SuperBlock) (cwd : Nat) (path : List UInt8) (type : Int) (w : World) : Except CallPanic (Option Nat × World) := do
  let (parent, w) ← (nameiparent sb cwd path w).mapError .path
  match parent with
  | none => return (none, w)
  | some (dp, name) => do
    let w ← (ilock sb dp w).mapError .path
    let (found, w) ← (dirlookupAt sb dp name w).mapError .path
    match found with
    | some ip => do
      let w ← (iunlockput sb dp w).mapError .path
      let w ← (ilock sb ip w).mapError .path
      if type = T_FILE ∧ (w.inode ip).d.type = T_FILE then return (some ip, w)
      else
        let w ← (iunlockput sb ip w).mapError .path
        return (none, w)
    | none => do
      let (ip, w) ← createNew sb dp name type w
      return (some ip, w)

/-! ### Processes -/

structure Proc where
  cwd : Nat
  ofile : List (Option Nat)

structure Sys where
  world : World
  procs : List (Option Proc)

def Sys.files (s : Sys) : List Nat := (s.procs.filterMap id).flatMap fun p => p.ofile.filterMap id

inductive Call where
  /-- `open` with `O_CREATE` -/
  | openCreate (path : List UInt8)
  | mkdir (path : List UInt8)
  | link (old new : List UInt8)
  | unlink (path : List UInt8)
  | chdir (path : List UInt8)
  | close (fd : Nat)
  | exit
deriving DecidableEq, Repr

def openInode (sb : SuperBlock) (files ip : Nat) (w : World) (p : Proc) : Except CallPanic (Option Nat × World × Proc) :=
  if files < NFILE ∧ none ∈ p.ofile then do
    (iunlock ip w).mapError .path
    return (some (p.ofile.idxOf none), w, { p with ofile := p.ofile.set (p.ofile.idxOf none) (some ip) })
  else do
    let w ← (iunlockput sb ip w).mapError .path
    return (none, w, p)

def sysOpen (sb : SuperBlock) (files : Nat) (path : List UInt8) (w : World) (p : Proc) : Except CallPanic (Option Nat × World × Proc) := do
  let (ip, w) ← create sb p.cwd path T_FILE w
  match ip with
  | none => return (none, w, p)
  | some ip => openInode sb files ip w p

def sysMkdir (sb : SuperBlock) (path : List UInt8) (w : World) (p : Proc) : Except CallPanic (Option Nat × World × Proc) := do
  let (ip, w) ← create sb p.cwd path T_DIR w
  match ip with
  | none => return (none, w, p)
  | some ip => do
    let w ← (iunlockput sb ip w).mapError .path
    return (some 0, w, p)

def linkBad (sb : SuperBlock) (ip : Nat) (w : World) : Except CallPanic World := do
  let w ← (ilock sb ip w).mapError .path
  let w := iupdateAt sb ip { (w.inode ip).d with nlink := short ((w.inode ip).d.nlink - 1) } w
  (iunlockput sb ip w).mapError .path

def linkEntry (sb : SuperBlock) (cwd : Nat) (new : List UInt8) (ip : Nat) (w : World) : Except CallPanic (Option Nat × World) := do
  let (parent, w) ← (nameiparent sb cwd new w).mapError .path
  match parent with
  | none => do
    let w ← linkBad sb ip w
    return (none, w)
  | some (dp, name) => do
    let w ← (ilock sb dp w).mapError .path
    let (ok, w) ← dirlinkAt sb dp name (w.inode ip).inum w
    let w ← (iunlockput sb dp w).mapError .path
    if ok then
      let w ← (iput sb ip w).mapError .path
      return (some 0, w)
    else
      let w ← linkBad sb ip w
      return (none, w)

def sysLink (sb : SuperBlock) (old new : List UInt8) (w : World) (p : Proc) : Except CallPanic (Option Nat × World × Proc) := do
  let (ip, w) ← (namei sb p.cwd old w).mapError .path
  match ip with
  | none => return (none, w, p)
  | some ip => do
    let w ← (ilock sb ip w).mapError .path
    if (w.inode ip).d.type = T_DIR then
      let w ← (iunlockput sb ip w).mapError .path
      return (none, w, p)
    else
      let w := iupdateAt sb ip { (w.inode ip).d with nlink := short ((w.inode ip).d.nlink + 1) } w
      (iunlock ip w).mapError .path
      let (r, w) ← linkEntry sb p.cwd new ip w
      return (r, w, p)

/-- The part of `sys_unlink` behind its tests. -/
def unlinkFound (sb : SuperBlock) (dp ip off : Nat) (w : World) : Except CallPanic World := do
  let (r, d, img) ← (writei sb (w.inode dp).inum (w.inode dp).d w.img (List.replicate 16 0) off).mapError (.dir ∘ .fs)
  let w := w.write dp d img
  if r ≠ some 16 then .error (.dir .unlink)
  else
    let w := if (w.inode ip).d.type = T_DIR then iupdateAt sb dp { (w.inode dp).d with nlink := short ((w.inode dp).d.nlink - 1) } w else w
    let w ← (iunlockput sb dp w).mapError .path
    let w := iupdateAt sb ip { (w.inode ip).d with nlink := short ((w.inode ip).d.nlink - 1) } w
    (iunlockput sb ip w).mapError .path

def sysUnlink (sb : SuperBlock) (path : List UInt8) (w : World) (p : Proc) : Except CallPanic (Option Nat × World × Proc) := do
  let (parent, w) ← (nameiparent sb p.cwd path w).mapError .path
  match parent with
  | none => return (none, w, p)
  | some (dp, name) => do
    let w ← (ilock sb dp w).mapError .path
    if sameName name [46] ∨ sameName name [46, 46] then
      let w ← (iunlockput sb dp w).mapError .path
      return (none, w, p)
    else
      let (found, d, img) ← (dirlookup sb (w.inode dp).d w.img name).mapError (.path ∘ .fs)
      let w := w.write dp d img
      match found with
      | none => do
        let w ← (iunlockput sb dp w).mapError .path
        return (none, w, p)
      | some (inum, off) => do
        let (ip, w) ← (iget inum w).mapError .path
        let w ← (ilock sb ip w).mapError .path
        if (w.inode ip).d.nlink < 1 then .error .unlinkNlink
        else
          let (empty, w) ← removable sb ip w
          if empty then
            let w ← unlinkFound sb dp ip off w
            return (some 0, w, p)
          else
            let w ← (iunlockput sb ip w).mapError .path
            let w ← (iunlockput sb dp w).mapError .path
            return (none, w, p)

def sysChdir (sb : SuperBlock) (path : List UInt8) (w : World) (p : Proc) : Except CallPanic (Option Nat × World × Proc) := do
  let (ip, w) ← (namei sb p.cwd path w).mapError .path
  match ip with
  | none => return (none, w, p)
  | some ip => do
    let w ← (ilock sb ip w).mapError .path
    if (w.inode ip).d.type ≠ T_DIR then
      let w ← (iunlockput sb ip w).mapError .path
      return (none, w, p)
    else
      (iunlock ip w).mapError .path
      let w ← (iput sb p.cwd w).mapError .path
      return (some 0, w, { p with cwd := ip })

def sysClose (sb : SuperBlock) (fd : Nat) (w : World) (p : Proc) : Except CallPanic (Option Nat × World × Proc) :=
  match p.ofile.getD fd none with
  | none => .ok (none, w, p)
  | some ip => do
    let w ← (iput sb ip w).mapError .path
    return (some 0, w, { p with ofile := p.ofile.set fd none })

def exitProc (sb : SuperBlock) (w : World) (p : Proc) : Except CallPanic World := do
  let w ← ((p.ofile.filterMap id).foldlM (fun w ip => iput sb ip w) w).mapError .path
  (iput sb p.cwd w).mapError .path

def goesOn (x : Except CallPanic (Option Nat × World × Proc)) : Except CallPanic (Option Nat × World × Option Proc) := do
  let (r, w, p) ← x
  return (r, w, some p)

/-- What process `i` does in a call; the first process is `init`. -/
def call (sb : SuperBlock) (s : Sys) (i : Nat) (p : Proc) : Call → Except CallPanic (Option Nat × World × Option Proc)
  | .openCreate path => goesOn (sysOpen sb s.files.length path s.world p)
  | .mkdir path => goesOn (sysMkdir sb path s.world p)
  | .link old new => goesOn (sysLink sb old new s.world p)
  | .unlink path => goesOn (sysUnlink sb path s.world p)
  | .chdir path => goesOn (sysChdir sb path s.world p)
  | .close fd => goesOn (sysClose sb fd s.world p)
  | .exit =>
    if i = 0 then .error .initExiting
    else do
      let w ← exitProc sb s.world p
      return (some 0, w, none)

def syscall (sb : SuperBlock) (s : Sys) (i : Nat) (c : Call) : Except CallPanic (Option Nat × Sys) :=
  match s.procs.getD i none with
  | none => .error .noProcess
  | some p => do
    let (r, w, p) ← call sb s i p c
    return (r, ⟨w, s.procs.set i p⟩)

/-- A call that completes. -/
def callStep (sb : SuperBlock) (s : Sys) (a : Nat × Call) : Option Sys := (syscall sb s a.1 a.2).toOption.map Prod.snd

/-- The processes in the root directory of a disk, without open files. -/
def boot (n : Nat) (img : Image) : Sys where
  world := ⟨fun k => if k = 0 then ⟨ROOTINO, n, false, .zero⟩ else ⟨0, 0, false, .zero⟩, img⟩
  procs := List.replicate n (some ⟨0, List.replicate NOFILE none⟩)

end Ostep.Fs.Kernel
