import Mathlib.Logic.Function.Basic
import Ostep.Lib.Loop
import Ostep.Fs.Format

/-!
# The checker (`P5/xcheck.c`)

Addresses are offsets in the image. A read outside the image and an index outside `inuse_inode` or `inuse_block` are
`undefined`; an error of the checker is an exit with status 1 and the message it writes. What the two arrays of counters hold
when `malloc` returns them is given by `Malloc`; all of `inodes` is written before it is read.
-/

namespace Ostep.Fs.Xcheck

def fail {α : Type} (msg : String) : Except Stop α := .error (.exit (ascii msg) 1)

/-- What the blocks obtained from `malloc` hold at first. -/
structure Malloc where
  inuseInode : Nat → Int
  inuseBlock : Nat → Int

def byteAt (img : Image) (ptr : Nat) : Except Stop UInt8 :=
  if ptr < img.len then .ok (img.byte ptr) else .error .undefined

/-- The value that `get_int_from_mem` makes of four bytes: the upper three are all shifted by 8. -/
def intOf (b₀ b₁ b₂ b₃ : UInt8) : Nat := b₀.toNat ||| (b₁.toNat <<< 8) ||| (b₂.toNat <<< 8) ||| (b₃.toNat <<< 8)

def getIntFromMem (img : Image) (ptr : Nat) : Except Stop Nat := do
  let b₀ ← byteAt img ptr
  let b₁ ← byteAt img (ptr + 1)
  let b₂ ← byteAt img (ptr + 2)
  let b₃ ← byteAt img (ptr + 3)
  return intOf b₀ b₁ b₂ b₃

def getShortFromMem (img : Image) (ptr : Nat) : Except Stop Int := do
  let b₀ ← byteAt img ptr
  let b₁ ← byteAt img (ptr + 1)
  return toInt16 (b₀.toNat ||| (b₁.toNat <<< 8))

def constructSuperBlock (img : Image) (ptr : Nat) : Except Stop SuperBlock := do
  let size ← getIntFromMem img ptr
  let nblocks ← getIntFromMem img (ptr + 4)
  let ninodes ← getIntFromMem img (ptr + 8)
  let inodestart ← getIntFromMem img (ptr + 20)
  let bmapstart ← getIntFromMem img (ptr + 24)
  return { size, nblocks, ninodes, nlog := 0, logstart := 0, inodestart, bmapstart }

/-- One pass of the loop of `construct_inodes`. -/
def constructInode (img : Image) (ptr : Nat) : Except Stop DInode := do
  let type ← getShortFromMem img ptr
  let major ← getShortFromMem img (ptr + 2)
  let minor ← getShortFromMem img (ptr + 4)
  let nlink ← getShortFromMem img (ptr + 6)
  let size ← getIntFromMem img (ptr + 8)
  let addrs ← forUpTo 13 (fun j addrs => do
    let x ← getIntFromMem img (ptr + 12 + j * 4)
    return Function.update addrs j x) fun _ => 0
  return { type, major, minor, nlink, size, addrs }

structure Table where
  inodes : Nat → DInode
  inuseInode : Nat → Int

def constructInodes (img : Image) (sb : SuperBlock) (m : Malloc) : Except Stop Table :=
  forUpTo sb.ninodes (fun i t => do
    let d ← constructInode img (sb.inodestart * 512 % 2 ^ 32 + i * 64)
    return {
      inodes := Function.update t.inodes i d
      inuseInode := if d.type ≠ 0 then Function.update t.inuseInode i 1 else t.inuseInode }) ⟨fun _ => .zero, m.inuseInode⟩

def checkInodeType (inode : DInode) : Except Stop Unit :=
  if inode.type ≠ T_DEV ∧ inode.type ≠ T_FILE ∧ inode.type ≠ T_DIR ∧ inode.type ≠ 0 then fail "ERROR: bad inode." else .ok ()

def checkInodeDataBlocks (sb : SuperBlock) (inode : DInode) : Except Stop Unit := do
  forUpTo 12 (fun i _ => if inode.addrs i > sb.size then fail "ERROR: bad direct address in inode" else .ok ()) ()
  if inode.addrs 12 > sb.size then fail "ERROR: bad indirect address in inode"

/-- `a[i] += d` on an array of `n` counters. -/
def addAt (n : Nat) (i d : Int) (a : Nat → Int) : Except Stop (Nat → Int) :=
  if 0 ≤ i ∧ i < n then .ok (Function.update a i.toNat (a i.toNat + d)) else .error .undefined

/-- The string that `strncpy(name, ptr, n)` copies. -/
def strncpy (img : Image) : Nat → Nat → Except Stop (List UInt8)
  | _, 0 => .ok []
  | ptr, n + 1 => do
    let b ← byteAt img ptr
    if b = 0 then return []
    let name ← strncpy img (ptr + 1) n
    return b :: name

def dot : List UInt8 := [46]
def dotdot : List UInt8 := [46, 46]

/-- An entry of directory `nodeNum` that is not free. -/
def checkEntry (sb : SuperBlock) (nodeNum : Nat) (inum : Int) (name : List UInt8) (inuse : Nat → Int) :
    Except Stop (Nat → Int) := do
  let inuse ← addAt sb.ninodes inum 1 inuse
  if name = dot then
    if (nodeNum : Int) ≠ inum then fail "ERROR: directory not properly formatted."
    else addAt sb.ninodes inum (-1) inuse
  else if name = dotdot then
    if nodeNum = 1 ∧ (nodeNum : Int) ≠ inum then fail "ERROR: root directory does not exist."
    else addAt sb.ninodes inum (-1) inuse
  else return inuse

/-- The entries of a directory from `dir_ptr` on to the end of the block; the flag tells whether the scan goes on. -/
def checkSlots (img : Image) (sb : SuperBlock) (nodeNum : Nat) : Nat → Nat → (Nat → Int) → Except Stop (Bool × (Nat → Int))
  | 0, _, inuse => .ok (true, inuse)
  | n + 1, dirPtr, inuse => do
    let inum ← getShortFromMem img dirPtr
    let name ← strncpy img (dirPtr + 2) 14
    if inum = 0 then return (false, inuse)
    let inuse ← checkEntry sb nodeNum inum name inuse
    checkSlots img sb nodeNum n (dirPtr + 16) inuse

/-- The direct blocks in the list, up to the first that is missing. -/
def checkBlocks (img : Image) (sb : SuperBlock) (nodeNum : Nat) : List Nat → (Nat → Int) → Except Stop (Nat → Int)
  | [], inuse => .ok inuse
  | addr :: addrs, inuse =>
    if addr = 0 then .ok inuse
    else do
      let (more, inuse) ← checkSlots img sb nodeNum 32 (addr * 512) inuse
      if more then checkBlocks img sb nodeNum addrs inuse else return inuse

def direct (inode : DInode) : List Nat := (List.range 12).map inode.addrs

def checkDir (img : Image) (sb : SuperBlock) (inode : DInode) (nodeNum : Nat) (inuse : Nat → Int) :
    Except Stop (Nat → Int) := do
  let inuse ← if nodeNum ≠ 1 then addAt sb.ninodes nodeNum (-1) inuse else .ok inuse
  checkBlocks img sb nodeNum (direct inode) inuse

/-- The first loop of `check_inodes`. -/
def scanInodes (img : Image) (sb : SuperBlock) (inodes : Nat → DInode) (inuse : Nat → Int) : Except Stop (Nat → Int) :=
  forUpTo sb.ninodes (fun i inuse => do
    checkInodeType (inodes i)
    checkInodeDataBlocks sb (inodes i)
    if (inodes i).type = 0 then return inuse
    else if (inodes i).type = T_DIR then checkDir img sb (inodes i) i inuse
    else addAt sb.ninodes i (-1) inuse) inuse

/-- The test of inode `i` in the second loop. -/
def checkCount (inode : DInode) (count : Int) : Except Stop Unit :=
  if inode.type = 0 then
    if count > 0 then fail "ERROR: inode referred to in directory but marked free." else .ok ()
  else if inode.type = T_DIR then
    if count ≠ 1 then fail "ERROR: directory appears more than once in file system." else .ok ()
  else if inode.type = T_FILE then
    if count ≠ 1 then fail "ERROR: bad reference count for file." else .ok ()
  else
    if count ≠ 1 then fail "ERROR: inode marked use but not found in a directory." else .ok ()

def checkInodes (img : Image) (sb : SuperBlock) (t : Table) : Except Stop Unit := do
  let inuse ← scanInodes img sb t.inodes t.inuseInode
  forUpTo sb.ninodes (fun i _ => checkCount (t.inodes i) (inuse i)) ()

def markEservedBlocks (sb : SuperBlock) (inuse : Nat → Int) : Except Stop (Nat → Int) :=
  forUpTo (sb.bmapstart + 1) (fun i inuse =>
    if i < sb.size then .ok (Function.update inuse i 1) else .error .undefined) inuse

/-- A pointer to block `x`, which must be the first one. -/
def markBlock (sb : SuperBlock) (msg : String) (x : Nat) (inuse : Nat → Int) : Except Stop (Nat → Int) := do
  let inuse ← addAt sb.size x 1 inuse
  if inuse x > 1 then fail msg else return inuse

def markIndirectAdd (img : Image) (sb : SuperBlock) (x : Nat) (inuse : Nat → Int) : Except Stop (Nat → Int) :=
  forUpTo 128 (fun k inuse => do
    let x ← getIntFromMem img (512 * x + k * 4)
    if x ≠ 0 then markBlock sb "ERROR: indirect address used more than once." x inuse else return inuse) inuse

def markInode (img : Image) (sb : SuperBlock) (inode : DInode) (inuse : Nat → Int) : Except Stop (Nat → Int) :=
  forUpTo 13 (fun j inuse => do
    let x := inode.addrs j
    if x ≠ 0 then
      let inuse ← markBlock sb "ERROR: direct address used more than once." x inuse
      if j = 12 then markIndirectAdd img sb x inuse else return inuse
    else return inuse) inuse

def markAdd (img : Image) (sb : SuperBlock) (inodes : Nat → DInode) (inuse : Nat → Int) : Except Stop (Nat → Int) :=
  forUpTo sb.ninodes (fun i inuse => markInode img sb (inodes i) inuse) inuse

def markUsedBlocks (img : Image) (sb : SuperBlock) (inodes : Nat → DInode) (inuse : Nat → Int) : Except Stop (Nat → Int) := do
  let inuse ← markEservedBlocks sb inuse
  markAdd img sb inodes inuse

/-- Bit `j` of a byte of the bitmap, compared with the counter of its block. -/
def checkBit (sb : SuperBlock) (inuse : Nat → Int) (val : UInt8) (i j : Nat) : Except Stop Unit :=
  -- `val` is a signed `char`, but `1 << j` only picks one of its eight bits
  let mask := val.toNat &&& (1 <<< j)
  if ¬ i + j < sb.size then .error .undefined
  else if mask = 0 ∧ inuse (i + j) = 1 then fail "ERROR: address used by inode but marked free in bitmap."
  else if mask > 0 ∧ inuse (i + j) = 0 then fail "ERROR: bitmap marks block in use but it is not in use."
  else .ok ()

/-- The loops over the bytes of the bitmap and their bits. -/
def compareBits (img : Image) (sb : SuperBlock) (inuse : Nat → Int) : Except Stop Unit :=
  forUpTo 125 (fun k _ => do
    let val ← byteAt img (sb.bmapstart * 512 + k)
    forUpTo 8 (fun j _ => checkBit sb inuse val (8 * k) j) ()) ()

def checkBitmap (img : Image) (sb : SuperBlock) (inodes : Nat → DInode) (m : Malloc) : Except Stop Unit := do
  let inuse ← markUsedBlocks img sb inodes m.inuseBlock
  compareBits img sb inuse

def check (m : Malloc) (img : Image) : Except Stop Unit := do
  let sb ← constructSuperBlock img 512
  let t ← constructInodes img sb m
  checkInodes img sb t
  checkBitmap img sb t.inodes m

end Ostep.Fs.Xcheck
