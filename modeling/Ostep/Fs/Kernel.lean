import Mathlib.Logic.Function.Basic
import Ostep.Fs.Format

/-!
# Blocks, inode content and directories in the kernel (`fs.c`)

The disk is an `Image`, seen through the buffer cache: a write is visible at once. The functions take the in-memory inode and the
disk and return them changed, since `bmap` allocates the blocks that are missing, also when they are only read. A panic is an
error.
-/

namespace Ostep.Fs.Kernel

inductive Panic where
  /-- `balloc: out of blocks` -/
  | outOfBlocks
  /-- `bmap: out of range` -/
  | outOfRange
  /-- `dirlookup not DIR` -/
  | notDir
  /-- `dirlookup read` -/
  | read
  /-- `freeing free block` -/
  | freeingFree
deriving DecidableEq, Repr

/-! ### Blocks -/

/-- The byte of the free map that holds the bit of block `b`. -/
def mapByte (sb : SuperBlock) (b : Nat) : Nat := BBLOCK b sb * BSIZE + b % BPB / 8

def inUse (sb : SuperBlock) (img : Image) (b : Nat) : Bool := (img.byte (mapByte sb b)).toNat.testBit (b % 8)

def setInUse (sb : SuperBlock) (b : Nat) (img : Image) : Image where
  len := img.len
  byte := Function.update img.byte (mapByte sb b) (UInt8.ofNat ((img.byte (mapByte sb b)).toNat ||| 1 <<< (b % 8)))

def bzero (b : Nat) (img : Image) : Image where
  len := img.len
  byte := fun p => if p / BSIZE = b then 0 else img.byte p

/-- Allocates the first free block; the two loops go through the blocks in order. -/
def balloc (sb : SuperBlock) (img : Image) : Except Panic (Nat × Image) :=
  match (List.range sb.size).find? fun b => !inUse sb img b with
  | some b => .ok (b, bzero b (setInUse sb b img))
  | none => .error .outOfBlocks

def clearInUse (sb : SuperBlock) (b : Nat) (img : Image) : Image where
  len := img.len
  byte := Function.update img.byte (mapByte sb b) (img.byte (mapByte sb b) &&& ~~~(UInt8.ofNat (1 <<< (b % 8))))

def bfree (sb : SuperBlock) (b : Nat) (img : Image) : Except Panic Image :=
  if inUse sb img b then .ok (clearInUse sb b img) else .error .freeingFree

def uintAt (img : Image) (p : Nat) : Nat :=
  (img.byte p).toNat + 2 ^ 8 * (img.byte (p + 1)).toNat + 2 ^ 16 * (img.byte (p + 2)).toNat + 2 ^ 24 * (img.byte (p + 3)).toNat

def setUint (p x : Nat) (img : Image) : Image where
  len := img.len
  byte := fun q => if p ≤ q ∧ q < p + 4 then byteOf x (q - p) else img.byte q

/-! ### Inode content -/

/-- The disk block of block `bn` of the inode, which is allocated if there is none. -/
def bmap (sb : SuperBlock) (ip : DInode) (img : Image) (bn : Nat) : Except Panic (Nat × DInode × Image) :=
  if bn < NDIRECT then
    if ip.addrs bn = 0 then do
      let (addr, img) ← balloc sb img
      return (addr, { ip with addrs := Function.update ip.addrs bn addr }, img)
    else .ok (ip.addrs bn, ip, img)
  else if bn - NDIRECT < NINDIRECT then do
    let (ind, ip, img) ← if ip.addrs NDIRECT = 0 then do
        let (addr, img) ← balloc sb img
        pure (addr, { ip with addrs := Function.update ip.addrs NDIRECT addr }, img)
      else .ok (ip.addrs NDIRECT, ip, img)
    let p := ind * BSIZE + (bn - NDIRECT) * 4
    if uintAt img p = 0 then do
      let (addr, img) ← balloc sb img
      return (addr, ip, setUint p addr img)
    else return (uintAt img p, ip, img)
  else .error .outOfRange

def bytesFrom (f : Nat → UInt8) (p n : Nat) : List UInt8 := (List.range n).map fun k => f (p + k)

/-- The loop of `readi`, with `rest = n - tot` bytes to go. -/
def readLoop (sb : SuperBlock) : Nat → DInode → Image → Nat → Nat → Except Panic (List UInt8 × DInode × Image)
  | 0, ip, img, _, _ => .ok ([], ip, img)
  | fuel + 1, ip, img, off, rest =>
    if rest = 0 then .ok ([], ip, img)
    else do
      let (addr, ip, img) ← bmap sb ip img (off / BSIZE)
      let m := min rest (BSIZE - off % BSIZE)
      let (dst, ip, img') ← readLoop sb fuel ip img (off + m) (rest - m)
      return (bytesFrom img.byte (addr * BSIZE + off % BSIZE) m ++ dst, ip, img')

/-- `readi` of an inode that is not a device; `none` is the result -1. -/
def readi (sb : SuperBlock) (ip : DInode) (img : Image) (off n : Nat) : Except Panic (Option (List UInt8) × DInode × Image) :=
  if off > ip.size ∨ (off + n) % 2 ^ 32 < off then .ok (none, ip, img)
  else do
    let n := if (off + n) % 2 ^ 32 > ip.size then ip.size - off else n
    let (dst, ip, img) ← readLoop sb n ip img off n
    return (some dst, ip, img)

def store (p : Nat) (src : List UInt8) (img : Image) : Image where
  len := img.len
  byte := fun q => if p ≤ q ∧ q < p + src.length then src.getD (q - p) 0 else img.byte q

def iupdate (sb : SuperBlock) (inum : Nat) (ip : DInode) (img : Image) : Image :=
  store (IBLOCK inum sb * BSIZE + inum % IPB * 64) ((List.range 64).map ip.mem) img

/-- The loop of `writei`, with the bytes still to be written. -/
def writeLoop (sb : SuperBlock) : Nat → DInode → Image → Nat → List UInt8 → Except Panic (DInode × Image × Nat)
  | 0, ip, img, off, _ => .ok (ip, img, off)
  | fuel + 1, ip, img, off, src =>
    if src = [] then .ok (ip, img, off)
    else do
      let (addr, ip, img) ← bmap sb ip img (off / BSIZE)
      let m := min src.length (BSIZE - off % BSIZE)
      writeLoop sb fuel ip (store (addr * BSIZE + off % BSIZE) (src.take m) img) (off + m) (src.drop m)

/-- `writei` of an inode that is not a device; `none` is the result -1. -/
def writei (sb : SuperBlock) (inum : Nat) (ip : DInode) (img : Image) (src : List UInt8) (off : Nat) :
    Except Panic (Option Nat × DInode × Image) :=
  if off > ip.size ∨ (off + src.length) % 2 ^ 32 < off then .ok (none, ip, img)
  else if (off + src.length) % 2 ^ 32 > MAXFILE * BSIZE then .ok (none, ip, img)
  else do
    let (ip, img, off) ← writeLoop sb src.length ip img off src
    if src.length > 0 ∧ off > ip.size then
      let ip := { ip with size := off }
      return (some src.length, ip, iupdate sb inum ip img)
    else return (some src.length, ip, img)

/-- The first loop of `itrunc`. -/
def truncDirect (sb : SuperBlock) : List Nat → DInode → Image → Except Panic (DInode × Image)
  | [], ip, img => .ok (ip, img)
  | i :: is, ip, img =>
    if ip.addrs i ≠ 0 then do
      let img ← bfree sb (ip.addrs i) img
      truncDirect sb is { ip with addrs := Function.update ip.addrs i 0 } img
    else truncDirect sb is ip img

/-- The second one, over the entries of the indirect block. -/
def truncEntries (sb : SuperBlock) (ind : Nat) : List Nat → Image → Except Panic Image
  | [], img => .ok img
  | j :: js, img =>
    if uintAt img (ind * BSIZE + j * 4) ≠ 0 then do
      let img ← bfree sb (uintAt img (ind * BSIZE + j * 4)) img
      truncEntries sb ind js img
    else truncEntries sb ind js img

def itrunc (sb : SuperBlock) (inum : Nat) (ip : DInode) (img : Image) : Except Panic (DInode × Image) := do
  let (ip, img) ← truncDirect sb (List.range NDIRECT) ip img
  let (ip, img) ← if ip.addrs NDIRECT ≠ 0 then do
      let img ← truncEntries sb (ip.addrs NDIRECT) (List.range NINDIRECT) img
      let img ← bfree sb (ip.addrs NDIRECT) img
      pure ({ ip with addrs := Function.update ip.addrs NDIRECT 0 }, img)
    else .ok (ip, img)
  let ip := { ip with size := 0 }
  return (ip, iupdate sb inum ip img)

/-! ### Sequences of calls -/

structure State where
  inode : Nat → DInode
  img : Image

inductive Op where
  | readi (inum off n : Nat)
  | writei (inum : Nat) (src : List UInt8) (off : Nat)
  | itrunc (inum : Nat)

def Op.inum : Op → Nat
  | .readi inum _ _ => inum
  | .writei inum _ _ => inum
  | .itrunc inum => inum

/-- A call. The functions of a device do nothing to the disk. -/
def step (sb : SuperBlock) (s : State) : Op → Except Panic State
  | .readi inum off n =>
    if (s.inode inum).type = T_DEV then .ok s
    else do
      let (_, ip, img) ← readi sb (s.inode inum) s.img off n
      return ⟨Function.update s.inode inum ip, img⟩
  | .writei inum src off =>
    if (s.inode inum).type = T_DEV then .ok s
    else do
      let (_, ip, img) ← writei sb inum (s.inode inum) s.img src off
      return ⟨Function.update s.inode inum ip, img⟩
  | .itrunc inum => do
    let (ip, img) ← itrunc sb inum (s.inode inum) s.img
    return ⟨Function.update s.inode inum ip, img⟩

/-! ### Directories -/

structure Dirent where
  inum : Nat
  name : List UInt8
deriving DecidableEq, Repr

/-- A `struct dirent` as a number and a string. -/
def direntOf (de : List UInt8) : Dirent where
  inum := (de.getD 0 0).toNat + 2 ^ 8 * (de.getD 1 0).toNat
  name := ((de.drop 2).take DIRSIZ).takeWhile fun c => c ≠ 0

/-- `namecmp` finds no difference. -/
def sameName (s t : List UInt8) : Bool := s.take DIRSIZ = t.take DIRSIZ

/-- The loop of `dirlookup` from `off` on: the inode number of the entry and its offset, or nothing. -/
def lookupFrom (sb : SuperBlock) (name : List UInt8) :
    Nat → Nat → DInode → Image → Except Panic (Option (Nat × Nat) × DInode × Image)
  | 0, _, dp, img => .ok (none, dp, img)
  | fuel + 1, off, dp, img =>
    if off < dp.size then do
      let (dst, dp, img) ← readi sb dp img off 16
      match dst with
      | none => .error .read
      | some dst =>
        if dst.length ≠ 16 then .error .read
        else if (direntOf dst).inum = 0 then lookupFrom sb name fuel (off + 16) dp img
        else if sameName name (direntOf dst).name then return (some ((direntOf dst).inum, off), dp, img)
        else lookupFrom sb name fuel (off + 16) dp img
    else .ok (none, dp, img)

def dirlookup (sb : SuperBlock) (dp : DInode) (img : Image) (name : List UInt8) :
    Except Panic (Option (Nat × Nat) × DInode × Image) :=
  if dp.type ≠ T_DIR then .error .notDir else lookupFrom sb name (dp.size + 1) 0 dp img

end Ostep.Fs.Kernel
