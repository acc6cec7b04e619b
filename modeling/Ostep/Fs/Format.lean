import Ostep.Lib.CInt

/-!
# The on-disk format (`fs.h`)

A file system image is its length and its bytes. `xint` and `xshort` are the bytes that `mkfs` writes for a number, lowest
first; `SuperBlock.mem` and `DInode.mem` are the bytes of the two structures in memory.
-/

namespace Ostep.Fs

def ROOTINO : Nat := 1
def BSIZE : Nat := 512
def NDIRECT : Nat := 12
def NINDIRECT : Nat := BSIZE / 4
def MAXFILE : Nat := NDIRECT + NINDIRECT

def T_DIR : Int := 1
def T_FILE : Int := 2
def T_DEV : Int := 3

structure SuperBlock where
  size : Nat
  nblocks : Nat
  ninodes : Nat
  nlog : Nat
  logstart : Nat
  inodestart : Nat
  bmapstart : Nat
deriving DecidableEq

structure DInode where
  type : Int
  major : Int
  minor : Int
  nlink : Int
  size : Nat
  addrs : Nat → Nat

def DInode.zero : DInode := ⟨0, 0, 0, 0, 0, fun _ => 0⟩

/-- Inodes per block. -/
def IPB : Nat := BSIZE / 64

/-- Block containing inode `i`. -/
def IBLOCK (i : Nat) (sb : SuperBlock) : Nat := i / IPB + sb.inodestart

/-- Bitmap bits per block. -/
def BPB : Nat := BSIZE * 8

/-- Block of the free map containing the bit for block `b`. -/
def BBLOCK (b : Nat) (sb : SuperBlock) : Nat := b / BPB + sb.bmapstart

def DIRSIZ : Nat := 14

structure Image where
  len : Nat
  byte : Nat → UInt8

def toInt16 (n : Nat) : Int := if n % 2 ^ 16 < 2 ^ 15 then (n % 2 ^ 16 : Nat) else (n % 2 ^ 16 : Nat) - 2 ^ 16

def toUint16 (n : Int) : Nat := (n % 2 ^ 16).toNat

/-- Byte `k` of a number, the lowest one first. -/
def byteOf (x k : Nat) : UInt8 := UInt8.ofNat (x / 2 ^ (8 * k))

def xint (x : Nat) (k : Nat) : UInt8 := byteOf x k

def xshort (x : Int) (k : Nat) : UInt8 := byteOf (toUint16 x) k

def SuperBlock.word (sb : SuperBlock) : Nat → Nat
  | 0 => sb.size
  | 1 => sb.nblocks
  | 2 => sb.ninodes
  | 3 => sb.nlog
  | 4 => sb.logstart
  | 5 => sb.inodestart
  | 6 => sb.bmapstart
  | _ => 0

def DInode.short (d : DInode) : Nat → Int
  | 0 => d.type
  | 1 => d.major
  | 2 => d.minor
  | _ => d.nlink

def SuperBlock.mem (sb : SuperBlock) (k : Nat) : UInt8 := xint (sb.word (k / 4)) (k % 4)

def DInode.mem (d : DInode) (k : Nat) : UInt8 :=
  if k < 8 then xshort (d.short (k / 2)) (k % 2)
  else if k < 12 then xint d.size (k % 4)
  else xint (d.addrs ((k - 12) / 4)) (k % 4)

/-- A field of a `short` type. -/
def IsShort (n : Int) : Prop := -2 ^ 15 ≤ n ∧ n < 2 ^ 15

instance (n : Int) : Decidable (IsShort n) := inferInstanceAs (Decidable (_ ∧ _))

/-- Fields that fit their types. -/
def SuperBlock.Wf (sb : SuperBlock) : Prop :=
  sb.size < 2 ^ 32 ∧ sb.nblocks < 2 ^ 32 ∧ sb.ninodes < 2 ^ 32 ∧ sb.nlog < 2 ^ 32 ∧ sb.logstart < 2 ^ 32 ∧
    sb.inodestart < 2 ^ 32 ∧ sb.bmapstart < 2 ^ 32

instance (sb : SuperBlock) : Decidable sb.Wf := inferInstanceAs (Decidable (_ ∧ _))

def DInode.Wf (d : DInode) : Prop :=
  IsShort d.type ∧ IsShort d.major ∧ IsShort d.minor ∧ IsShort d.nlink ∧ d.size < 2 ^ 32 ∧ ∀ j < 13, d.addrs j < 2 ^ 32

theorem byteOf_toNat (x k : Nat) : (byteOf x k).toNat = x / 2 ^ (8 * k) % 256 := by
  simp [byteOf]

theorem toInt16_toUint16 {n : Int} (h : IsShort n) : toInt16 (toUint16 n) = n := by
  unfold IsShort at h
  unfold toInt16 toUint16
  split <;> omega

theorem SuperBlock.mem_word (sb : SuperBlock) (w : Nat) {k : Nat} (hk : k < 4) : sb.mem (4 * w + k) = xint (sb.word w) k := by
  rw [SuperBlock.mem, show (4 * w + k) / 4 = w by omega, show (4 * w + k) % 4 = k by omega]

section
variable (d : DInode)

theorem DInode.mem_short (w : Nat) {k : Nat} (hk : k < 2) (hw : w < 4) : d.mem (2 * w + k) = xshort (d.short w) k := by
  rw [DInode.mem, if_pos (by omega), show (2 * w + k) / 2 = w by omega, show (2 * w + k) % 2 = k by omega]

theorem DInode.mem_size {k : Nat} (hk : k < 4) : d.mem (8 + k) = xint d.size k := by
  rw [DInode.mem, if_neg (by omega), if_pos (by omega), show (8 + k) % 4 = k by omega]

theorem DInode.mem_addr (j : Nat) {k : Nat} (hk : k < 4) : d.mem (12 + j * 4 + k) = xint (d.addrs j) k := by
  rw [DInode.mem, if_neg (by omega), if_neg (by omega), show (12 + j * 4 + k - 12) / 4 = j by omega,
    show (12 + j * 4 + k) % 4 = k by omega]

end

end Ostep.Fs
