import Ostep.Lib.Word
import Ostep.Xv6.Vm

/-!
# Loading a program (`src/exec.c` and the functions of `src/vm.c` that it uses)

`exec` builds the new image in a directory of its own (`Vm.dir` is that directory while it is being built), pushes the arguments and
then replaces the caller's directory. The inode is a list of bytes; what the transaction and the inode's lock do is left out, and so is
`switchuvm`, which only loads registers.
-/

namespace Ostep.Xv6

def MAXARG : Nat := 32

def ELF_MAGIC : Nat := 0x464C457F

def ELF_PROG_LOAD : Nat := 1

/-- `readi` on an inode with the contents `file`: the bytes it delivers, `none` for -1. -/
def readiBytes (file : List UInt8) (off n : Nat) : Option (List UInt8) :=
  if file.length < off ∨ (off + n) % 2 ^ 32 < off then none else some ((file.drop off).take n)

structure Elfhdr where
  magic : Nat
  entry : Nat
  phoff : Nat
  phnum : Nat

structure Proghdr where
  type : Nat
  off : Nat
  vaddr : Nat
  filesz : Nat
  memsz : Nat

def bytesAt (bs : List UInt8) (i : Nat) : UInt8 := bs.getD i 0

def Elfhdr.ofBytes (bs : List UInt8) : Elfhdr where
  magic := load (bytesAt bs) 0
  entry := load (bytesAt bs) 24
  phoff := load (bytesAt bs) 28
  phnum := (bytesAt bs 44).toNat + 2 ^ 8 * (bytesAt bs 45).toNat

def Proghdr.ofBytes (bs : List UInt8) : Proghdr where
  type := load (bytesAt bs) 0
  off := load (bytesAt bs) 4
  vaddr := load (bytesAt bs) 8
  filesz := load (bytesAt bs) 16
  memsz := load (bytesAt bs) 20

def ELFHDR : Nat := 52
def PROGHDR : Nat := 32

namespace Vm

/-- Bytes are stored at offset `o` of the page `pa`. -/
def write (vm : Vm) (pa o : Nat) (bs : List UInt8) : Vm :=
  { vm with mem := Function.update vm.mem pa (patch (vm.mem pa) o bs) }

/-- The loop of `loaduvm` from `i` on, with `n` pages to go; `false` is -1. -/
def loadFrom (file : List UInt8) (addr offset sz : Nat) : Nat → Nat → Vm → Except Halt (Vm × Bool)
  | 0, _, vm => .ok (vm, true)
  | k + 1, i, vm =>
    match vm.dir.entryAt ((addr + i) % 2 ^ 32) with
    | none => .error .loadNoPte
    | some e =>
      let n := if sz - i < PGSIZE then sz - i else PGSIZE
      match readiBytes file ((offset + i) % 2 ^ 32) n with
      | none => .ok (vm, false)
      | some bs =>
        let vm := vm.write (PTE_ADDR e) 0 bs
        if bs.length ≠ n then .ok (vm, false) else loadFrom file addr offset sz k (i + PGSIZE) vm

def loaduvm (vm : Vm) (addr : Nat) (file : List UInt8) (offset sz : Nat) : Except Halt (Vm × Bool) :=
  if addr % PGSIZE ≠ 0 then .error .loadAlign else loadFrom file addr offset sz (pageCount 0 sz) 0 vm

def clearpteu (vm : Vm) (uva : Nat) : Except Halt Vm :=
  match vm.dir.entryAt uva with
  | none => .error .clearpteu
  | some e => .ok { vm with dir := vm.dir.setEntry uva e.clearU }

def uva2ka (vm : Vm) (uva : Nat) : Except Halt (Option Nat) :=
  match vm.dir.entryAt uva with
  | none => .error .fault
  | some e =>
    if e.present = false then .ok none
    else if e.user = false then .ok none
    else .ok (some (PTE_ADDR e))

/-- The loop of `copyout`, with the bytes `bs` to go; each round takes at least one of them, so that as many rounds as there are bytes
are enough. -/
def copyFromTo : Nat → Nat → List UInt8 → Vm → Except Halt (Vm × Bool)
  | 0, _, bs, vm => if bs = [] then .ok (vm, true) else .error .diverge
  | k + 1, va, bs, vm =>
    if bs = [] then .ok (vm, true)
    else do
      let va0 := PGROUNDDOWN va
      match ← vm.uva2ka va0 with
      | none => .ok (vm, false)
      | some pa0 =>
        let n := if PGSIZE - (va - va0) > bs.length then bs.length else PGSIZE - (va - va0)
        copyFromTo k ((va0 + PGSIZE) % 2 ^ 32) (bs.drop n) (vm.write pa0 (va - va0) (bs.take n))

/-- `copyout`; `false` is -1. -/
def copyout (vm : Vm) (va : Nat) (bs : List UInt8) : Except Halt (Vm × Bool) := copyFromTo bs.length va bs vm

def bad (kend : Nat) {α : Type} (vm : Vm) (pgdir : Nat) : Except Halt (Vm × Option α) := do
  let vm ← vm.freevm kend pgdir
  .ok (vm, none)

/-- The loop over the program headers with `n` of them to go, the next one at `off`; `none` is `goto bad`. -/
def loadSegments (kend : Nat) (file : List UInt8) : Nat → Nat → Nat → Vm → Except Halt (Vm × Option Nat)
  | 0, _, sz, vm => .ok (vm, some sz)
  | n + 1, off, sz, vm =>
    match readiBytes file off PROGHDR with
    | none => .ok (vm, none)
    | some bs =>
      if bs.length ≠ PROGHDR then .ok (vm, none)
      else
        let ph := Proghdr.ofBytes bs
        if ph.type ≠ ELF_PROG_LOAD then loadSegments kend file n ((off + PROGHDR) % 2 ^ 32) sz vm
        else if ph.memsz < ph.filesz then .ok (vm, none)
        else if (ph.vaddr + ph.memsz) % 2 ^ 32 < ph.vaddr then .ok (vm, none)
        else do
          let (vm, sz) ← vm.allocuvm kend sz ((ph.vaddr + ph.memsz) % 2 ^ 32)
          if sz = 0 then .ok (vm, none)
          else if ph.vaddr % PGSIZE ≠ 0 then .ok (vm, none)
          else
            match ← vm.loaduvm ph.vaddr file ph.off ph.filesz with
            | (vm, false) => .ok (vm, none)
            | (vm, true) => loadSegments kend file n ((off + PROGHDR) % 2 ^ 32) sz vm

/-- What the first half of `exec` has built: the directory's page, the size and the entry point. -/
structure Image where
  pgdir : Nat
  sz : Nat
  entry : Nat

/-- `exec` up to `sp = sz`; `none` when it returns -1, the new directory then being freed. -/
def buildImage (kend data : Nat) (file : List UInt8) (vm : Vm) : Except Halt (Vm × Option Image) :=
  match readiBytes file 0 ELFHDR with
  | none => .ok (vm, none)
  | some bs =>
    if bs.length ≠ ELFHDR then .ok (vm, none)
    else
      let elf := Elfhdr.ofBytes bs
      if elf.magic ≠ ELF_MAGIC then .ok (vm, none)
      else do
        let (vm, pgdir) ← vm.setupkvm kend data
        if pgdir = 0 then .ok (vm, none)
        else
          match ← vm.loadSegments kend file elf.phnum elf.phoff 0 with
          | (vm, none) => vm.bad kend pgdir
          | (vm, some sz) =>
            let sz := PGROUNDUP sz
            let (vm, sz) ← vm.allocuvm kend sz ((sz + 2 * PGSIZE) % 2 ^ 32)
            if sz = 0 then vm.bad kend pgdir
            else do
              let vm ← vm.clearpteu (sz - 2 * PGSIZE)
              .ok (vm, some { pgdir := pgdir, sz := sz, entry := elf.entry })

/-- The loop that pushes the strings: the stack pointer, and the pointers to the copies (`ustack[3..]`); `none` is `goto bad`. -/
def pushStrings : List (List UInt8) → Nat → Nat → List Nat → Vm → Except Halt (Vm × Option (Nat × List Nat))
  | [], _, sp, ptrs, vm => .ok (vm, some (sp, ptrs))
  | s :: argv, argc, sp, ptrs, vm =>
    if MAXARG ≤ argc then .ok (vm, none)
    else do
      let sp := toUint32 (sp - (s.length + 1)) / 4 * 4
      match ← vm.copyout sp (s ++ [0]) with
      | (vm, false) => .ok (vm, none)
      | (vm, true) => pushStrings argv (argc + 1) sp (ptrs ++ [sp]) vm

def ustack (sp : Nat) (ptrs : List Nat) : List Nat :=
  [0xffffffff, ptrs.length, toUint32 (sp - (ptrs.length + 1) * 4)] ++ ptrs ++ [0]

/-- The second half of `exec`: the arguments. The result is the new stack pointer; `none` is `goto bad`. -/
def pushArgs (vm : Vm) (sz : Nat) (argv : List (List UInt8)) : Except Halt (Vm × Option Nat) := do
  match ← vm.pushStrings argv 0 sz [] with
  | (vm, none) => .ok (vm, none)
  | (vm, some (sp, ptrs)) =>
    let sp' := toUint32 (sp - (3 + ptrs.length + 1) * 4)
    match ← vm.copyout sp' ((ustack sp ptrs).flatMap fun w : Nat => le32 w) with
    | (vm, false) => .ok (vm, none)
    | (vm, true) => .ok (vm, some sp')

end Vm

/-- What `safestrcpy` leaves of the last component of `path` in the 16 bytes of `name`. -/
def progName (path : List UInt8) : List UInt8 := (path.reverse.takeWhile (· ≠ 47)).reverse.take 15

/-- `exec(path, argv)` of process `p`, whose directory is `old`; `file` is what `namei` finds. -/
def exec (kend data : Nat) (file : Option (List UInt8)) (path : List UInt8) (argv : List (List UInt8)) (p : Proc) (old : PgDir) (vm : Vm) :
    Except Halt (Vm × Proc × Int) :=
  match file with
  | none => .ok (vm, p, -1)
  | some file => do
    match ← vm.buildImage kend data file with
    | (vm, none) => .ok (vm, p, -1)
    | (vm, some im) =>
      match ← vm.pushArgs im.sz argv with
      | (vm, none) =>
        let vm ← vm.freevm kend im.pgdir
        .ok (vm, p, -1)
      | (vm, some sp) =>
        let p' := { p with
          name := progName path, pgdir := im.pgdir, sz := im.sz, tf := { p.tf with eip := im.entry, esp := sp } }
        let freed ← Vm.freevm kend { vm with dir := old } p.pgdir
        .ok ({ freed with dir := vm.dir }, p', 0)

end Ostep.Xv6
