import Ostep.Xv6.Mmu

/-!
# Page tables and user memory (`src/vm.c`, `src/kalloc.c`)

A page directory is a partial map from directory indices to page tables: `none` is a directory entry
without `PTE_P`. `Vm` is one directory together with the free list of `kalloc` and the contents of
physical pages; pages are named by their physical address and 0 is `kalloc`'s failure. A run of the
kernel that ends in `panic`, follows a null entry pointer or never returns is an error (`Halt`).
-/

namespace Ostep.Xv6

inductive Halt where
  /-- `panic("remap")` in `mappages`. -/
  | remap
  /-- `panic("kfree")`. -/
  | kfree
  /-- A null `pte_t *` is dereferenced. -/
  | fault
  /-- A loop that does not end. -/
  | diverge
  /-- `panic("PHYSTOP too high")` in `setupkvm`. -/
  | physTop
  /-- `panic("freevm: no pgdir")`. -/
  | noPgdir
  /-- `panic("copyuvm: pte should exist")`. -/
  | copyNoPte
  /-- `panic("copyuvm: page not present")`. -/
  | copyAbsent
  /-- `panic("loaduvm: addr must be page aligned")`. -/
  | loadAlign
  /-- `panic("loaduvm: address should exist")`. -/
  | loadNoPte
  /-- `panic("clearpteu")`. -/
  | clearpteu
deriving DecidableEq, Repr

def NPDENTRIES : Nat := 1024

structure PgTab where
  frame : Nat
  entry : Nat → Pte

abbrev PgDir := Nat → Option PgTab

namespace PgDir

variable (d : PgDir)

/-- The entry for `va`, when there is a page table for it: what `*walkpgdir(pgdir, va, 0)` reads. -/
def entryAt (va : Nat) : Option Pte := (d (PDX va)).map fun t => t.entry (PTX va)

def setEntry (va : Nat) (e : Pte) : PgDir := fun i =>
  if i = PDX va then (d i).map fun t => { t with entry := Function.update t.entry (PTX va) e } else d i

/-- A zeroed page table in page `pa` for directory index `i`. -/
def addTable (i pa : Nat) : PgDir := Function.update d i (some ⟨pa, fun _ => 0⟩)

def present (va : Nat) : Bool := (d.entryAt va).any Pte.present

def writable (va : Nat) : Bool := (d.entryAt va).any Pte.writable

end PgDir

structure Vm where
  dir : PgDir
  free : List Nat
  mem : Nat → Nat → UInt8

namespace Vm

def memset (vm : Vm) (pa : Nat) (c : UInt8) : Vm := { vm with mem := Function.update vm.mem pa fun _ => c }

def kalloc (vm : Vm) : Vm × Nat :=
  match vm.free with
  | [] => (vm, 0)
  | pa :: rest => ({ vm with free := rest }, pa)

/-- `kfree(P2V(pa))`; `kend` is the physical address of the end of the kernel image. -/
def kfree (kend : Nat) (vm : Vm) (pa : Nat) : Except Halt Vm :=
  if pa % PGSIZE ≠ 0 ∨ pa < kend ∨ PHYSTOP ≤ pa then .error .kfree
  else .ok { vm.memset pa 1 with free := pa :: vm.free }

/-- Whether `walkpgdir` finds the entry for `va` (which `PgDir.entryAt` then reads) or returns 0. -/
def walkpgdir (vm : Vm) (va : Nat) (alloc : Bool) : Vm × Bool :=
  match vm.dir (PDX va) with
  | some _ => (vm, true)
  | none =>
    if alloc = false then (vm, false)
    else
      let (vm, pa) := vm.kalloc
      if pa = 0 then (vm, false)
      else ({ vm.memset pa 0 with dir := vm.dir.addTable (PDX va) pa }, true)

/-- The loop of `mappages` from `a` on, with `n` pages to go after this one; `false` is -1. -/
def mapFrom (perm : Pte) : Nat → Nat → Nat → Vm → Except Halt (Vm × Bool)
  | n, a, pa, vm =>
    match vm.walkpgdir a true with
    | (vm, false) => .ok (vm, false)
    | (vm, true) =>
      if vm.dir.present a then .error .remap
      else
        let vm := { vm with dir := vm.dir.setEntry a (.mk pa perm) }
        match n with
        | 0 => .ok (vm, true)
        | n + 1 => mapFrom perm n ((a + PGSIZE) % 2 ^ 32) ((pa + PGSIZE) % 2 ^ 32) vm

def mappages (vm : Vm) (va size pa : Nat) (perm : Pte) : Except Halt (Vm × Bool) :=
  let a := PGROUNDDOWN va
  let last := PGROUNDDOWN ((va + size + 2 ^ 32 - 1) % 2 ^ 32)
  mapFrom perm ((last + 2 ^ 32 - a) % 2 ^ 32 / PGSIZE) a pa vm

/-- How many values `a` takes in `for(; a < b; a += PGSIZE)`. -/
def pageCount (a b : Nat) : Nat := (b - a + PGSIZE - 1) / PGSIZE

/-- The loop of `deallocuvm`. The first argument bounds the number of iterations: when it is used up
with `a` still below `oldsz`, then `a` has wrapped around and the loop does not end. -/
def deallocFrom (kend oldsz : Nat) : Nat → Nat → Vm → Except Halt Vm
  | 0, a, vm => if a < oldsz then .error .diverge else .ok vm
  | n + 1, a, vm =>
    if a < oldsz then
      match vm.dir.entryAt a with
      | none =>
        let a := (PGADDR (PDX a + 1) + 2 ^ 32 - PGSIZE) % 2 ^ 32
        deallocFrom kend oldsz n ((a + PGSIZE) % 2 ^ 32) vm
      | some e =>
        if e.present then do
          if PTE_ADDR e = 0 then .error .kfree
          let vm ← vm.kfree kend (PTE_ADDR e)
          deallocFrom kend oldsz n ((a + PGSIZE) % 2 ^ 32) { vm with dir := vm.dir.setEntry a 0 }
        else deallocFrom kend oldsz n ((a + PGSIZE) % 2 ^ 32) vm
    else .ok vm

def deallocuvm (kend : Nat) (vm : Vm) (oldsz newsz : Nat) : Except Halt (Vm × Nat) :=
  if oldsz ≤ newsz then .ok (vm, oldsz)
  else do
    let a := PGROUNDUP newsz
    let vm ← deallocFrom kend oldsz (pageCount a oldsz) a vm
    .ok (vm, newsz)

/-- The loop of `allocuvm` from `a` on, with `n` pages to go. -/
def allocFrom (kend oldsz newsz : Nat) : Nat → Nat → Vm → Except Halt (Vm × Nat)
  | 0, _, vm => .ok (vm, newsz)
  | n + 1, a, vm => do
    let (vm, pa) := vm.kalloc
    if pa = 0 then
      let (vm, _) ← deallocuvm kend vm newsz oldsz
      .ok (vm, 0)
    else
      match ← (vm.memset pa 0).mappages a PGSIZE pa (PTE_W ||| PTE_U) with
      | (vm, false) =>
        let (vm, _) ← deallocuvm kend vm newsz oldsz
        let vm ← vm.kfree kend pa
        .ok (vm, 0)
      | (vm, true) => allocFrom kend oldsz newsz n (a + PGSIZE) vm

def allocuvm (kend : Nat) (vm : Vm) (oldsz newsz : Nat) : Except Halt (Vm × Nat) :=
  if KERNBASE ≤ newsz then .ok (vm, 0)
  else if newsz < oldsz then .ok (vm, oldsz)
  else
    let a := PGROUNDUP oldsz
    allocFrom kend oldsz newsz (pageCount a newsz) a vm

/-- `growproc(n)` of a process with size `sz`: the new size and the value returned. -/
def growproc (kend : Nat) (vm : Vm) (sz : Nat) (n : Int) : Except Halt (Vm × Nat × Int) :=
  if 0 < n then do
    let (vm, sz') ← allocuvm kend vm sz (toUint32 (sz + n))
    if sz' = 0 then .ok (vm, sz, -1) else .ok (vm, sz', 0)
  else if n < 0 then do
    let (vm, sz') ← deallocuvm kend vm sz (toUint32 (sz + n))
    if sz' = 0 then .ok (vm, sz, -1) else .ok (vm, sz', 0)
  else .ok (vm, sz, 0)

/-! ### Whole directories -/

/-- The loop of `freevm` over the directory entries `is`. -/
def freeTables (kend : Nat) (vm : Vm) (is : List Nat) : Except Halt Vm :=
  is.foldlM (fun vm i =>
    match vm.dir i with
    | none => .ok vm
    | some t => vm.kfree kend t.frame) vm

/-- `freevm` for the directory `vm.dir`, which is stored in the page `pgdir`. -/
def freevm (kend : Nat) (vm : Vm) (pgdir : Nat) : Except Halt Vm :=
  if pgdir = 0 then .error .noPgdir
  else do
    let (vm, _) ← vm.deallocuvm kend KERNBASE 0
    let vm ← vm.freeTables kend (List.range NPDENTRIES)
    vm.kfree kend pgdir

structure KMap where
  virt : Nat
  phys_start : Nat
  phys_end : Nat
  perm : Pte

/-- The kernel's mappings, with `data` the physical address of the symbol of that name. -/
def kmap (data : Nat) : List KMap :=
  [{ virt := KERNBASE, phys_start := 0, phys_end := EXTMEM, perm := PTE_W },
   { virt := KERNLINK, phys_start := EXTMEM, phys_end := data, perm := 0 },
   { virt := KERNBASE + data, phys_start := data, phys_end := PHYSTOP, perm := PTE_W },
   { virt := DEVSPACE, phys_start := DEVSPACE, phys_end := 0, perm := PTE_W }]

def mapRows : List KMap → Vm → Except Halt (Vm × Bool)
  | [], vm => .ok (vm, true)
  | k :: ks, vm => do
    match ← vm.mappages k.virt ((k.phys_end + 2 ^ 32 - k.phys_start) % 2 ^ 32) k.phys_start k.perm with
    | (vm, false) => .ok (vm, false)
    | (vm, true) => mapRows ks vm

/-- `setupkvm`: the new directory is the one of the result, stored in the page returned (0 on failure). -/
def setupkvm (kend data : Nat) (vm : Vm) : Except Halt (Vm × Nat) :=
  let (vm, pgdir) := vm.kalloc
  if pgdir = 0 then .ok (vm, 0)
  else if DEVSPACE < KERNBASE + PHYSTOP then .error .physTop
  else do
    match ← mapRows (kmap data) { vm.memset pgdir 0 with dir := fun _ => none } with
    | (vm, true) => .ok (vm, pgdir)
    | (vm, false) =>
      let vm ← vm.freevm kend pgdir
      .ok (vm, 0)

def movePage (vm : Vm) (dst src : Nat) : Vm := { vm with mem := Function.update vm.mem dst (vm.mem src) }

/-- The loop of `copyuvm` from `i` on, with `n` pages to go; `old` is the directory that is copied and `d` the page of the new one. -/
def copyFrom (kend : Nat) (old : PgDir) (d : Nat) : Nat → Nat → Vm → Except Halt (Vm × Nat)
  | 0, _, vm => .ok (vm, d)
  | n + 1, i, vm =>
    match old.entryAt i with
    | none => .error .copyNoPte
    | some e =>
      if e.present = false then .error .copyAbsent
      else
        let (vm, mem) := vm.kalloc
        if mem = 0 then do
          let vm ← vm.freevm kend d
          .ok (vm, 0)
        else do
          match ← (vm.movePage mem (PTE_ADDR e)).mappages i PGSIZE mem (PTE_FLAGS e) with
          | (vm, false) =>
            let vm ← vm.kfree kend mem
            let vm ← vm.freevm kend d
            .ok (vm, 0)
          | (vm, true) => copyFrom kend old d n (i + PGSIZE) vm

def copyuvm (kend data : Nat) (old : PgDir) (sz : Nat) (vm : Vm) : Except Halt (Vm × Nat) := do
  let (vm, d) ← setupkvm kend data vm
  if d = 0 then .ok (vm, 0) else copyFrom kend old d (pageCount 0 sz) 0 vm

end Vm

/-! ### `mprotect` and `munprotect` -/

/-- The loop `for(i = (int) addr; i < limit; i++)` with `n` values of `i` to go, changing entries by `f`. -/
def protectFrom (f : Pte → Pte) : Nat → Int → PgDir → Except Halt PgDir
  | 0, _, d => .ok d
  | n + 1, i, d =>
    match d.entryAt (toUint32 i) with
    | none => .error .fault
    | some e => protectFrom f n (i + 1) (d.setEntry (toUint32 i) (f e))

/-- The body that the two calls share: the directory afterwards and the value returned. -/
def protect (f : Pte → Pte) (d : PgDir) (sz addr : Nat) (len : Int) : Except Halt (PgDir × Int) :=
  if len ≤ 0 ∨ sz < toUint32 (addr + len * PGSIZE) then .ok (d, -1)
  else if addr % PGSIZE ≠ 0 then .ok (d, -1)
  else do
    let limit := toInt32 (toUint32 (len * PGSIZE + addr))
    let d ← protectFrom f (limit - toInt32 addr).toNat (toInt32 addr) d
    .ok (d, 0)

def mprotect : PgDir → Nat → Nat → Int → Except Halt (PgDir × Int) := protect Pte.clearW

def munprotect : PgDir → Nat → Nat → Int → Except Halt (PgDir × Int) := protect Pte.setW

end Ostep.Xv6
