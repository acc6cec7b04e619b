import Ostep.Xv6.ExecArgs

/-!
# Arguments that reach for a missing page table

The address of a string is computed modulo 2³², so that a string longer than the image below the stack pointer wraps around into the
upper half of the address space. Where the kernel has mapped pages `copyout` refuses it; but between the end of the physical memory and
the devices there are no page tables, and `uva2ka` reads through the null pointer that `walkpgdir` returns.
-/

namespace Ostep.Xv6

variable {kend data : Nat} {vm : Vm}

namespace KernelPart

variable {d : PgDir} {va : Nat}

theorem entryAt_eq_none (h : KernelPart data d) (hdata : DataOk data) (hva : Between (KERNBASE + PHYSTOP) DEVSPACE va) :
    d.entryAt va = none := by
  rw [← Option.not_isSome_iff_eq_none, PgDir.isSome_entryAt]
  intro htable
  obtain ⟨vb, hb, hin, hpd⟩ := h.tables (PDX va) (by unfold Between PDX KERNBASE DEVSPACE at *; omega) htable
  rw [inRows_kmap hdata] at hin
  unfold Between PDX KERNBASE PHYSTOP DEVSPACE at *
  omega

theorem isSome_entryAt (h : KernelPart data d) (hdata : DataOk data) (hva : va < 2 ^ 32) (hlo : KERNBASE ≤ va)
    (hout : ¬ Between (KERNBASE + PHYSTOP) DEVSPACE va) : (d.entryAt va).isSome := by
  have hin : InRows (Vm.kmap data) va := by
    rw [inRows_kmap hdata]
    unfold Between at *
    omega
  obtain ⟨k, hk, hb⟩ := hin
  rw [PgDir.isSome_entryAt, (h.row k hk va hb).2]

end KernelPart

theorem copyout_fault {va : Nat} {bs : List UInt8} (hne : bs ≠ []) (hnone : vm.dir.entryAt va = none) :
    vm.copyout va bs = .error .fault := by
  have hpage : PGROUNDDOWN va / PGSIZE = va / PGSIZE := Nat.mul_div_cancel _ (by decide)
  obtain ⟨b, cs, rfl⟩ := List.exists_cons_of_ne_nil hne
  rw [Vm.copyout, List.length_cons, Vm.copyFromTo, if_neg hne]
  dsimp only
  rw [Vm.uva2ka, PgDir.entryAt_congr hpage, hnone]
  rfl

section
variable {sz sp : Nat} (hk : KernelPart data vm.dir) (hdata : DataOk data)

include hk hdata in
theorem push_fault_iff (h : StackDir vm.dir sz) (hlo : sz - PGSIZE ≤ sp) (hhi : sp ≤ sz) (hsp : sp % 4 = 0) {s : List UInt8}
    (hlen : s.length < KERNBASE) :
    vm.copyout (toUint32 (sp - (s.length + 1)) / 4 * 4) (s ++ [0]) = .error .fault ↔
      sp + (2 ^ 32 - DEVSPACE) < cells s ∧ cells s ≤ sp + (2 ^ 32 - (KERNBASE + PHYSTOP)) := by
  have hlt := h.lt
  have htwo := h.two
  have hcells := cells_spec s
  have hlen' : (s ++ [0]).length = s.length + 1 := by rw [List.length_append]; rfl
  rcases Nat.lt_or_ge sp (cells s) with hwrap | hle
  · rw [push_addr_wrap hsp hwrap hlen]
    generalize hva : 2 ^ 32 + sp - cells s = va
    have hva32 : va < 2 ^ 32 := by omega
    have hhigh : KERNBASE ≤ va := by unfold KERNBASE PGSIZE at *; omega
    by_cases hhole : Between (KERNBASE + PHYSTOP) DEVSPACE va
    · refine iff_of_true (copyout_fault (List.concat_ne_nil _ _) (hk.entryAt_eq_none hdata hhole)) ?_
      unfold Between KERNBASE PHYSTOP DEVSPACE at *
      omega
    · refine iff_of_false (fun herr => ?_) ?_
      · rcases copyFromTo_cases (s ++ [0]).length va (s ++ [0]) vm h.kernel h.apart (Nat.le_refl _) hva32
          with ⟨vm', hvm', -⟩ | ⟨vm', vb, hvm', -⟩ | ⟨vb, -, hstop, hnone⟩
        · cases herr.symm.trans hvm'
        · cases herr.symm.trans hvm'
        -- The first page has a table and is not a user page, so the copy would have stopped there.
        rcases Nat.lt_or_ge va vb with hafter | hfirst
        · have huser := hstop.2 va ⟨Nat.le_refl va, hafter⟩
          rw [h.kernel va hva32 hhigh] at huser
          cases huser
        · have hsome := hk.isSome_entryAt hdata hva32 hhigh hhole
          rw [show va = vb from Nat.le_antisymm hstop.1.1 hfirst, hnone] at hsome
          cases hsome
      · unfold Between KERNBASE PHYSTOP DEVSPACE at *
        omega
  · refine iff_of_false (fun herr => ?_) (by omega)
    rw [push_addr hsp (by unfold KERNBASE at hlt; omega) hle] at herr
    rcases h.copyout (sp - cells s) (s ++ [0]) (by omega) (by omega) (by unfold PGSIZE at *; omega) with ⟨-, vm', hvm', -⟩ | ⟨-, vm', hvm', -⟩
    · cases herr.symm.trans hvm'
    · cases herr.symm.trans hvm'

/-- Some string strays into the gap when the strings are pushed below `sp`, with `argc` of them pushed before; the ones before it stay
above `lo`. -/
def StraysFrom (lo argc sp : Nat) (argv : List (List UInt8)) : Prop :=
  ∃ k < argv.length, argc + k < MAXARG ∧ lo + depth (argv.take k) ≤ sp ∧ sp + (2 ^ 32 - DEVSPACE) < depth (argv.take (k + 1)) ∧
    depth (argv.take (k + 1)) ≤ sp + (2 ^ 32 - (KERNBASE + PHYSTOP))

theorem straysFrom_cons {lo argc sp : Nat} {s : List UInt8} {argv : List (List UInt8)} (hlo : lo ≤ sp) :
    StraysFrom lo argc sp (s :: argv) ↔ argc < MAXARG ∧
      ((sp + (2 ^ 32 - DEVSPACE) < cells s ∧ cells s ≤ sp + (2 ^ 32 - (KERNBASE + PHYSTOP))) ∨
        lo + cells s ≤ sp ∧ StraysFrom lo (argc + 1) (sp - cells s) argv) := by
  have hzero : depth [] = 0 := rfl
  have hone : depth [s] = cells s := by rw [depth_cons, hzero, Nat.add_zero]
  constructor
  · rintro ⟨k, hk, hmax, hfit, h1, h2⟩
    refine ⟨by omega, ?_⟩
    cases k with
    | zero =>
      rw [List.take_succ_cons, List.take_zero, hone] at h1 h2
      exact .inl ⟨h1, h2⟩
    | succ k =>
      rw [List.take_succ_cons, depth_cons] at hfit h1 h2
      exact .inr ⟨by omega, k, Nat.lt_of_succ_lt_succ hk, by omega, by omega, by omega, by omega⟩
  · rintro ⟨hmax, ⟨h1, h2⟩ | ⟨hfit, k, hk, hmax', hfit', h1, h2⟩⟩
    · refine ⟨0, Nat.succ_pos _, hmax, ?_, ?_⟩
      · rw [List.take_zero, hzero]
        exact hlo
      · rw [List.take_succ_cons, List.take_zero, hone]
        exact ⟨h1, h2⟩
    · refine ⟨k + 1, Nat.succ_lt_succ hk, by omega, ?_⟩
      rw [List.take_succ_cons, List.take_succ_cons, depth_cons, depth_cons]
      omega

include hk hdata in
theorem pushStrings_fault_iff (h : StackDir vm.dir sz) (argv : List (List UInt8)) (argc : Nat) (ptrs : List Nat)
    (hlo : sz - PGSIZE ≤ sp) (hhi : sp ≤ sz) (hsp : sp % 4 = 0) (hlen : ∀ s ∈ argv, s.length < KERNBASE) :
    vm.pushStrings argv argc sp ptrs = .error .fault ↔ StraysFrom (sz - PGSIZE) argc sp argv := by
  induction argv generalizing argc sp ptrs vm with
  | nil =>
    refine iff_of_false (by rintro ⟨⟩) ?_
    rintro ⟨k, hk, -⟩
    exact Nat.not_lt_zero k hk
  | cons s argv ih =>
    have hpush := push_fault_iff hk hdata h hlo hhi hsp (hlen s List.mem_cons_self)
    rw [Vm.pushStrings, straysFrom_cons hlo]
    split
    · next hmax => exact iff_of_false (by rintro ⟨⟩) fun hc => absurd hc.1 (Nat.not_lt.2 hmax)
    · next hmax =>
      dsimp only
      rcases push_cases h hlo hhi hsp s with ⟨hfit, haddr, vm₁, hvm₁, hcopied⟩ | ⟨hnot, ⟨vm₁, hvm₁, -⟩ | herr⟩
      · have hcells := cells_spec s
        have hdir := hcopied.only.dir
        rw [haddr, hvm₁, ok_bind]
        dsimp only
        rw [ih (by rw [hdir]; exact hk) (by rw [hdir]; exact h) (argc + 1) _ (by omega) (by omega) (by omega)
          fun s hs => hlen s (List.mem_cons_of_mem _ hs)]
        constructor
        · exact fun hs => ⟨Nat.not_le.1 hmax, .inr ⟨hfit, hs⟩⟩
        · rintro ⟨-, ⟨hfar, -⟩ | ⟨-, hs⟩⟩
          · omega
          · exact hs
      · rw [hvm₁] at hpush ⊢
        rw [ok_bind]
        refine iff_of_false (by rintro ⟨⟩) ?_
        rintro ⟨-, hfar | ⟨hfit, -⟩⟩
        · cases hpush.2 hfar
        · exact hnot hfit
      · rw [herr, error_bind]
        exact iff_of_true rfl ⟨Nat.not_le.1 hmax, .inl (hpush.1 herr)⟩

end

/-! ### `exec` -/

/-- While the strings before it fit in the stack page, some string is so long that its address below `sz` wraps around into the gap
between the end of the physical memory and the devices. -/
def Strays (sz : Nat) (argv : List (List UInt8)) : Prop :=
  ∃ k < argv.length, k < MAXARG ∧ depth (argv.take k) ≤ PGSIZE ∧ sz + (2 ^ 32 - DEVSPACE) < depth (argv.take (k + 1)) ∧
    depth (argv.take (k + 1)) ≤ sz + (2 ^ 32 - (KERNBASE + PHYSTOP))

theorem straysFrom_iff {sz : Nat} (hsz : PGSIZE ≤ sz) (argv : List (List UInt8)) : StraysFrom (sz - PGSIZE) 0 sz argv ↔ Strays sz argv := by
  refine exists_congr fun k => and_congr_right fun _ => ?_
  rw [Nat.zero_add]
  exact and_congr_right fun _ => and_congr_left fun _ => by omega

/-- No lookup for the arguments finds a null pointer, and arguments that do not fit make `exec` return -1. -/
def ArgsSafe (argv : List (List UInt8)) (res : Except Halt (Vm × Proc × Int)) : Prop :=
  res ≠ .error .fault ∧ (¬ ArgsFit argv → ∃ vm' p', res = .ok (vm', p', -1))

section
variable {file : List UInt8} {argv : List (List UInt8)} {p : Proc} {old : PgDir} {vm₁ : Vm} {im : Vm.Image} (hk : 0 < kend)
  (hdata : DataOk data) (hfree : ∀ p ∈ vm.free, Frame kend p) (hnd : vm.free.Nodup) (hold : OldImage kend vm old p.pgdir)
  (hargv : ∀ s ∈ argv, s.length < KERNBASE) (hbuild : vm.buildImage kend data file = .ok (vm₁, some im))
include hk hdata hfree hnd hold hargv hbuild

theorem exec_fault_iff (path : List UInt8) :
    exec kend data (some file) path argv p old vm = .error .fault ↔ Strays (imageSize file) argv := by
  rcases buildImage_spec hk hdata hfree hnd file with ⟨vm₂, hnone, -⟩ | ⟨vm₂, d, hsome, hr⟩
  · cases hbuild.symm.trans hnone
  have htwo := hr.two
  have hal : imageSize file % 4 = 0 := by have := hr.aligned; unfold PGSIZE at this; omega
  rw [← straysFrom_iff (by unfold PGSIZE at *; omega), ← pushStrings_fault_iff hr.kernel hdata (hr.stackDir hdata hfree hnd) argv 0 []
    (Nat.sub_le _ _) (Nat.le_refl _) hal hargv]
  constructor
  · intro herr
    rcases exec_cases hk hdata hfree hnd path argv p hold hsome hr with ⟨-, -, vm', hvm', -⟩ | ⟨-, ⟨vm', hvm', -⟩ | ⟨-, hstrings⟩⟩
    · cases herr.symm.trans hvm'
    · cases herr.symm.trans hvm'
    · exact hstrings
  · intro herr
    rw [exec, hsome, ok_bind]
    dsimp only
    rw [Vm.pushArgs, herr]
    rfl

omit hargv in
theorem exec_refuses (path : List UInt8) (hok : exec kend data (some file) path argv p old vm ≠ .error .fault) (hnot : ¬ ArgsFit argv) :
    ∃ vm' p', exec kend data (some file) path argv p old vm = .ok (vm', p', -1) := by
  rcases buildImage_spec hk hdata hfree hnd file with ⟨vm₂, hnone, -⟩ | ⟨vm₂, d, hsome, hr⟩
  · cases hbuild.symm.trans hnone
  rcases exec_cases hk hdata hfree hnd path argv p hold hsome hr with ⟨-, hfit, -⟩ | ⟨-, ⟨vm', hvm', -⟩ | ⟨herr, -⟩⟩
  · exact absurd hfit hnot
  · exact ⟨vm', p, hvm'⟩
  · exact absurd herr hok

end

/-- Once `exec` has built the image, it deals with the arguments safely exactly when no string strays into the gap. -/
theorem argsSafe_iff (kend data : Nat) (file path : List UInt8) (argv : List (List UInt8)) (p : Proc) (old : PgDir) (vm vm₁ : Vm) (im : Vm.Image)
    (hk : 0 < kend) (hdata : DataOk data) (hfree : ∀ p ∈ vm.free, Frame kend p) (hnd : vm.free.Nodup) (hold : OldImage kend vm old p.pgdir)
    (hsz : p.sz ≤ KERNBASE) (hargv : ∀ s ∈ argv, s.length < p.sz) (hbuild : vm.buildImage kend data file = .ok (vm₁, some im)) :
    ArgsSafe argv (exec kend data (some file) path argv p old vm) ↔ ¬ Strays (imageSize file) argv := by
  have hlen : ∀ s ∈ argv, s.length < KERNBASE := fun s hs => Nat.lt_of_lt_of_le (hargv s hs) hsz
  rw [← exec_fault_iff hk hdata hfree hnd hold hlen hbuild path]
  exact ⟨fun hsafe => hsafe.1, fun hok => ⟨hok, exec_refuses hk hdata hfree hnd hold hbuild path hok⟩⟩

theorem argsSafe_hi : ArgsSafe [[104, 105]]
    (exec 0x200000 0x108000 (some bareElf) [] [[104, 105]] smallProc singlePage (singleVm manyPages)) := by
  obtain ⟨vm₁, im, hbuild⟩ := buildImage_bareElf (show (singleVm manyPages).free = manyPages from rfl)
  refine (argsSafe_iff 0x200000 0x108000 bareElf [] [[104, 105]] smallProc singlePage (singleVm manyPages) vm₁ im (by decide) dataOk_bare
    frame_manyPages nodup_manyPages oldImage_singlePage (by decide) (by decide) hbuild).2 ?_
  rintro ⟨k, hk, -, -, hfar, -⟩
  obtain rfl : k = 0 := Nat.lt_one_iff.1 hk
  exact absurd hfar (by rw [imageSize_bareElf]; decide)

/-! ### A process that makes the kernel fault -/

def bigDir : PgDir := fun i =>
  if i < 16 then some ⟨0x8000000 + i * PGSIZE, fun j => .mk (0x400000 + (i * 1024 + j) * PGSIZE) (PTE_W ||| PTE_U)⟩ else none

def bigProc : Proc := { sz := 0x4000000, pgdir := 0x8100000 }

theorem pte_bigDir {va : Nat} (hva : va < 0x4000000) : bigDir.pte va = .mk (0x400000 + va / PGSIZE * PGSIZE) (PTE_W ||| PTE_U) := by
  have hi : PDX va < 16 := by unfold PDX; omega
  have hpage : PDX va * 1024 + PTX va = va / PGSIZE := by unfold PDX PTX PGSIZE; omega
  rw [PgDir.pte, PgDir.entryAt, bigDir, if_pos hi, ← hpage]
  rfl

theorem exactPages_bigDir : ExactPages bigDir bigProc.sz := by
  intro va hva
  have hround : PGROUNDUP bigProc.sz = 0x4000000 := by decide
  rw [PgDir.present_eq_pte, hround]
  rcases Nat.lt_or_ge va 0x4000000 with hlt | hge
  · rw [pte_bigDir hlt]
    exact iff_of_true (Pte.present_mk _ _) hlt
  · have hi : ¬ PDX va < 16 := by unfold PDX KERNBASE at *; omega
    rw [PgDir.pte, PgDir.entryAt, bigDir, if_neg hi, Option.map_none, Option.getD_none]
    exact iff_of_false (by decide) (Nat.not_lt.2 hge)

theorem oldImage_bigDir {vm : Vm} (hvm : vm.free = manyPages) : OldImage 0x200000 vm bigDir bigProc.pgdir := by
  have hall : ∀ p ∈ bigProc.pgdir :: (bigDir.frames 0 KERNBASE ++ bigDir.tableFrames), p % PGSIZE = 0 ∧ 0x400000 ≤ p ∧ p < 0x9000000 := by
    intro p hp
    rw [List.mem_cons, List.mem_append] at hp
    rcases hp with rfl | hp | hp
    · decide
    · obtain ⟨va, hr, hpres, rfl⟩ := (PgDir.mem_frames (Nat.zero_mod _)).1 hp
      have hva : va < 0x4000000 := (exactPages_bigDir va (inRange_kernbase.1 hr)).1 hpres
      rw [pte_bigDir hva, PTE_ADDR_mk (by unfold PGSIZE; omega) (by unfold PGSIZE; omega) (by decide)]
      unfold PGSIZE
      omega
    · obtain ⟨i, -, hi⟩ := List.mem_filterMap.1 hp
      rw [PgDir.tableFrame, bigDir] at hi
      split at hi
      · next hlt =>
        obtain rfl : 0x8000000 + i * PGSIZE = p := Option.some.inj hi
        unfold PGSIZE
        omega
      · cases hi
  refine ⟨fun p hp => ?_, fun p hp hfree => ?_⟩
  · obtain ⟨h1, h2, h3⟩ := hall p hp
    exact ⟨h1, by omega, by unfold PHYSTOP; omega⟩
  · rw [hvm] at hfree
    exact absurd (hall p hp).2.2 (Nat.not_lt.2 (mem_manyPages hfree).2.1)

def longArg : List (List UInt8) := [List.replicate 40000000 65]

theorem depth_longArg : depth longArg = 40000004 := by
  rw [longArg, depth, List.map_singleton, List.sum_singleton, cells, List.length_replicate]

def bigVm : Vm := { dir := bigDir, free := manyPages, mem := fun _ _ => 0 }

/-- A process of 64 megabytes executes a file without segments with one argument of forty million characters. -/
theorem not_argsSafe_longArg : (∀ p ∈ bigVm.free, Frame 0x200000 p) ∧ bigVm.free.Nodup ∧ OldImage 0x200000 bigVm bigDir bigProc.pgdir ∧
    ExactPages bigDir bigProc.sz ∧ (∀ s ∈ longArg, s.length < bigProc.sz) ∧
    (∃ vm₁ im, bigVm.buildImage 0x200000 0x108000 bareElf = .ok (vm₁, some im)) ∧
    ¬ ArgsSafe longArg (exec 0x200000 0x108000 (some bareElf) [] longArg bigProc bigDir bigVm) := by
  have hvm : bigVm.free = manyPages := rfl
  have hfree : ∀ p ∈ bigVm.free, Frame 0x200000 p := frame_manyPages
  have hnd : bigVm.free.Nodup := nodup_manyPages
  have hlen : ∀ s ∈ longArg, s.length < bigProc.sz := by
    intro s hs
    rw [List.mem_singleton.1 hs, List.length_replicate]
    decide
  obtain ⟨vm₁, im, hbuild⟩ := buildImage_bareElf hvm
  refine ⟨hfree, hnd, oldImage_bigDir hvm, exactPages_bigDir, hlen, ⟨vm₁, im, hbuild⟩, fun hsafe => hsafe.1 ?_⟩
  refine (exec_fault_iff (by decide) dataOk_bare hfree hnd (oldImage_bigDir hvm)
    (fun s hs => Nat.lt_trans (hlen s hs) (by decide)) hbuild []).2 ⟨0, Nat.one_pos, by decide, Nat.zero_le _, ?_⟩
  rw [show longArg.take (0 + 1) = longArg from rfl, depth_longArg, imageSize_bareElf]
  decide

end Ostep.Xv6
