import Ostep.Xv6.ExecSpec

/-!
# The arguments of a new program

`copyout` goes from page to page and stops at the first one that is not a user page. The kernel's pages are not, nor is the guard page
below the stack, so strings that do not fit in the stack page are refused, unless the first page that `copyout` asks for has no page
table: `uva2ka` does not look whether `walkpgdir` has found one.
-/

namespace Ostep.Xv6

variable {kend : Nat} {vm vm' : Vm}

/-! ### `copyout` -/

/-- The bytes `bs` have been copied to user pages. -/
structure CopiedTo (vm vm' : Vm) (va : Nat) (bs : List UInt8) : Prop where
  only : OnlyUser vm vm'
  user : ∀ vb, Between va (va + bs.length) vb → (vm.dir.pte vb).user = true
  bytes : ∀ vb < KERNBASE, vm.dir.present vb = true → vm'.byteAt vb = patch vm.byteAt va bs vb

def StopsAt (d : PgDir) (va len vb : Nat) : Prop := Between va (va + len) vb ∧ ∀ vc, Between va vb vc → (d.pte vc).user = true

theorem StopsAt.first {d : PgDir} {va len : Nat} (hlen : 0 < len) : StopsAt d va len va :=
  ⟨⟨Nat.le_refl va, Nat.lt_add_of_pos_right hlen⟩, fun _ h => absurd h.2 (Nat.not_lt.2 h.1)⟩

theorem StopsAt.step {d : PgDir} {va len n vb : Nat} (h : StopsAt d (va + n) (len - n) vb)
    (hpage : ∀ vc, Between va (va + n) vc → (d.pte vc).user = true) : StopsAt d va len vb := by
  obtain ⟨hin, huser⟩ := h
  refine ⟨by unfold Between at *; omega, fun vc hvc => ?_⟩
  by_cases hfirst : Between va (va + n) vc
  · exact hpage vc hfirst
  · exact huser vc (by unfold Between at *; omega)

theorem copyFromTo_nil (k va : Nat) (vm : Vm) : Vm.copyFromTo k va [] vm = .ok (vm, true) := by
  cases k <;> rfl

theorem CopiedTo.nil (vm : Vm) (va : Nat) : CopiedTo vm vm va [] :=
  ⟨.refl vm, fun _ hb => absurd hb.2 (Nat.not_lt.2 hb.1), fun _ _ _ => (patch_nil ..).symm⟩

theorem CopiedTo.page {va : Nat} {bs : List UInt8} (hap : Apart vm.dir) (hva : va < KERNBASE) (hp : vm.dir.present va = true)
    (hu : (vm.dir.pte va).user = true) (hlen : va % PGSIZE + bs.length ≤ PGSIZE) :
    CopiedTo vm (vm.write (PTE_ADDR (vm.dir.pte va)) (va % PGSIZE) bs) va bs := by
  refine ⟨.write hva hp, fun vb hb => ?_, fun vb hvb hpb => ?_⟩
  · rwa [PgDir.pte_congr (show vb / PGSIZE = va / PGSIZE by unfold Between PGSIZE at *; omega)]
  · rw [byteAt_write hap hva hp hlen hvb hpb, Nat.mul_comm, Nat.div_add_mod]

theorem CopiedTo.append {vm₁ : Vm} {va : Nat} {bs cs : List UInt8} (h : CopiedTo vm vm₁ va bs) (h' : CopiedTo vm₁ vm' (va + bs.length) cs) :
    CopiedTo vm vm' va (bs ++ cs) := by
  refine ⟨h.only.trans h'.only, fun vb hb => ?_, fun vb hvb hp => ?_⟩
  · by_cases hfirst : Between va (va + bs.length) vb
    · exact h.user vb hfirst
    · rw [← h.only.dir]
      rw [List.length_append] at hb
      exact h'.user vb (by unfold Between at *; omega)
  · rw [h'.bytes vb hvb (by rwa [h.only.dir]), ← patch_patch]
    exact patch_congr (h.bytes vb hvb hp)

theorem copyFromTo_cases (k va : Nat) (bs : List UInt8) (vm : Vm)
    (hkern : ∀ va < 2 ^ 32, KERNBASE ≤ va → (vm.dir.pte va).user = false) (hap : Apart vm.dir) (hk : bs.length ≤ k) (hva : va < 2 ^ 32) :
    (∃ vm', Vm.copyFromTo k va bs vm = .ok (vm', true) ∧ CopiedTo vm vm' va bs) ∨
    (∃ vm' vb, Vm.copyFromTo k va bs vm = .ok (vm', false) ∧ OnlyUser vm vm' ∧ StopsAt vm.dir va bs.length vb ∧
      (vm.dir.present vb = false ∨ (vm.dir.pte vb).user = false)) ∨
    ∃ vb, Vm.copyFromTo k va bs vm = .error .fault ∧ StopsAt vm.dir va bs.length vb ∧ vm.dir.entryAt vb = none := by
  induction k generalizing va bs vm with
  | zero =>
    obtain rfl : bs = [] := List.eq_nil_of_length_eq_zero (by omega)
    exact .inl ⟨vm, rfl, .nil vm va⟩
  | succ k ih =>
    by_cases hnil : bs = []
    · rw [hnil]
      exact .inl ⟨vm, rfl, .nil vm va⟩
    have hlen : 0 < bs.length := List.length_pos_iff.2 hnil
    have hpage : PGROUNDDOWN va / PGSIZE = va / PGSIZE := Nat.mul_div_cancel _ (by decide)
    rw [Vm.copyFromTo, if_neg hnil]
    dsimp only
    rw [Vm.uva2ka, PgDir.entryAt_congr hpage]
    cases he : vm.dir.entryAt va with
    | none => exact .inr (.inr ⟨va, rfl, .first hlen, he⟩)
    | some e =>
      have hpte := PgDir.pte_of_entryAt he
      dsimp only
      by_cases hp : e.present = false
      · rw [if_pos hp, ok_bind]
        exact .inr (.inl ⟨vm, va, rfl, .refl vm, .first hlen, .inl (by rw [PgDir.present_eq_pte, hpte, hp])⟩)
      by_cases hu : e.user = false
      · rw [if_neg hp, if_pos hu, ok_bind]
        exact .inr (.inl ⟨vm, va, rfl, .refl vm, .first hlen, .inr (by rw [hpte, hu])⟩)
      rw [if_neg hp, if_neg hu, ok_bind, ← hpte]
      rw [Bool.not_eq_false, ← hpte] at hp hu
      rw [← PgDir.present_eq_pte] at hp
      have hlow : va < KERNBASE := by
        by_contra hge
        rw [hkern va hva (Nat.not_lt.1 hge)] at hu
        cases hu
      have hoff : va - PGROUNDDOWN va = va % PGSIZE := by unfold PGROUNDDOWN PGSIZE; omega
      dsimp only
      rw [hoff]
      generalize hn : (if PGSIZE - va % PGSIZE > bs.length then bs.length else PGSIZE - va % PGSIZE) = n
      have hn' : n ≤ bs.length ∧ 0 < n ∧ va % PGSIZE + n ≤ PGSIZE ∧ (n = bs.length ∨ PGROUNDDOWN va + PGSIZE = va + n) := by
        rw [← hn]
        unfold PGROUNDDOWN PGSIZE
        split <;> omega
      obtain ⟨hle, hpos, hfit, hend⟩ := hn'
      have htake : (bs.take n).length = n := List.length_take_of_le hle
      have hone : CopiedTo vm (vm.write (PTE_ADDR (vm.dir.pte va)) (va % PGSIZE) (bs.take n)) va (bs.take n) :=
        .page hap hlow hp hu (by omega)
      rcases hend with hall | hnext
      · -- This was the last page.
        rw [hall, List.drop_length, copyFromTo_nil]
        rw [hall, List.take_length] at hone
        rw [List.take_length]
        exact .inl ⟨_, rfl, hone⟩
      · have hnext32 : (PGROUNDDOWN va + PGSIZE) % 2 ^ 32 = va + n := by
          rw [hnext]
          refine Nat.mod_eq_of_lt ?_
          unfold PGROUNDDOWN PGSIZE KERNBASE at *
          omega
        have huser : ∀ vc, Between va (va + n) vc → (vm.dir.pte vc).user = true := fun vc hc => hone.user vc (by rwa [htake])
        have hdrop : (bs.drop n).length = bs.length - n := List.length_drop
        rw [hnext32]
        rcases ih (va + n) (bs.drop n) (vm.write (PTE_ADDR (vm.dir.pte va)) (va % PGSIZE) (bs.take n)) hkern hap (by omega)
          (by unfold KERNBASE at hlow; omega)
          with ⟨vm', hvm', hrest⟩ | ⟨vm', vb, hvm', honly, hstop, hwhy⟩ | ⟨vb, herr, hstop, hnone⟩
        · refine .inl ⟨vm', hvm', ?_⟩
          rw [← List.take_append_drop n bs]
          exact hone.append (by rwa [htake])
        · rw [hdrop] at hstop
          exact .inr (.inl ⟨vm', vb, hvm', hone.only.trans honly, hstop.step huser, hwhy⟩)
        · rw [hdrop] at hstop
          exact .inr (.inr ⟨vb, herr, hstop.step huser, hnone⟩)

/-! ### The stack page -/

/-- A directory with a stack page below `sz` and a guard page below that. -/
structure StackDir (d : PgDir) (sz : Nat) : Prop where
  lt : sz < KERNBASE
  two : 2 * PGSIZE ≤ sz
  aligned : sz % PGSIZE = 0
  present : ∀ va < sz, d.present va = true
  user : ∀ va < sz, (d.pte va).user = true ↔ ¬ Between (sz - 2 * PGSIZE) (sz - PGSIZE) va
  kernel : ∀ va < 2 ^ 32, KERNBASE ≤ va → (d.pte va).user = false
  apart : Apart d

theorem StackDir.copyout {sz : Nat} (h : StackDir vm.dir sz) (va : Nat) (bs : List UInt8) (hpos : 0 < bs.length) (htop : va + bs.length ≤ sz)
    (hlast : sz - 2 * PGSIZE < va + bs.length) :
    (sz - PGSIZE ≤ va ∧ ∃ vm', vm.copyout va bs = .ok (vm', true) ∧ CopiedTo vm vm' va bs) ∨
      va < sz - PGSIZE ∧ ∃ vm', vm.copyout va bs = .ok (vm', false) ∧ OnlyUser vm vm' := by
  have hlt := h.lt
  have hva : va < 2 ^ 32 := by unfold KERNBASE at hlt; omega
  rcases copyFromTo_cases bs.length va bs vm h.kernel h.apart (Nat.le_refl _) hva
    with ⟨vm', hvm', hcopied⟩ | ⟨vm', vb, hvm', honly, hstop, hwhy⟩ | ⟨vb, -, hstop, hnone⟩
  · refine .inl ⟨?_, vm', hvm', hcopied⟩
    by_contra hlow
    -- The copy would have gone through the guard page.
    have hguard : Between va (va + bs.length) (max va (sz - 2 * PGSIZE)) := by unfold Between; omega
    refine (h.user _ ?_).1 (hcopied.user _ hguard) ?_
    · unfold Between at hguard; omega
    · unfold Between PGSIZE at *; omega
  · refine .inr ⟨?_, vm', hvm', honly⟩
    have hvb : vb < sz := by have := hstop.1; unfold Between at this; omega
    rcases hwhy with hp | hu
    · rw [h.present vb hvb] at hp
      cases hp
    · have hguard := not_not.1 fun hn => Bool.false_ne_true (hu.symm.trans ((h.user vb hvb).2 hn))
      have := hstop.1
      unfold Between at *
      omega
  · have hvb : vb < sz := by have := hstop.1; unfold Between at this; omega
    have hsome := PgDir.isSome_of_present (h.present vb hvb)
    rw [hnone] at hsome
    cases hsome

def cells (s : List UInt8) : Nat := (s.length + 4) / 4 * 4

theorem cells_spec (s : List UInt8) : s.length + 1 ≤ cells s ∧ cells s < s.length + 5 ∧ cells s % 4 = 0 := by
  unfold cells
  omega

def depth (argv : List (List UInt8)) : Nat := (argv.map cells).sum

theorem push_addr {sp : Nat} {s : List UInt8} (hsp : sp % 4 = 0) (hlt : sp < 2 ^ 32) (hle : cells s ≤ sp) :
    toUint32 (sp - (s.length + 1)) / 4 * 4 = sp - cells s := by
  unfold toUint32 cells at *
  omega

theorem push_addr_wrap {sp : Nat} {s : List UInt8} (hsp : sp % 4 = 0) (hle : sp < cells s) (hlt : s.length < KERNBASE) :
    toUint32 (sp - (s.length + 1)) / 4 * 4 = 2 ^ 32 + sp - cells s := by
  unfold toUint32 cells KERNBASE at *
  omega

section
variable {sz sp : Nat} (h : StackDir vm.dir sz) (hlo : sz - PGSIZE ≤ sp) (hhi : sp ≤ sz) (hsp : sp % 4 = 0)
include h hlo hhi hsp

theorem push_cases (s : List UInt8) :
    (sz - PGSIZE + cells s ≤ sp ∧ toUint32 (sp - (s.length + 1)) / 4 * 4 = sp - cells s ∧
      ∃ vm', vm.copyout (sp - cells s) (s ++ [0]) = .ok (vm', true) ∧ CopiedTo vm vm' (sp - cells s) (s ++ [0])) ∨
    ¬ sz - PGSIZE + cells s ≤ sp ∧
      ((∃ vm', vm.copyout (toUint32 (sp - (s.length + 1)) / 4 * 4) (s ++ [0]) = .ok (vm', false) ∧ OnlyUser vm vm') ∨
        vm.copyout (toUint32 (sp - (s.length + 1)) / 4 * 4) (s ++ [0]) = .error .fault) := by
  have hlt := h.lt
  have htwo := h.two
  have hlen : (s ++ [0]).length = s.length + 1 := by rw [List.length_append]; rfl
  have hcells := cells_spec s
  rcases Nat.lt_or_ge sp (cells s) with hwrap | hle
  · refine .inr ⟨by omega, ?_⟩
    generalize hva : toUint32 (sp - (s.length + 1)) / 4 * 4 = va
    have hva32 : va < 2 ^ 32 := by have := toUint32_lt (sp - (s.length + 1)); omega
    have hround : 2 ^ 32 < va + (s.length + 1) := by unfold toUint32 PGSIZE at *; omega
    rcases copyFromTo_cases (s ++ [0]).length va (s ++ [0]) vm h.kernel h.apart (Nat.le_refl _) hva32
      with ⟨vm', hvm', hcopied⟩ | ⟨vm', vb, hvm', honly, -⟩ | ⟨vb, herr, -⟩
    · -- The copy would have gone through the kernel's part of the address space.
      have hkern := h.kernel (max va KERNBASE) (by unfold KERNBASE; omega) (by omega)
      rw [hcopied.user _ ⟨by omega, by rw [hlen]; unfold KERNBASE; omega⟩] at hkern
      cases hkern
    · exact .inl ⟨vm', hvm', honly⟩
    · exact .inr herr
  · rw [push_addr hsp (by unfold KERNBASE at hlt; omega) hle]
    rcases h.copyout (sp - cells s) (s ++ [0]) (by omega) (by omega) (by unfold PGSIZE at *; omega)
      with ⟨hfit, hres⟩ | ⟨hnot, hres⟩
    · exact .inl ⟨by omega, rfl, hres⟩
    · exact .inr ⟨by omega, .inl hres⟩

end

/-! ### The strings -/

/-- The pointers to the strings that are pushed below `sp`. -/
def pointers : List (List UInt8) → Nat → List Nat
  | [], _ => []
  | s :: argv, sp => (sp - cells s) :: pointers argv (sp - cells s)

/-- The memory `m` when the strings have been pushed below `sp`. -/
def stackBytes (m : Nat → UInt8) : List (List UInt8) → Nat → Nat → UInt8
  | [], _ => m
  | s :: argv, sp => stackBytes (patch m (sp - cells s) (s ++ [0])) argv (sp - cells s)

theorem depth_cons (s : List UInt8) (argv : List (List UInt8)) : depth (s :: argv) = cells s + depth argv := by
  rw [depth, List.map_cons, List.sum_cons, depth]

theorem stackBytes_congr {m m' : Nat → UInt8} {vb : Nat} (h : m' vb = m vb) (argv : List (List UInt8)) (sp : Nat) :
    stackBytes m' argv sp vb = stackBytes m argv sp vb := by
  induction argv generalizing m m' sp with
  | nil => exact h
  | cons s argv ih => exact ih (patch_congr h) _

theorem pushStrings_cases {sz : Nat} (argv : List (List UInt8)) (argc sp : Nat) (ptrs : List Nat) (vm : Vm) (h : StackDir vm.dir sz)
    (hlo : sz - PGSIZE ≤ sp) (hhi : sp ≤ sz) (hsp : sp % 4 = 0) (hargc : argc ≤ MAXARG) :
    (argc + argv.length ≤ MAXARG ∧ sz - PGSIZE + depth argv ≤ sp ∧
      ∃ vm', Vm.pushStrings argv argc sp ptrs vm = .ok (vm', some (sp - depth argv, ptrs ++ pointers argv sp)) ∧ OnlyUser vm vm' ∧
        ∀ vb < KERNBASE, vm.dir.present vb = true → vm'.byteAt vb = stackBytes vm.byteAt argv sp vb) ∨
    ¬ (argc + argv.length ≤ MAXARG ∧ sz - PGSIZE + depth argv ≤ sp) ∧
      ((∃ vm', Vm.pushStrings argv argc sp ptrs vm = .ok (vm', none) ∧ OnlyUser vm vm') ∨
        Vm.pushStrings argv argc sp ptrs vm = .error .fault) := by
  induction argv generalizing argc sp ptrs vm with
  | nil =>
    have hnil : depth [] = 0 := rfl
    refine .inl ⟨hargc, by omega, vm, ?_, .refl vm, fun _ _ _ => rfl⟩
    rw [Vm.pushStrings, pointers, List.append_nil, hnil, Nat.sub_zero]
  | cons s argv ih =>
    rw [Vm.pushStrings, List.length_cons, depth_cons]
    split
    · exact .inr ⟨by omega, .inl ⟨vm, rfl, .refl vm⟩⟩
    · next hmax =>
      dsimp only
      rcases push_cases h hlo hhi hsp s with ⟨hfit, haddr, vm₁, hvm₁, hcopied⟩ | ⟨hnot, ⟨vm₁, hvm₁, honly⟩ | herr⟩
      · rw [haddr, hvm₁, ok_bind]
        dsimp only
        have hcells := cells_spec s
        rcases ih (argc + 1) (sp - cells s) (ptrs ++ [sp - cells s]) vm₁ (by rw [hcopied.only.dir]; exact h) (by omega) (by omega) (by omega) (by omega)
          with ⟨hargc', hdepth, vm', hvm', honly, hbytes⟩ | ⟨hnot, hres⟩
        · refine .inl ⟨by omega, by omega, vm', ?_, hcopied.only.trans honly, fun vb hvb hp => ?_⟩
          · rw [hvm', List.append_assoc, Nat.sub_sub]
            rfl
          · rw [hbytes vb hvb (by rw [hcopied.only.dir]; exact hp)]
            exact stackBytes_congr (hcopied.bytes vb hvb hp) argv _
        · refine .inr ⟨by omega, hres.imp_left ?_⟩
          rintro ⟨vm', hvm', honly⟩
          exact ⟨vm', hvm', hcopied.only.trans honly⟩
      · rw [hvm₁, ok_bind]
        exact .inr ⟨by omega, .inl ⟨vm₁, rfl, honly⟩⟩
      · rw [herr, error_bind]
        exact .inr ⟨by omega, .inr rfl⟩

theorem stackBytes_above {argv : List (List UInt8)} {sp vb : Nat} (hdepth : depth argv ≤ sp) (h : sp ≤ vb) (m : Nat → UInt8) :
    stackBytes m argv sp vb = m vb := by
  induction argv generalizing sp m with
  | nil => rfl
  | cons s argv ih =>
    have hcells := cells_spec s
    rw [depth_cons] at hdepth
    rw [stackBytes, ih (by omega) (by omega), patch_of_ne]
    rw [List.length_append, List.length_singleton]
    omega

theorem length_pointers (argv : List (List UInt8)) (sp : Nat) : (pointers argv sp).length = argv.length := by
  induction argv generalizing sp with
  | nil => rfl
  | cons s argv ih => rw [pointers, List.length_cons, ih, List.length_cons]

section
variable {argv : List (List UInt8)} {sp i : Nat}

theorem pointers_bounds (hdepth : depth argv ≤ sp) (hi : i < argv.length) :
    sp - depth argv ≤ (pointers argv sp).getD i 0 ∧ (pointers argv sp).getD i 0 + argv[i].length + 1 ≤ sp := by
  induction argv generalizing sp i with
  | nil => cases hi
  | cons s argv ih =>
    have hcells := cells_spec s
    rw [depth_cons] at hdepth ⊢
    cases i with
    | zero => rw [pointers, List.getD_cons_zero, List.getElem_cons_zero]; omega
    | succ i =>
      have := ih (show depth argv ≤ sp - cells s by omega) (Nat.lt_of_succ_lt_succ hi)
      rw [pointers, List.getD_cons_succ, List.getElem_cons_succ]
      omega

theorem pointers_apart (hdepth : depth argv ≤ sp) {j : Nat} (hij : i < j) (hj : j < argv.length) :
    (pointers argv sp).getD j 0 + argv[j].length + 1 ≤ (pointers argv sp).getD i 0 := by
  induction argv generalizing sp i j with
  | nil => cases hj
  | cons s argv ih =>
    rw [depth_cons] at hdepth
    obtain ⟨j, rfl⟩ := Nat.exists_eq_succ_of_ne_zero (by omega : j ≠ 0)
    rw [pointers, List.getD_cons_succ, List.getElem_cons_succ]
    cases i with
    | zero =>
      rw [List.getD_cons_zero]
      exact (pointers_bounds (by omega) (Nat.lt_of_succ_lt_succ hj)).2
    | succ i =>
      rw [List.getD_cons_succ]
      exact ih (by omega) (by omega) (Nat.lt_of_succ_lt_succ hj)

theorem stackBytes_string (hdepth : depth argv ≤ sp) (hi : i < argv.length) {j : Nat} (hj : j < (argv[i] ++ [0]).length) (m : Nat → UInt8) :
    stackBytes m argv sp ((pointers argv sp).getD i 0 + j) = (argv[i] ++ [0])[j] := by
  induction argv generalizing sp i m with
  | nil => cases hi
  | cons s argv ih =>
    have hcells := cells_spec s
    rw [depth_cons] at hdepth
    rw [stackBytes, pointers]
    cases i with
    | zero =>
      rw [List.getElem_cons_zero] at hj
      rw [List.getD_cons_zero, stackBytes_above (by omega) (by omega), patch_of_mem (by omega) (by omega), Nat.add_sub_cancel_left]
      exact List.getD_eq_getElem _ _ hj
    | succ i =>
      rw [List.getD_cons_succ]
      exact ih (by omega) (Nat.lt_of_succ_lt_succ hi) hj _

end

/-! ### The pointer block -/

/-- The strings and the block of pointers fit in the stack page. -/
def ArgsFit (argv : List (List UInt8)) : Prop := depth argv + 4 * (argv.length + 4) ≤ PGSIZE

def argsTop (sz : Nat) (argv : List (List UInt8)) : Nat := sz - depth argv - 4 * (argv.length + 4)

def blockWords (sz : Nat) (argv : List (List UInt8)) : List Nat := Vm.ustack (sz - depth argv) (pointers argv sz)

/-- The memory `m` when the arguments have been pushed below `sz`. -/
def argBytes (m : Nat → UInt8) (sz : Nat) (argv : List (List UInt8)) : Nat → UInt8 :=
  patch (stackBytes m argv sz) (argsTop sz argv) ((blockWords sz argv).flatMap fun w : Nat => le32 w)

theorem length_blockWords (sz : Nat) (argv : List (List UInt8)) : (blockWords sz argv).length = argv.length + 4 := by
  simp [blockWords, Vm.ustack, length_pointers]

theorem pushArgs_cases {sz : Nat} (h : StackDir vm.dir sz) (argv : List (List UInt8)) :
    (argv.length ≤ MAXARG ∧ ArgsFit argv ∧ ∃ vm', vm.pushArgs sz argv = .ok (vm', some (argsTop sz argv)) ∧ OnlyUser vm vm' ∧
      ∀ vb < KERNBASE, vm.dir.present vb = true → vm'.byteAt vb = argBytes vm.byteAt sz argv vb) ∨
    ¬ (argv.length ≤ MAXARG ∧ ArgsFit argv) ∧
      ((∃ vm', vm.pushArgs sz argv = .ok (vm', none) ∧ OnlyUser vm vm') ∨
        vm.pushArgs sz argv = .error .fault ∧ vm.pushStrings argv 0 sz [] = .error .fault) := by
  have hlt := h.lt
  have htwo := h.two
  have hal : sz % 4 = 0 := by have := h.aligned; unfold PGSIZE at this; omega
  rw [Vm.pushArgs]
  unfold ArgsFit
  rcases pushStrings_cases argv 0 sz [] vm h (Nat.sub_le _ _) (Nat.le_refl _) hal (Nat.zero_le _)
    with ⟨hargc, hdepth, vm₁, hvm₁, honly, hbytes⟩ | ⟨hnot, ⟨vm₁, hvm₁, honly⟩ | herr⟩
  · rw [hvm₁, ok_bind, List.nil_append]
    rw [Nat.zero_add] at hargc
    dsimp only
    rw [length_pointers]
    have haddr : toUint32 (↑(sz - depth argv) - (3 + ↑argv.length + 1) * 4) = argsTop sz argv := by
      unfold toUint32 argsTop MAXARG PGSIZE KERNBASE at *
      omega
    rw [haddr, ← blockWords]
    have hlen := length_words (blockWords sz argv)
    rw [length_blockWords] at hlen
    have htop : argsTop sz argv + 4 * (argv.length + 4) = sz - depth argv := by
      unfold argsTop MAXARG PGSIZE at *
      omega
    have hstack : StackDir vm₁.dir sz := by rw [honly.dir]; exact h
    rcases hstack.copyout (argsTop sz argv) ((blockWords sz argv).flatMap fun w : Nat => le32 w) (by omega) (by omega)
      (by unfold PGSIZE at *; omega) with ⟨hfit, vm', hvm', hcopied⟩ | ⟨hnot, vm', hvm', honly'⟩
    · rw [hvm', ok_bind]
      refine .inl ⟨hargc, by unfold argsTop at hfit; omega, vm', rfl, honly.trans hcopied.only, fun vb hvb hp => ?_⟩
      rw [hcopied.bytes vb hvb (by rw [honly.dir]; exact hp)]
      exact patch_congr (hbytes vb hvb hp)
    · rw [hvm', ok_bind]
      exact .inr ⟨by omega, .inl ⟨vm', rfl, honly.trans honly'⟩⟩
  · rw [hvm₁, ok_bind]
    exact .inr ⟨by omega, .inl ⟨vm₁, rfl, honly⟩⟩
  · rw [herr, error_bind]
    exact .inr ⟨by omega, .inr ⟨rfl, rfl⟩⟩

/-! ### What the program finds -/

/-- At `esp` there are a return address, the number of arguments and a pointer to the array behind it; the array points to the strings,
and all of this lies in the stack page below `sz` with no two parts overlapping. -/
structure ArgsLaid (m : Nat → UInt8) (sz esp : Nat) (argv : List (List UInt8)) : Prop where
  pc : load m esp = 0xffffffff
  argc : load m (esp + 4) = argv.length
  array : load m (esp + 8) = esp + 12
  last : load m (esp + 12 + 4 * argv.length) = 0
  copy : ∀ i (hi : i < argv.length) j (hj : j < (argv[i] ++ [0]).length), m (load m (esp + 12 + 4 * i) + j) = (argv[i] ++ [0])[j]
  bottom : sz - PGSIZE ≤ esp
  above : esp + 16 + 4 * argv.length ≤ sz
  within : ∀ i (hi : i < argv.length), esp + 16 + 4 * argv.length ≤ load m (esp + 12 + 4 * i) ∧
    load m (esp + 12 + 4 * i) + argv[i].length + 1 ≤ sz
  apart : ∀ i j (_ : i < j) (hj : j < argv.length),
    load m (esp + 12 + 4 * j) + argv[j].length + 1 ≤ load m (esp + 12 + 4 * i)

theorem ArgsLaid.congr {m m' : Nat → UInt8} {sz esp : Nat} {argv : List (List UInt8)} (h : ArgsLaid m sz esp argv)
    (heq : ∀ vb, Between (sz - PGSIZE) sz vb → m' vb = m vb) : ArgsLaid m' sz esp argv := by
  have hbottom := h.bottom
  have habove := h.above
  have hload : ∀ a, esp ≤ a → a + 4 ≤ sz → load m' a = load m a := fun a h1 h2 =>
    load_congr fun b hb hb' => heq b ⟨by omega, by omega⟩
  have hentry : ∀ i, i < argv.length → load m' (esp + 12 + 4 * i) = load m (esp + 12 + 4 * i) := fun i hi =>
    hload _ (by omega) (by omega)
  refine ⟨?_, ?_, ?_, ?_, fun i hi j hj => ?_, hbottom, habove, fun i hi => ?_, fun i j hij hj => ?_⟩
  · rw [hload _ (by omega) (by omega), h.pc]
  · rw [hload _ (by omega) (by omega), h.argc]
  · rw [hload _ (by omega) (by omega), h.array]
  · rw [hload _ (by omega) (by omega), h.last]
  · have hin := h.within i hi
    rw [hentry i hi, ← h.copy i hi j hj]
    rw [List.length_append, List.length_singleton] at hj
    exact heq _ ⟨by omega, by omega⟩
  · rw [hentry i hi]
    exact h.within i hi
  · rw [hentry i (by omega), hentry j hj]
    exact h.apart i j hij hj

theorem blockWords_eq {sz : Nat} {argv : List (List UInt8)} (hlt : sz < KERNBASE)
    (htop : argsTop sz argv + 4 * (argv.length + 4) = sz - depth argv) :
    blockWords sz argv = 0xffffffff :: argv.length :: (argsTop sz argv + 12) :: (pointers argv sz ++ [0]) := by
  have harray : toUint32 (↑(sz - depth argv) - (↑argv.length + 1) * 4) = argsTop sz argv + 12 := by
    unfold toUint32 KERNBASE at *
    omega
  rw [blockWords, Vm.ustack, length_pointers, harray]
  rfl

theorem argBytes_laid {sz : Nat} {argv : List (List UInt8)} (hlt : sz < KERNBASE) (htwo : 2 * PGSIZE ≤ sz) (hmax : argv.length ≤ MAXARG)
    (hfit : ArgsFit argv) (m : Nat → UInt8) : ArgsLaid (argBytes m sz argv) sz (argsTop sz argv) argv := by
  unfold ArgsFit at hfit
  have hdepth : depth argv ≤ sz := by omega
  have htop : argsTop sz argv + 4 * (argv.length + 4) = sz - depth argv := by unfold argsTop; omega
  have hblock := blockWords_eq hlt htop
  have hlen := length_words (blockWords sz argv)
  rw [length_blockWords] at hlen
  have hword : ∀ i w, (blockWords sz argv)[i]? = some w → w < 2 ^ 32 → load (argBytes m sz argv) (argsTop sz argv + 4 * i) = w :=
    fun i w h hw => load_words h hw _ _
  have hptr : ∀ i (hi : i < argv.length), load (argBytes m sz argv) (argsTop sz argv + 12 + 4 * i) = (pointers argv sz).getD i 0 := by
    intro i hi
    have hi' : i < (pointers argv sz).length := by rwa [length_pointers]
    have hb := pointers_bounds hdepth hi
    rw [show argsTop sz argv + 12 + 4 * i = argsTop sz argv + 4 * (i + 3) by omega]
    refine hword (i + 3) _ ?_ (by unfold KERNBASE at hlt; omega)
    rw [hblock, List.getElem?_cons_succ, List.getElem?_cons_succ, List.getElem?_cons_succ, List.getElem?_append_left hi',
      List.getElem?_eq_getElem hi', List.getD_eq_getElem _ _ hi']
  refine ⟨?_, ?_, ?_, ?_, fun i hi j hj => ?_, by omega, by omega, fun i hi => ?_, fun i j hij hj => ?_⟩
  · exact hword 0 _ (by rw [hblock]; rfl) (by decide)
  · exact hword 1 _ (by rw [hblock]; rfl) (by unfold MAXARG at hmax; omega)
  · exact hword 2 _ (by rw [hblock]; rfl) (by unfold KERNBASE at hlt; omega)
  · rw [show argsTop sz argv + 12 + 4 * argv.length = argsTop sz argv + 4 * (argv.length + 3) by omega]
    refine hword (argv.length + 3) 0 ?_ (by decide)
    rw [hblock, List.getElem?_cons_succ, List.getElem?_cons_succ, List.getElem?_cons_succ, ← length_pointers argv sz,
      List.getElem?_concat_length]
  · -- The block lies below the strings.
    have hb := pointers_bounds hdepth hi
    rw [hptr i hi, argBytes, patch_of_ne (by omega), stackBytes_string hdepth hi hj]
  · have hb := pointers_bounds hdepth hi
    rw [hptr i hi]
    omega
  · rw [hptr i (by omega), hptr j hj]
    exact pointers_apart hdepth hij hj

/-! ### `exec` -/

theorem kmap_perm {data : Nat} (hdata : DataOk data) : ∀ k ∈ Vm.kmap data, k.phys_start % PGSIZE = 0 ∧ k.perm.getLsbD 2 = false := by
  have hw : PTE_W.getLsbD 2 = false := rfl
  have hext : EXTMEM % PGSIZE = 0 := rfl
  have hdev : DEVSPACE % PGSIZE = 0 := rfl
  intro k hk
  simp only [Vm.kmap, List.mem_cons, List.not_mem_nil, or_false] at hk
  rcases hk with rfl | rfl | rfl | rfl
  exacts [⟨Nat.zero_mod _, hw⟩, ⟨hext, BitVec.getLsbD_zero⟩, ⟨hdata.aligned, hw⟩, ⟨hdev, hw⟩]

theorem KernelPart.not_user {data : Nat} {d : PgDir} (h : KernelPart data d) (hdata : DataOk data) {va : Nat} (hva : va < 2 ^ 32)
    (hlo : KERNBASE ≤ va) : (d.pte va).user = false := by
  by_cases hin : InRows (Vm.kmap data) va
  · obtain ⟨k, hk, hb⟩ := hin
    obtain ⟨hphys, hperm⟩ := kmap_perm hdata k hk
    have hvirt := (rowOk_kmap hdata k hk).aligned
    rw [(h.row k hk va hb).1, Pte.user_mk (by unfold PGSIZE at *; omega), hperm]
  · rw [h.out va hva hlo hin]
    rfl

/-- What the caller of `exec` has: its pages, its page tables and its directory are in use. -/
structure OldImage (kend : Nat) (vm : Vm) (old : PgDir) (pgdir : Nat) : Prop where
  frame : ∀ p ∈ pgdir :: (old.frames 0 KERNBASE ++ old.tableFrames), Frame kend p
  used : ∀ p ∈ pgdir :: (old.frames 0 KERNBASE ++ old.tableFrames), p ∉ vm.free

section
variable {data d sz : Nat} {vm₀ vm₁ : Vm} {m : Nat → UInt8} (hk : 0 < kend) (hdata : DataOk data) (hfree : ∀ p ∈ vm₀.free, Frame kend p)
  (hnd : vm₀.free.Nodup)

include hdata hfree hnd in
theorem Ready.stackDir (h : Ready data vm₀ vm d sz m) : StackDir vm.dir sz :=
  ⟨h.lt, h.two, h.aligned, fun va hva => (h.present va (Nat.lt_trans hva h.lt)).2 hva, h.user, fun _ hva hlo => h.kernel.not_user hdata hva hlo,
    (h.sound hfree hnd).apart⟩

include hk hfree hnd in
theorem freevm_old {old : PgDir} {pgdir : Nat} (h : Pending vm₀ vm d) (hold : OldImage kend vm₀ old pgdir) :
    ∃ vm', Vm.freevm kend { vm with dir := old } pgdir = .ok vm' ∧
      ∀ va < KERNBASE, vm.dir.present va = true → vm'.mem (PTE_ADDR (vm.dir.pte va)) = vm.mem (PTE_ADDR (vm.dir.pte va)) := by
  have hframe := hold.frame
  have hused := hold.used
  obtain ⟨vm', hvm', -, hmem⟩ := freevm_ok hk (hframe _ List.mem_cons_self)
    (show ∀ p ∈ (({ vm with dir := old } : Vm).dir).frames 0 KERNBASE, Frame kend p from
      fun p hp => hframe p (List.mem_cons_of_mem _ (List.mem_append_left _ hp)))
    fun p hp => hframe p (List.mem_cons_of_mem _ (List.mem_append_right _ hp))
  refine ⟨vm', hvm', fun va hva hp => ?_⟩
  have hsound := h.sound hfree hnd
  have hmine : PTE_ADDR (vm.dir.pte va) ∈ vm₀.free :=
    h.mem_free (List.mem_append_left _ ((PgDir.mem_frames (Nat.zero_mod _)).2 ⟨va, inRange_kernbase.2 hva, hp, rfl⟩))
  refine hmem _ (fun heq => hused _ List.mem_cons_self (heq ▸ hmine)) ?_
  rw [Vm.owned, ← List.append_assoc, List.mem_append, not_or]
  exact ⟨fun hp' => hused _ (List.mem_cons_of_mem _ hp') hmine, hsound.not_free hva hp⟩

include hk hdata hfree hnd in
/-- The second half of `exec`: the program starts with its arguments, or everything is given back, or a page table is missing. -/
theorem exec_cases {file : List UInt8} {im : Vm.Image} (path : List UInt8) (argv : List (List UInt8)) (p : Proc) {old : PgDir}
    (hold : OldImage kend vm₀ old p.pgdir) (hbuild : vm₀.buildImage kend data file = .ok (vm₁, some im))
    (hr : Ready data vm₀ vm₁ im.pgdir im.sz m) :
    (argv.length ≤ MAXARG ∧ ArgsFit argv ∧ ∃ vm', exec kend data (some file) path argv p old vm₀ =
        .ok (vm', { p with name := progName path, pgdir := im.pgdir, sz := im.sz, tf := { p.tf with eip := im.entry, esp := argsTop im.sz argv } }, 0) ∧
      vm'.dir = vm₁.dir ∧ ∀ vb < im.sz, vm'.byteAt vb = argBytes vm₁.byteAt im.sz argv vb) ∨
    ¬ (argv.length ≤ MAXARG ∧ ArgsFit argv) ∧
      ((∃ vm', exec kend data (some file) path argv p old vm₀ = .ok (vm', p, -1) ∧ GivenBack vm₀ vm') ∨
        exec kend data (some file) path argv p old vm₀ = .error .fault ∧ vm₁.pushStrings argv 0 im.sz [] = .error .fault) := by
  have hlt := hr.lt
  have hstack := hr.stackDir hdata hfree hnd
  rw [exec, hbuild, ok_bind]
  dsimp only
  rcases pushArgs_cases hstack argv with ⟨hmax, hfit, vm₂, hvm₂, honly, hbytes⟩ | ⟨hnot, ⟨vm₂, hvm₂, honly⟩ | ⟨herr, hstrings⟩⟩
  · obtain ⟨vm₃, hvm₃, hmem⟩ := freevm_old hk hfree hnd (hr.onlyUser honly) hold
    rw [hvm₂, ok_bind]
    dsimp only
    rw [hvm₃, ok_bind]
    refine .inl ⟨hmax, hfit, _, rfl, honly.dir, fun vb hvb => ?_⟩
    have hp := hstack.present vb hvb
    rw [← hbytes vb (by omega) hp]
    exact congrFun (hmem vb (by omega) (by rw [honly.dir]; exact hp)) _
  · obtain ⟨vm', hvm', hback⟩ := (hr.onlyUser honly).freevm hfree hk
    rw [hvm₂, ok_bind]
    dsimp only
    rw [hvm', ok_bind]
    exact .inr ⟨hnot, .inl ⟨vm', rfl, hback⟩⟩
  · rw [herr, error_bind]
    exact .inr ⟨hnot, .inr ⟨rfl, hstrings⟩⟩

end

/-- `exec` of any file comes to its end or to a missing page table for the arguments: it has built the image that the file describes, or
it returns -1, has given all pages back and has left the caller as it was. -/
theorem exec_loads (kend data : Nat) (file path : List UInt8) (argv : List (List UInt8)) (p : Proc) (old : PgDir) (vm : Vm) (hk : 0 < kend)
    (hdata : DataOk data) (hfree : ∀ p ∈ vm.free, Frame kend p) (hnd : vm.free.Nodup) (hold : OldImage kend vm old p.pgdir) :
    (∃ vm', vm.buildImage kend data file = .ok (vm', none) ∧ GivenBack vm vm' ∧
      exec kend data (some file) path argv p old vm = .ok (vm', p, -1)) ∨
    ∃ vm₁ d, vm.buildImage kend data file = .ok (vm₁, some ⟨d, imageSize file, (elfhdr file).entry⟩) ∧
      Ready data vm vm₁ d (imageSize file) (imageBytes file) ∧
      (exec kend data (some file) path argv p old vm = .error .fault ∨
        (∃ vm', exec kend data (some file) path argv p old vm = .ok (vm', p, -1) ∧ GivenBack vm vm') ∨
        ∃ vm' p', exec kend data (some file) path argv p old vm = .ok (vm', p', 0)) := by
  rcases buildImage_spec hk hdata hfree hnd file with ⟨vm', hvm', hback⟩ | ⟨vm₁, d, hvm₁, hr⟩
  · refine .inl ⟨vm', hvm', hback, ?_⟩
    rw [exec, hvm', ok_bind]
  · refine .inr ⟨vm₁, d, hvm₁, hr, ?_⟩
    rcases exec_cases hk hdata hfree hnd path argv p hold hvm₁ hr with ⟨-, -, vm', hvm', -⟩ | ⟨-, hres | ⟨herr, -⟩⟩
    · exact .inr (.inr ⟨vm', _, hvm'⟩)
    · exact .inr (.inl hres)
    · exact .inl herr

def smallProc : Proc := { sz := 4096, pgdir := 0x402000 }

theorem oldImage_singlePage : OldImage 0x200000 (singleVm manyPages) singlePage smallProc.pgdir := by
  have hall : ∀ p ∈ smallProc.pgdir :: (singlePage.frames 0 KERNBASE ++ singlePage.tableFrames), p ∈ [0x402000, 0x401000, 0x400000] := by
    rw [frames_singlePage, tableFrames_singlePage]
    exact fun p hp => hp
  refine ⟨fun p hp => frame_pages (by decide) p (hall p hp), fun p hp hfree => ?_⟩
  have hlow : ∀ p ∈ [0x402000, 0x401000, 0x400000], p < 0x9000000 := by decide
  exact absurd (hlow p (hall p hp)) (Nat.not_lt.2 (mem_manyPages hfree).2.1)

theorem exec_loads_bareElf : ∃ vm₁ d, (singleVm manyPages).buildImage 0x200000 0x108000 bareElf = .ok (vm₁, some ⟨d, imageSize bareElf, 0⟩) ∧
    Ready 0x108000 (singleVm manyPages) vm₁ d (imageSize bareElf) (imageBytes bareElf) := by
  rcases exec_loads 0x200000 0x108000 bareElf [] [] smallProc singlePage (singleVm manyPages) (by decide) dataOk_bare frame_manyPages
    nodup_manyPages oldImage_singlePage with ⟨vm', hnone, -⟩ | ⟨vm₁, d, hsome, hr, -⟩
  · obtain ⟨vm₁, im, hsome⟩ := buildImage_bareElf (show (singleVm manyPages).free = manyPages from rfl)
    cases hsome.symm.trans hnone
  · exact ⟨vm₁, d, hsome, hr⟩

/-- When `exec` returns 0, the program finds its arguments as C wants them, in the stack page above the guard page. -/
theorem exec_args (kend data : Nat) (file : Option (List UInt8)) (path : List UInt8) (argv : List (List UInt8)) (p p' : Proc) (old : PgDir)
    (vm vm' : Vm) (hk : 0 < kend) (hdata : DataOk data) (hfree : ∀ p ∈ vm.free, Frame kend p) (hnd : vm.free.Nodup)
    (hold : OldImage kend vm old p.pgdir) (hret : exec kend data file path argv p old vm = .ok (vm', p', 0)) :
    argv.length ≤ MAXARG ∧ ArgsLaid vm'.byteAt p'.sz p'.tf.esp argv ∧
      (∀ va, Between (p'.sz - PGSIZE) p'.sz va → vm'.dir.present va = true ∧ (vm'.dir.pte va).user = true) ∧
      ∀ va, Between (p'.sz - 2 * PGSIZE) (p'.sz - PGSIZE) va → (vm'.dir.pte va).user = false := by
  cases file with
  | none => cases hret
  | some file =>
    rcases buildImage_spec hk hdata hfree hnd file with ⟨vm₁, hvm₁, -⟩ | ⟨vm₁, d, hvm₁, hr⟩
    · rw [exec, hvm₁, ok_bind] at hret
      cases hret
    rcases exec_cases hk hdata hfree hnd path argv p hold hvm₁ hr with ⟨hmax, hfit, vm₂, hvm₂, hdir, hbytes⟩ | ⟨-, ⟨vm₂, hvm₂, -⟩ | ⟨herr, -⟩⟩
    · cases hvm₂.symm.trans hret
      have htwo := hr.two
      refine ⟨hmax, (argBytes_laid hr.lt htwo hmax hfit vm₁.byteAt).congr fun vb hb => hbytes vb hb.2, fun va hva => ?_, fun va hva => ?_⟩
      · rw [hdir]
        dsimp only at hva
        refine ⟨(hr.present va (Nat.lt_trans hva.2 hr.lt)).2 hva.2, (hr.user va hva.2).2 fun hguard => ?_⟩
        exact absurd hguard.2 (Nat.not_lt.2 hva.1)
      · rw [hdir, ← Bool.not_eq_true]
        dsimp only at hva
        exact fun hu => (hr.user va (by unfold Between at hva; omega)).1 hu hva
    · cases hvm₂.symm.trans hret
    · cases herr.symm.trans hret

/-- The bare program gets the argument `hi`. -/
theorem exec_args_hi : ∃ vm' p', exec 0x200000 0x108000 (some bareElf) [] [[104, 105]] smallProc singlePage (singleVm manyPages) =
    .ok (vm', p', 0) ∧ ArgsLaid vm'.byteAt p'.sz p'.tf.esp [[104, 105]] := by
  have hbuilt : ∃ vm' im, (singleVm manyPages).buildImage 0x200000 0x108000 bareElf = .ok (vm', some im) := buildImage_bareElf rfl
  have hkend : 0 < 0x200000 := by decide
  have hfree : ∀ p ∈ (singleVm manyPages).free, Frame 0x200000 p := frame_manyPages
  have hnd : (singleVm manyPages).free.Nodup := nodup_manyPages
  rcases buildImage_spec hkend dataOk_bare hfree hnd bareElf with ⟨vm₁, hnone, -⟩ | ⟨vm₁, d, hsome, hr⟩
  · obtain ⟨vm₂, im, hsome⟩ := hbuilt
    cases hsome.symm.trans hnone
  rcases exec_cases hkend dataOk_bare hfree hnd [] [[104, 105]] smallProc oldImage_singlePage hsome hr
    with ⟨-, -, vm', hvm', -⟩ | ⟨hnot, -⟩
  · exact ⟨vm', _, hvm', (exec_args 0x200000 0x108000 (some bareElf) [] [[104, 105]] smallProc _ singlePage (singleVm manyPages) vm' hkend
      dataOk_bare hfree hnd oldImage_singlePage hvm').2.1⟩
  · exact absurd ⟨by decide, by unfold ArgsFit; decide⟩ hnot

end Ostep.Xv6
