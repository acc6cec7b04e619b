import Ostep.Xv6.Frames

/-!
# New directories: `setupkvm` and `copyuvm`

`setupkvm` maps the rows of `kmap` into an empty directory, `copyuvm` adds a copy of each page of another one. When a page is missing
on the way, everything taken so far goes back to the free list.
-/

namespace Ostep.Xv6

variable {kend : Nat} {vm vm' : Vm}

/-! ### The kernel's mappings -/

/-- Kernel pages at addresses that satisfy `P` have been mapped. -/
structure MapsKernel (P : Nat → Prop) (vm vm' : Vm) : Prop where
  out : ∀ vb < 2 ^ 32, ¬ P vb → vm'.dir.pte vb = vm.dir.pte vb
  owned : vm'.owned.Perm vm.owned
  suffix : vm'.free <:+ vm.free
  keeps : ∀ i, vm.dir.tables i = true → vm'.dir.tables i = true
  tables : ∀ i, vm'.dir.tables i = true → vm.dir.tables i = true ∨ ∃ vb < 2 ^ 32, P vb ∧ PDX vb = i
  mem : ∀ p ∉ vm.free, vm'.mem p = vm.mem p

namespace MapsKernel

variable {P Q : Nat → Prop} {vm₁ : Vm}

theorem refl (P : Nat → Prop) (vm : Vm) : MapsKernel P vm vm :=
  ⟨fun _ _ _ => rfl, .refl _, List.suffix_refl _, fun _ h => h, fun _ h => .inl h, fun _ _ => rfl⟩

theorem trans (h : MapsKernel P vm vm₁) (h' : MapsKernel Q vm₁ vm') : MapsKernel (fun va => P va ∨ Q va) vm vm' := by
  refine ⟨fun vb hb hn => ?_, h'.owned.trans h.owned, h'.suffix.trans h.suffix, fun i hi => h'.keeps i (h.keeps i hi), fun i hi => ?_,
    fun p hp => ?_⟩
  · rw [not_or] at hn
    rw [h'.out vb hb hn.2, h.out vb hb hn.1]
  · rcases h'.tables i hi with hi | ⟨vb, hb, hQ, hpd⟩
    · rcases h.tables i hi with hi | ⟨vb, hb, hP, hpd⟩
      · exact .inl hi
      · exact .inr ⟨vb, hb, .inl hP, hpd⟩
    · exact .inr ⟨vb, hb, .inr hQ, hpd⟩
  · rw [h'.mem p fun hp' => hp (h.suffix.subset hp'), h.mem p hp]

theorem mono (h : MapsKernel P vm vm') (hPQ : ∀ va, P va → Q va) : MapsKernel Q vm vm' := by
  refine ⟨fun vb hb hn => h.out vb hb fun hP => hn (hPQ vb hP), h.owned, h.suffix, h.keeps, fun i hi => ?_, h.mem⟩
  exact (h.tables i hi).imp_right fun ⟨vb, hb, hP, hpd⟩ => ⟨vb, hb, hPQ vb hP, hpd⟩

end MapsKernel

theorem MapsPage.mapsKernel {a : Nat} {e : Pte} (h : MapsPage vm vm' a e) (hlo : KERNBASE ≤ a) (ha : a < 2 ^ 32) :
    MapsKernel (fun va => a / PGSIZE = va / PGSIZE) vm vm' := by
  refine ⟨fun vb hb hn => by rw [h.pte vb hb, if_neg hn], h.owned_kernel hlo, h.suffix, fun i hi => ?_, fun i hi => ?_, h.mem⟩
  · rw [h.tables]
    by_cases hia : i = PDX a
    · rw [hia, Function.update_self]
    · rw [Function.update_of_ne hia, hi]
  · rw [h.tables] at hi
    by_cases hia : i = PDX a
    · exact .inr ⟨a, ha, rfl, hia.symm⟩
    · rw [Function.update_of_ne hia] at hi
      exact .inl hi

def Between (a b va : Nat) : Prop := a ≤ va ∧ va < b

/-- The pages from `a` to `b` are mapped to `pa` and the pages behind it. -/
def MapsTo (d : PgDir) (a b pa : Nat) (perm : Pte) : Prop :=
  ∀ va, Between a b va → d.pte va = .mk (pa + (va / PGSIZE * PGSIZE - a)) perm ∧ d.tables (PDX va) = true

theorem mapFrom_succ (perm : Pte) (n a pa : Nat) (vm : Vm) : Vm.mapFrom perm (n + 1) a pa vm =
    (Vm.mapFrom perm 0 a pa vm >>= fun r =>
      if r.2 then Vm.mapFrom perm n ((a + PGSIZE) % 2 ^ 32) ((pa + PGSIZE) % 2 ^ 32) r.1 else .ok (r.1, false)) := by
  rw [Vm.mapFrom, Vm.mapFrom]
  rcases vm.walkpgdir a true with ⟨vm₁, ok⟩
  cases ok with
  | false => rfl
  | true =>
    dsimp only
    split
    · rfl
    · rfl

theorem mapFrom_kernel_one (perm : Pte) {a : Nat} (pa : Nat) (vm : Vm) (hlo : KERNBASE ≤ a) (ha : a < 2 ^ 32)
    (hfree : ∀ p ∈ vm.free, p ≠ 0) (habs : vm.dir.present a = false) :
    ∃ vm' ok, Vm.mapFrom perm 0 a pa vm = .ok (vm', ok) ∧ MapsKernel (fun va => a / PGSIZE = va / PGSIZE) vm vm' ∧
      (ok = true → MapsPage vm vm' a (.mk pa perm)) ∧ (ok = false → vm'.free = []) := by
  obtain ⟨hyes, hno⟩ := mapFrom_one vm ha hfree habs pa perm
  rcases Nat.lt_or_ge vm.free.length (if vm.dir.tables (PDX a) then 0 else 1) with hlt | hge
  · refine ⟨vm, false, hno hlt, .refl _ _, nofun, fun _ => List.eq_nil_of_length_eq_zero ?_⟩
    split at hlt <;> omega
  · obtain ⟨vm', hvm', hm⟩ := hyes hge
    exact ⟨vm', true, hvm', hm.mapsKernel hlo ha, fun _ => hm, nofun⟩

theorem MapsPage.mapsTo {a b pa : Nat} {perm : Pte} (h : MapsPage vm vm' a (.mk pa perm)) (ha : a % PGSIZE = 0) (hb : a + PGSIZE ≤ 2 ^ 32)
    (hab : b = a + PGSIZE) : MapsTo vm'.dir a b pa perm := by
  intro va hin
  have hva : va < 2 ^ 32 := by unfold Between at hin; omega
  have hpage : a / PGSIZE = va / PGSIZE := by unfold Between PGSIZE at *; omega
  have hpd : PDX va = PDX a := by unfold PDX PGSIZE at *; omega
  have hoff : va / PGSIZE * PGSIZE - a = 0 := by unfold PGSIZE at *; omega
  constructor
  · rw [h.pte va hva, if_pos hpage, hoff, Nat.add_zero]
  · rw [h.tables, hpd, Function.update_self]

theorem MapsTo.keep {P : Nat → Prop} {a b pa : Nat} {perm : Pte} (h : MapsTo vm.dir a b pa perm) (hb : b ≤ 2 ^ 32)
    (hk : MapsKernel P vm vm') (hP : ∀ va, Between a b va → ¬ P va) : MapsTo vm'.dir a b pa perm := by
  intro va hin
  have hva : va < 2 ^ 32 := by unfold Between at hin; omega
  obtain ⟨hpte, htab⟩ := h va hin
  exact ⟨by rw [hk.out va hva (hP va hin), hpte], hk.keeps _ htab⟩

theorem mapFrom_kernel (perm : Pte) {n a b : Nat} (pa : Nat) (vm : Vm) (ha : a % PGSIZE = 0) (hlo : KERNBASE ≤ a)
    (hab : b = a + (n + 1) * PGSIZE) (hb : b ≤ 2 ^ 32) (hfree : ∀ p ∈ vm.free, p ≠ 0)
    (habs : ∀ va, Between a b va → vm.dir.present va = false) :
    ∃ vm' ok, Vm.mapFrom perm n a pa vm = .ok (vm', ok) ∧ MapsKernel (Between a b) vm vm' ∧
      (ok = true → MapsTo vm'.dir a b pa perm) ∧ (ok = false → vm'.free = []) := by
  induction n generalizing a pa vm with
  | zero =>
    have hpage : ∀ va, a / PGSIZE = va / PGSIZE → Between a b va := by
      intro va
      unfold Between PGSIZE at *
      omega
    obtain ⟨vm', ok, hvm', hmaps, hrow, hfail⟩ := mapFrom_kernel_one perm pa vm hlo (by unfold PGSIZE at hab; omega) hfree
      (habs a (hpage a rfl))
    exact ⟨vm', ok, hvm', hmaps.mono hpage, fun hok => (hrow hok).mapsTo ha (by omega) (by omega), hfail⟩
  | succ n ih =>
    have hpage : ∀ va, a / PGSIZE = va / PGSIZE ↔ Between a (a + PGSIZE) va := by
      intro va
      unfold Between PGSIZE at *
      omega
    have hsub : ∀ va, Between a (a + PGSIZE) va → Between a b va := by
      intro va
      unfold Between PGSIZE at *
      omega
    have hsub' : ∀ va, Between (a + PGSIZE) b va → Between a b va := by
      intro va
      unfold Between PGSIZE at *
      omega
    obtain ⟨vm₁, ok, hvm₁, hmaps, hrow, hfail⟩ := mapFrom_kernel_one perm pa vm hlo (by unfold PGSIZE at hab; omega) hfree
      (habs a (hsub a ((hpage a).1 rfl)))
    have hmaps := hmaps.mono fun va h => (hpage va).1 h
    rw [mapFrom_succ, hvm₁, ok_bind]
    cases ok with
    | false => exact ⟨vm₁, false, rfl, hmaps.mono hsub, nofun, hfail⟩
    | true =>
      have hnext : (a + PGSIZE) % 2 ^ 32 = a + PGSIZE := Nat.mod_eq_of_lt (by unfold PGSIZE at *; omega)
      have hdisj : ∀ va, Between (a + PGSIZE) b va → ¬ Between a (a + PGSIZE) va := by
        intro va
        unfold Between
        omega
      simp only [if_true, hnext]
      obtain ⟨vm', ok, hvm', hmaps', hrow', hfail'⟩ := ih (a := a + PGSIZE) ((pa + PGSIZE) % 2 ^ 32) vm₁ (by unfold PGSIZE at *; omega) (by omega)
        (by unfold PGSIZE at *; omega) (fun p hp => hfree p (hmaps.suffix.subset hp)) fun va hin => by
          rw [PgDir.present_eq_pte, hmaps.out va (by unfold Between at hin; omega) (hdisj va hin), ← PgDir.present_eq_pte]
          exact habs va (hsub' va hin)
      refine ⟨vm', ok, hvm', (hmaps.trans hmaps').mono fun va h => h.elim (hsub va) (hsub' va), fun hok va hin => ?_, hfail'⟩
      by_cases hfirst : Between a (a + PGSIZE) va
      · exact ((hrow rfl).mapsTo ha (by unfold PGSIZE at *; omega) rfl).keep (by unfold PGSIZE at *; omega) hmaps'
          (fun va h h' => hdisj va h' h) va hfirst
      · obtain ⟨hpte, htab⟩ := hrow' hok va (by unfold Between at *; omega)
        refine ⟨hpte.trans (Pte.mk_congr ?_ _), htab⟩
        unfold Between PGSIZE at *
        omega

/-! ### Rows of `kmap` -/

def Vm.KMap.size (k : Vm.KMap) : Nat := (k.phys_end + 2 ^ 32 - k.phys_start) % 2 ^ 32

structure RowOk (k : Vm.KMap) : Prop where
  aligned : k.virt % PGSIZE = 0
  whole : k.size % PGSIZE = 0
  pos : 0 < k.size
  low : KERNBASE ≤ k.virt
  high : k.virt + k.size ≤ 2 ^ 32

/-- The addresses that the rows `ks` map. -/
def InRows (ks : List Vm.KMap) (va : Nat) : Prop := ∃ k ∈ ks, Between k.virt (k.virt + k.size) va

theorem mappages_row {k : Vm.KMap} (h : RowOk k) (vm : Vm) : vm.mappages k.virt k.size k.phys_start k.perm =
    Vm.mapFrom k.perm (k.size / PGSIZE - 1) k.virt k.phys_start vm := by
  obtain ⟨h1, h2, h3, h4, h5⟩ := h
  have ha : PGROUNDDOWN k.virt = k.virt := by unfold PGROUNDDOWN PGSIZE at *; omega
  have hlast : (PGROUNDDOWN ((k.virt + k.size + 2 ^ 32 - 1) % 2 ^ 32) + 2 ^ 32 - k.virt) % 2 ^ 32 / PGSIZE = k.size / PGSIZE - 1 := by
    unfold PGROUNDDOWN PGSIZE KERNBASE at *
    omega
  unfold Vm.mappages
  simp only [ha, hlast]

theorem mapRows_spec {ks : List Vm.KMap} (hok : ∀ k ∈ ks, RowOk k) (hsorted : ks.Pairwise fun k k' => k.virt + k.size ≤ k'.virt) (vm : Vm)
    (hfree : ∀ p ∈ vm.free, p ≠ 0) (habs : ∀ va, InRows ks va → vm.dir.present va = false) :
    ∃ vm' ok, Vm.mapRows ks vm = .ok (vm', ok) ∧ MapsKernel (InRows ks) vm vm' ∧
      (ok = true → ∀ k ∈ ks, MapsTo vm'.dir k.virt (k.virt + k.size) k.phys_start k.perm) ∧ (ok = false → vm'.free = []) := by
  induction ks generalizing vm with
  | nil => exact ⟨vm, true, rfl, .refl _ _, fun _ _ hk => absurd hk List.not_mem_nil, nofun⟩
  | cons k ks ih =>
    rw [List.pairwise_cons] at hsorted
    obtain ⟨hbefore, hsorted⟩ := hsorted
    have hfirst : ∀ va, Between k.virt (k.virt + k.size) va → InRows (k :: ks) va := fun va h => ⟨k, List.mem_cons_self, h⟩
    have hrest : ∀ va, InRows ks va → InRows (k :: ks) va := fun va ⟨k', hk', h⟩ => ⟨k', List.mem_cons_of_mem _ hk', h⟩
    have hdisj : ∀ va, InRows ks va → ¬ Between k.virt (k.virt + k.size) va := by
      rintro va ⟨k', hk', h⟩ h'
      have := hbefore k' hk'
      unfold Between at *
      omega
    obtain ⟨h1, h2, h3, h4, h5⟩ := hok k List.mem_cons_self
    obtain ⟨vm₁, ok, hvm₁, hmaps, hto, hfail⟩ := mapFrom_kernel (n := k.size / PGSIZE - 1) k.perm k.phys_start vm h1 h4
      (b := k.virt + k.size) (by unfold PGSIZE at *; omega) h5 hfree fun va h => habs va (hfirst va h)
    have hstep : vm.mappages k.virt ((k.phys_end + 2 ^ 32 - k.phys_start) % 2 ^ 32) k.phys_start k.perm = .ok (vm₁, ok) :=
      (mappages_row (hok k List.mem_cons_self) vm).trans hvm₁
    rw [Vm.mapRows, hstep, ok_bind]
    cases ok with
    | false => exact ⟨vm₁, false, rfl, hmaps.mono hfirst, nofun, hfail⟩
    | true =>
      obtain ⟨vm', ok, hvm', hmaps', hto', hfail'⟩ := ih (fun k hk => hok k (List.mem_cons_of_mem _ hk)) hsorted vm₁
        (fun p hp => hfree p (hmaps.suffix.subset hp)) fun va hin => by
          have hva : va < 2 ^ 32 := by
            obtain ⟨k', hk', hin⟩ := hin
            have := (hok k' (List.mem_cons_of_mem _ hk')).high
            unfold Between at hin
            omega
          rw [PgDir.present_eq_pte, hmaps.out va hva (hdisj va hin), ← PgDir.present_eq_pte]
          exact habs va (hrest va hin)
      refine ⟨vm', ok, hvm', (hmaps.trans hmaps').mono fun va h => h.elim (hfirst va) (hrest va), fun hok k' hk' => ?_, hfail'⟩
      rcases List.mem_cons.1 hk' with rfl | hk'
      · exact (hto rfl).keep h5 hmaps' fun va h h' => hdisj va h' h
      · exact hto' hok k' hk'

/-! ### `setupkvm` -/

/-- What the linker script says about `data`. -/
structure DataOk (data : Nat) : Prop where
  aligned : data % PGSIZE = 0
  low : EXTMEM < data
  high : data < PHYSTOP

section
variable {data : Nat} (hdata : DataOk data)
include hdata

theorem rowOk_kmap : ∀ k ∈ Vm.kmap data, RowOk k := by
  obtain ⟨h1, h2, h3⟩ := hdata
  unfold PGSIZE EXTMEM PHYSTOP at *
  intro k hk
  simp only [Vm.kmap, List.mem_cons, List.not_mem_nil, or_false] at hk
  rcases hk with rfl | rfl | rfl | rfl
  all_goals constructor
  all_goals simp only [Vm.KMap.size, KERNLINK, KERNBASE, EXTMEM, PHYSTOP, DEVSPACE, PGSIZE]
  all_goals omega

theorem sorted_kmap : (Vm.kmap data).Pairwise fun k k' => k.virt + k.size ≤ k'.virt := by
  obtain ⟨h1, h2, h3⟩ := hdata
  unfold PGSIZE EXTMEM PHYSTOP at *
  simp only [Vm.kmap, List.pairwise_cons, List.mem_cons, List.not_mem_nil, or_false, forall_eq_or_imp, forall_eq, Vm.KMap.size, KERNLINK,
    KERNBASE, EXTMEM, PHYSTOP, DEVSPACE, List.Pairwise.nil, and_true, false_imp_iff, implies_true]
  omega

/-- The rows cover the physical memory above `KERNBASE` and the devices. -/
theorem inRows_kmap (va : Nat) : InRows (Vm.kmap data) va ↔
    Between KERNBASE (KERNBASE + PHYSTOP) va ∨ Between DEVSPACE (2 ^ 32) va := by
  obtain ⟨h1, h2, h3⟩ := hdata
  unfold InRows Between
  unfold PGSIZE EXTMEM PHYSTOP at *
  simp only [Vm.kmap, List.mem_cons, List.not_mem_nil, or_false, exists_eq_or_imp, exists_eq_left, Vm.KMap.size, KERNLINK, KERNBASE, EXTMEM,
    PHYSTOP, DEVSPACE]
  omega

end

/-- A directory with the kernel's mappings and nothing else above `KERNBASE`. -/
structure KernelPart (data : Nat) (d : PgDir) : Prop where
  row : ∀ k ∈ Vm.kmap data, MapsTo d k.virt (k.virt + k.size) k.phys_start k.perm
  out : ∀ va < 2 ^ 32, KERNBASE ≤ va → ¬ InRows (Vm.kmap data) va → d.pte va = 0
  tables : ∀ i, KERNBASE / 2 ^ 22 ≤ i → d.tables i = true → ∃ va < 2 ^ 32, InRows (Vm.kmap data) va ∧ PDX va = i

theorem owned_kernelOnly {vm : Vm} (h : ∀ va < KERNBASE, vm.dir.pte va = 0) : vm.owned = vm.dir.tableFrames ++ vm.free := by
  have hframes : vm.dir.frames 0 KERNBASE = [] := by
    refine PgDir.frames_of_all_absent (Nat.zero_mod _) fun va hr => ?_
    rw [PgDir.present_eq_pte, h va (inRange_kernbase.1 hr)]
    rfl
  rw [Vm.owned, hframes, List.nil_append]

theorem owned_empty {vm : Vm} (h : vm.dir = fun _ => none) : vm.owned = vm.free := by
  have htables : vm.dir.tableFrames = [] := by
    refine List.filterMap_eq_nil_iff.2 fun i _ => ?_
    rw [PgDir.tableFrame, h]
    rfl
  rw [owned_kernelOnly fun va _ => by rw [h]; rfl, htables, List.nil_append]

/-- A new directory: its page and all it owns come from the free list. -/
structure Built (data : Nat) (vm vm' : Vm) (d : Nat) : Prop where
  kernel : KernelPart data vm'.dir
  owned : (d :: vm'.owned).Perm vm.free
  mem : ∀ p ∉ vm.free, vm'.mem p = vm.mem p

structure GivenBack (vm vm' : Vm) : Prop where
  free : vm'.free.Perm vm.free
  mem : ∀ p ∉ vm.free, vm'.mem p = vm.mem p

theorem setupkvm_spec {data : Nat} (hk : 0 < kend) (hdata : DataOk data) (hfree : ∀ p ∈ vm.free, Frame kend p) :
    (∃ vm' d, vm.setupkvm kend data = .ok (vm', d) ∧ d ≠ 0 ∧ Built data vm vm' d ∧ ∀ va < KERNBASE, vm'.dir.pte va = 0) ∨
      ∃ vm', vm.setupkvm kend data = .ok (vm', 0) ∧ GivenBack vm vm' ∧ vm.free.length ≤ NPDENTRIES + 1 := by
  unfold Vm.setupkvm Vm.kalloc
  cases hf : vm.free with
  | nil => exact .inr ⟨vm, rfl, ⟨.refl _, fun _ _ => rfl⟩, Nat.zero_le _⟩
  | cons d rest =>
    have hd : Frame kend d := hfree d (by rw [hf]; exact List.mem_cons_self)
    have hd0 : d ≠ 0 := by have := hd.low; omega
    have hrest : ∀ p ∈ rest, Frame kend p := fun p hp => hfree p (by rw [hf]; exact List.mem_cons_of_mem _ hp)
    simp only [if_neg hd0, if_neg (by decide : ¬ DEVSPACE < KERNBASE + PHYSTOP)]
    generalize hvm₀ : ({ (Vm.memset { vm with free := rest } d 0) with dir := fun _ => none } : Vm) = vm₀
    have hdir₀ : vm₀.dir = fun _ => none := by rw [← hvm₀]
    have hfree₀ : vm₀.free = rest := by rw [← hvm₀]; rfl
    have hmem₀ : ∀ p, p ≠ d → vm₀.mem p = vm.mem p := by
      intro p hp
      rw [← hvm₀]
      exact Function.update_of_ne hp _ _
    have habs : ∀ va, vm₀.dir.present va = false := fun va => by rw [hdir₀]; rfl
    have hpte₀ : ∀ va, vm₀.dir.pte va = 0 := fun va => by rw [hdir₀]; rfl
    have htab₀ : ∀ i, vm₀.dir.tables i = false := fun i => by rw [hdir₀]; rfl
    obtain ⟨vm₁, ok, hvm₁, hmaps, hto, hfail⟩ := mapRows_spec (rowOk_kmap hdata) (sorted_kmap hdata) vm₀
      (fun p hp => by have := (hrest p (by rwa [hfree₀] at hp)).low; omega) fun va _ => habs va
    have howned : vm₁.owned.Perm rest := by
      have := hmaps.owned
      rwa [owned_empty hdir₀, hfree₀] at this
    have hmem : ∀ p ∉ d :: rest, vm₁.mem p = vm.mem p := by
      intro p hp
      rw [List.mem_cons, not_or] at hp
      rw [hmaps.mem p (by rw [hfree₀]; exact hp.2), hmem₀ p hp.1]
    have huser : ∀ va < KERNBASE, vm₁.dir.pte va = 0 := by
      intro va hva
      rw [hmaps.out va (by unfold KERNBASE at hva; omega), hpte₀]
      rw [inRows_kmap hdata]
      unfold Between KERNBASE DEVSPACE at *
      omega
    rw [hvm₁, ok_bind]
    cases ok with
    | true =>
      refine .inl ⟨vm₁, d, rfl, hd0, ⟨⟨hto rfl, fun va hva _ hout => ?_, fun i _ hi => ?_⟩, ?_, by rw [hf]; exact hmem⟩, fun va hva => ?_⟩
      · rw [hmaps.out va hva hout, hpte₀]
      · exact (hmaps.tables i hi).resolve_left (by rw [htab₀]; nofun)
      · rw [hf]
        exact howned.cons d
      · exact huser va hva
    | false =>
      obtain ⟨vm', hvm', hfree', hmem'⟩ := freevm_owned hk hd fun p hp => hrest p (howned.subset hp)
      refine .inr ⟨vm', ?_, ⟨?_, fun p hp => ?_⟩, ?_⟩
      · simp only [hvm', ok_bind]
      · rw [hf]
        exact hfree'.trans (howned.cons d)
      · rw [hf] at hp
        rw [hmem' p fun hp' => hp ((howned.cons d).subset hp'), hmem p hp]
      · -- All the pages have gone into page tables.
        have hlen := howned.length_eq
        rw [owned_kernelOnly huser, hfail rfl, List.append_nil] at hlen
        rw [List.length_cons, ← hlen]
        exact Nat.succ_le_succ (PgDir.length_tableFrames_le vm₁.dir)

/-! ### `copyuvm` -/

theorem freevm_givenUp {d : Nat} (vm vm₁ : Vm) (hk : 0 < kend) (hd : Frame kend d) (hgood : ∀ p ∈ vm.owned, Frame kend p)
    (howned : vm₁.owned.Perm vm.owned) (hmem : ∀ p ∉ vm.owned, vm₁.mem p = vm.mem p) :
    ∃ vm', vm₁.freevm kend d = .ok vm' ∧ vm'.free.Perm (d :: vm.owned) ∧ ∀ p ∉ d :: vm.owned, vm'.mem p = vm.mem p := by
  obtain ⟨vm', hvm', hfree, hmem'⟩ := freevm_owned hk hd fun p hp => hgood p (howned.subset hp)
  refine ⟨vm', hvm', hfree.trans (howned.cons d), fun p hp => ?_⟩
  rw [hmem' p fun hp' => hp ((howned.cons d).subset hp'), hmem p fun hp' => hp (List.mem_cons_of_mem _ hp')]

theorem mem_owned_of_free {p : Nat} (hp : p ∈ vm.free) : p ∈ vm.owned := List.mem_append_right _ (List.mem_append_right _ hp)

section
variable {old : PgDir} {sz : Nat} {perm : Nat → Pte} {c : Nat → Nat → UInt8}

/-- The pages of the old directory, as the loop finds them: their frames are not free, so nothing overwrites them. -/
structure Source (old : PgDir) (sz : Nat) (perm : Nat → Pte) (c : Nat → Nat → UInt8) (vm : Vm) : Prop where
  present : ∀ va < sz, old.present va = true
  flags : ∀ va < sz, PTE_FLAGS (old.pte va) = perm (va / PGSIZE)
  contents : ∀ va < sz, vm.mem (PTE_ADDR (old.pte va)) = c (va / PGSIZE)
  apart : ∀ va < sz, PTE_ADDR (old.pte va) ∉ vm.free

theorem Source.next {b a pa : Nat} {rest : List Nat} {vm₂ : Vm} (h : Source old sz perm c vm)
    (hs : AllocStep kend b a pa (perm (a / PGSIZE)) (c (a / PGSIZE)) rest vm vm₂) : Source old sz perm c vm₂ :=
  ⟨h.present, h.flags, fun va hva => by rw [hs.mem (h.apart va hva), h.contents va hva], fun va hva hp => h.apart va hva (hs.sub hp)⟩

theorem copyFrom_spec {d : Nat} (hk : 0 < kend) (hd : Frame kend d) (hsz : sz ≤ KERNBASE) {n i : Nat} (vm : Vm) (hi : i % PGSIZE = 0)
    (hn : n = Vm.pageCount i sz) (hgood : ∀ p ∈ vm.owned, Frame kend p) (hsrc : Source old sz perm c vm)
    (habs : ∀ vb < 2 ^ 32, InRange i sz vb → vm.dir.present vb = false) :
    (∃ vm', Vm.copyFrom kend old d n i vm = .ok (vm', d) ∧ Allocated kend i sz perm c vm vm') ∨
      ∃ vm', Vm.copyFrom kend old d n i vm = .ok (vm', 0) ∧ vm'.free.Perm (d :: vm.owned) ∧
        ∀ p ∉ d :: vm.owned, vm'.mem p = vm.mem p := by
  induction n generalizing i vm with
  | zero => exact .inl ⟨vm, rfl, .nil vm hi (by unfold Vm.pageCount PGSIZE at hn; omega)⟩
  | succ n ih =>
    have hlt : i < sz := by unfold Vm.pageCount PGSIZE at hn; omega
    have hi32 : i < 2 ^ 32 := by unfold KERNBASE at hsz; omega
    have hini : InRange i sz i := by unfold InRange PGSIZE at *; omega
    obtain ⟨e, he⟩ := Option.isSome_iff_exists.1 (PgDir.isSome_of_present (hsrc.present i hlt))
    have hpte := PgDir.pte_of_entryAt he
    have hpres : e.present = true := by rw [← hpte, ← PgDir.present_eq_pte]; exact hsrc.present i hlt
    rw [Vm.copyFrom, he]
    simp only [hpres, Bool.true_eq_false, if_false]
    cases hf : vm.free with
    | nil =>
      obtain ⟨vm', hvm', hrest⟩ := freevm_givenUp vm vm hk hd hgood (.refl _) fun _ _ => rfl
      refine .inr ⟨vm', ?_, hrest⟩
      simp only [Vm.kalloc, hf, if_true, hvm', ok_bind]
    | cons pa rest =>
      have hpa : Frame kend pa := hgood pa (mem_owned_of_free (by rw [hf]; exact List.mem_cons_self))
      have hrest : ∀ p ∈ rest, p ≠ 0 := by
        intro p hp
        have := (hgood p (mem_owned_of_free (by rw [hf]; exact List.mem_cons_of_mem _ hp))).low
        omega
      have hpa0 : pa ≠ 0 := by have := hpa.low; omega
      simp only [Vm.kalloc, hf, hpa0, if_false, mappages_page _ hi hi32]
      have hcontents : vm.mem (PTE_ADDR e) = c (i / PGSIZE) := by rw [← hpte]; exact hsrc.contents i hlt
      have hflags : PTE_FLAGS e = perm (i / PGSIZE) := by rw [← hpte]; exact hsrc.flags i hlt
      have hmove : Vm.movePage { vm with free := rest } pa (PTE_ADDR e) =
          { vm with free := rest, mem := Function.update vm.mem pa (c (i / PGSIZE)) } := by
        rw [← hcontents]
        rfl
      rw [hmove, hflags]
      obtain ⟨hyes, hno⟩ := mapFrom_one { vm with free := rest, mem := Function.update vm.mem pa (c (i / PGSIZE)) } hi32 hrest
        (habs i hi32 hini) pa (perm (i / PGSIZE))
      rcases Nat.lt_or_ge rest.length (if vm.dir.tables (PDX i) then 0 else 1) with hfew | henough
      · -- There is no page for a page table: the frame for the copy goes back first.
        rw [hno hfew, ok_bind]
        have hpush : Vm.owned { vm with free := pa :: rest, mem := Function.update (Function.update vm.mem pa (c (i / PGSIZE))) pa fun _ => 1 } =
            vm.owned := by rw [Vm.owned, Vm.owned, hf]
        obtain ⟨vm', hvm', hgiven⟩ := freevm_givenUp vm
          { vm with free := pa :: rest, mem := Function.update (Function.update vm.mem pa (c (i / PGSIZE))) pa fun _ => 1 } hk hd hgood
          (by rw [hpush]) fun p hp => by
            have hne : p ≠ pa := fun heq => hp (mem_owned_of_free (by rw [hf, heq]; exact List.mem_cons_self))
            exact (Function.update_of_ne hne _ _).trans (Function.update_of_ne hne _ _)
        refine .inr ⟨vm', ?_, hgiven⟩
        simp only [kfree_ok _ hpa, ok_bind]
        rw [← ok_bind vm' fun vm => Except.ok (vm, 0), ← hvm']
        rfl
      · obtain ⟨vm₂, hvm₂, hmaps⟩ := hyes henough
        have hstep : AllocStep kend sz i pa (perm (i / PGSIZE)) (c (i / PGSIZE)) rest vm vm₂ :=
          ⟨hf, hpa, by rw [← hflags]; exact PTE_FLAGS_lt e, hi, hlt, hsz, habs i hi32 hini, hmaps⟩
        rw [hvm₂, ok_bind]
        rcases ih vm₂ (i := i + PGSIZE) (by unfold PGSIZE at *; omega) (by unfold Vm.pageCount PGSIZE at *; omega)
          (fun p hp => hgood p (hstep.owned.subset hp)) (hsrc.next hstep) fun vb hb hr => hstep.absent_rest habs hb hr
          with ⟨vm', hvm', ha⟩ | ⟨vm', hvm', hfree, hmem⟩
        · exact .inl ⟨vm', hvm', hstep.allocated ha⟩
        · refine .inr ⟨vm', hvm', hfree.trans (hstep.owned.cons d), fun p hp => ?_⟩
          rw [hmem p fun hp' => hp ((hstep.owned.cons d).subset hp'),
            hstep.mem fun hp' => hp (List.mem_cons_of_mem _ (mem_owned_of_free hp'))]

end

theorem KernelPart.allocated {data a b : Nat} {perm : Nat → Pte} {c : Nat → Nat → UInt8} (h : KernelPart data vm.dir) (hdata : DataOk data)
    (hb : b ≤ KERNBASE) (ha : Allocated kend a b perm c vm vm') : KernelPart data vm'.dir := by
  have hout : ∀ va < 2 ^ 32, KERNBASE ≤ va → vm'.dir.pte va = vm.dir.pte va := by
    intro va hva hlo
    refine ha.out va hva ?_
    unfold InRange PGSIZE KERNBASE at *
    omega
  refine ⟨fun k hk va hin => ?_, fun va hva hlo hn => ?_, fun i hlo hi => ?_⟩
  · have hrow := rowOk_kmap hdata k hk
    obtain ⟨hpte, htab⟩ := h.row k hk va hin
    have hva : va < 2 ^ 32 ∧ KERNBASE ≤ va := by
      have := hrow.high
      have := hrow.low
      unfold Between at hin
      omega
    refine ⟨by rw [hout va hva.1 hva.2, hpte], ha.keeps.tables htab⟩
  · rw [hout va hva hlo, h.out va hva hlo hn]
  · rcases ha.tables i hi with hi | ⟨vb, hin, rfl⟩
    · exact h.tables i hlo hi
    · exfalso
      unfold PDX InRange PGSIZE KERNBASE at *
      omega

/-- `copyuvm` makes a directory in which each page below `sz` has the contents and the flags of the old one and a frame of its own, and
leaves the old pages alone; or it gives back all the pages it has taken. -/
theorem copyuvm_copies (kend data : Nat) (old : PgDir) (sz : Nat) (vm : Vm) (hk : 0 < kend) (hdata : DataOk data)
    (hfree : ∀ p ∈ vm.free, Frame kend p) (hnd : vm.free.Nodup) (hsz : sz ≤ KERNBASE) (hold : ∀ va < sz, old.present va = true)
    (hapart : ∀ va < sz, PTE_ADDR (old.pte va) ∉ vm.free) :
    (∃ vm' d, vm.copyuvm kend data old sz = .ok (vm', d) ∧ d ≠ 0 ∧
      (∀ va < KERNBASE, vm'.dir.present va = true ↔ va / PGSIZE * PGSIZE < sz) ∧
      (∀ va < sz, PTE_FLAGS (vm'.dir.pte va) = PTE_FLAGS (old.pte va) ∧
        vm'.mem (PTE_ADDR (vm'.dir.pte va)) = vm.mem (PTE_ADDR (old.pte va))) ∧
      KernelPart data vm'.dir ∧ (d :: vm'.owned).Nodup ∧ (d :: vm'.owned).Perm vm.free ∧ ∀ p ∉ vm.free, vm'.mem p = vm.mem p) ∨
    ∃ vm', vm.copyuvm kend data old sz = .ok (vm', 0) ∧ vm'.free.Perm vm.free ∧ ∀ p ∉ vm.free, vm'.mem p = vm.mem p := by
  unfold Vm.copyuvm
  rcases setupkvm_spec hk hdata hfree with ⟨vm₁, d, hvm₁, hd0, hbuilt, hempty⟩ | ⟨vm', hvm', hback, -⟩
  swap
  · exact .inr ⟨vm', by rw [hvm']; rfl, hback.free, hback.mem⟩
  have hin : ∀ p ∈ d :: vm₁.owned, p ∈ vm.free := fun p hp => hbuilt.owned.subset hp
  have hgood : ∀ p ∈ vm₁.owned, Frame kend p := fun p hp => hfree p (hin p (List.mem_cons_of_mem _ hp))
  have hd : Frame kend d := hfree d (hin d List.mem_cons_self)
  have hpage : ∀ va, va / PGSIZE * PGSIZE / PGSIZE = va / PGSIZE := fun va => Nat.mul_div_cancel _ (by decide)
  have hsrc : Source old sz (fun i => PTE_FLAGS (old.pte (i * PGSIZE))) (fun i => vm.mem (PTE_ADDR (old.pte (i * PGSIZE)))) vm₁ :=
    ⟨hold, fun va _ => by rw [PgDir.pte_congr (hpage va)],
      fun va hva => by rw [PgDir.pte_congr (hpage va), hbuilt.mem _ (hapart va hva)],
      fun va hva hp => hapart va hva (hin _ (List.mem_cons_of_mem _ (mem_owned_of_free hp)))⟩
  have hnone : ∀ va < KERNBASE, vm₁.dir.present va = false := fun va hva => by rw [PgDir.present_eq_pte, hempty va hva]; rfl
  have hlt : ∀ {va}, InRange 0 sz va → va < KERNBASE := fun h => by unfold InRange PGSIZE KERNBASE at *; omega
  rw [hvm₁, ok_bind]
  simp only [if_neg hd0]
  rcases copyFrom_spec hk hd hsz vm₁ (Nat.zero_mod _) rfl hgood hsrc fun vb _ hr => hnone vb (hlt hr)
    with ⟨vm', hvm', ha⟩ | ⟨vm', hvm', hback, hmem⟩
  · have howned := (ha.owned.cons d).trans hbuilt.owned
    have hnd₁ : vm₁.free.Nodup := by
      have := hbuilt.owned.nodup_iff.2 hnd
      exact (List.nodup_append.1 (List.nodup_append.1 (List.nodup_cons.1 this).2).2.1).2.1
    refine .inl ⟨vm', d, hvm', hd0, fun va hva => ?_, fun va hva => ?_, hbuilt.kernel.allocated hdata hsz ha, howned.nodup_iff.2 hnd, howned,
      fun p hp => ?_⟩
    · have hva32 : va < 2 ^ 32 := by unfold KERNBASE at hva; omega
      rw [PgDir.present_eq_pte]
      by_cases hr : InRange 0 sz va
      · obtain ⟨pa, -, -, -, hpte⟩ := ha.new va hva32 hr
        rw [hpte]
        exact iff_of_true (Pte.present_mk _ _) hr.2
      · rw [ha.out va hva32 hr, hempty va hva]
        exact iff_of_false (by decide) fun h => hr ⟨Nat.zero_le _, h⟩
    · have hr : InRange 0 sz va := ⟨Nat.zero_le _, by unfold PGSIZE; omega⟩
      have hva32 : va < 2 ^ 32 := by have := hlt hr; unfold KERNBASE at this; omega
      obtain ⟨pa, -, hpa, -, hpte⟩ := ha.new va hva32 hr
      refine ⟨?_, ?_⟩
      · rw [hpte, PgDir.pte_congr (hpage va)]
        exact PTE_FLAGS_mk hpa.aligned (by rw [← PgDir.present_eq_pte]; exact hold va hva)
      · rw [ha.contents hnd₁ va hva32 hr, PgDir.pte_congr (hpage va)]
    · rw [ha.mem p fun hp' => hp (hin p (List.mem_cons_of_mem _ (mem_owned_of_free hp'))), hbuilt.mem p hp]
  · refine .inr ⟨vm', hvm', hback.trans hbuilt.owned, fun p hp => ?_⟩
    rw [hmem p fun hp' => hp (hin p hp'), hbuilt.mem p hp]

/-- A copy of one page with two free pages, which are not enough. -/
theorem copyuvm_copies_singlePage : ∃ vm' d, (singleVm [0x402000, 0x403000]).copyuvm 0x200000 0x108000 singlePage 4096 = .ok (vm', d) ∧
    (d = 0 → vm'.free.Perm [0x402000, 0x403000]) := by
  have haddr : ∀ va < 4096, PTE_ADDR (singlePage.pte va) ∉ [0x402000, 0x403000] := by
    intro va hva
    rw [PgDir.pte_congr (show va / PGSIZE = 0 / PGSIZE by unfold PGSIZE; omega)]
    decide
  rcases copyuvm_copies 0x200000 0x108000 singlePage 4096 (singleVm [0x402000, 0x403000]) (by decide) ⟨by decide, by decide, by decide⟩
    (frame_pages (by decide)) (by decide) (by decide) (fun va hva => (present_singlePage (by unfold KERNBASE; omega)).2 hva) haddr
    with ⟨vm', d, hvm', hd, -⟩ | ⟨vm', hvm', hfree, -⟩
  · exact ⟨vm', d, hvm', fun h => absurd h hd⟩
  · exact ⟨vm', 0, hvm', fun _ => hfree⟩

end Ostep.Xv6
