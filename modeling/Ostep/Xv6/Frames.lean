import Ostep.Xv6.VmSpec

/-!
# Where the frames go

`allocuvm` takes fresh frames for the new pages and gives all of them back when it fails, `deallocuvm` frees the frames of the pages
it clears and `freevm` all that a directory holds. `growproc` keeps the promises of its callers unless it is asked to shrink the
process to nothing or below.
-/

namespace Ostep.Xv6

variable {kend : Nat} {vm vm' : Vm}

/-! ### `freevm` -/

theorem freeTables_ok (kend : Nat) (vm : Vm) (is : List Nat) (hgood : ∀ p ∈ is.filterMap vm.dir.tableFrame, Frame kend p) :
    ∃ vm', vm.freeTables kend is = .ok vm' ∧ vm'.dir = vm.dir ∧
      vm'.free = (is.filterMap vm.dir.tableFrame).reverse ++ vm.free ∧
      ∀ p ∉ is.filterMap vm.dir.tableFrame, vm'.mem p = vm.mem p := by
  induction is generalizing vm with
  | nil => exact ⟨vm, rfl, rfl, rfl, fun _ _ => rfl⟩
  | cons i is ih =>
    unfold Vm.freeTables at ih ⊢
    rw [List.foldlM_cons]
    cases ht : vm.dir i with
    | none =>
      have hnone : vm.dir.tableFrame i = none := by rw [PgDir.tableFrame, ht]; rfl
      rw [List.filterMap_cons_none hnone] at hgood ⊢
      rw [ok_bind]
      exact ih vm hgood
    | some t =>
      have hsome : vm.dir.tableFrame i = some t.frame := by rw [PgDir.tableFrame, ht]; rfl
      rw [List.filterMap_cons_some hsome] at hgood ⊢
      simp only [kfree_ok vm (hgood _ List.mem_cons_self), ok_bind]
      obtain ⟨vm', hvm', hdir, hfree, hmem⟩ := ih { vm.memset t.frame 1 with free := t.frame :: vm.free }
        fun p hp => hgood p (List.mem_cons_of_mem _ hp)
      refine ⟨vm', hvm', hdir, ?_, fun p hp => ?_⟩
      · rw [hfree, List.reverse_cons, List.append_assoc]
        rfl
      · rw [List.mem_cons, not_or] at hp
        rw [hmem p hp.2]
        exact Function.update_of_ne hp.1 _ _

theorem PGROUNDUP_zero : PGROUNDUP 0 = 0 := by decide

theorem freevm_ok (hk : 0 < kend) {pgdir : Nat} (hpgdir : Frame kend pgdir) (hgood : ∀ p ∈ vm.dir.frames 0 KERNBASE, Frame kend p)
    (htables : ∀ p ∈ vm.dir.tableFrames, Frame kend p) :
    ∃ vm', vm.freevm kend pgdir = .ok vm' ∧
      vm'.free = pgdir :: (vm.dir.tableFrames.reverse ++ ((vm.dir.frames 0 KERNBASE).reverse ++ vm.free)) ∧
      ∀ p, p ≠ pgdir → p ∉ vm.owned → vm'.mem p = vm.mem p := by
  rw [← PGROUNDUP_zero] at hgood
  obtain ⟨vm₁, hvm₁, hd⟩ := deallocuvm_ok hk (Nat.le_refl _) (by decide : 0 < KERNBASE) hgood
  have htables₁ : vm₁.dir.tableFrames = vm.dir.tableFrames := PgDir.tableFrames_congr hd.tables
  obtain ⟨vm₂, hvm₂, -, hfree, hmem⟩ := freeTables_ok kend vm₁ (List.range NPDENTRIES)
    fun p hp => htables p (by rw [← htables₁]; exact hp)
  have hdealloc := hd.free
  rw [PGROUNDUP_zero] at hdealloc
  refine ⟨{ vm₂.memset pgdir 1 with free := pgdir :: vm₂.free }, ?_, ?_, fun p hp hown => ?_⟩
  · rw [Vm.freevm, if_neg (by have := hpgdir.low; omega), hvm₁]
    simp only [ok_bind]
    rw [hvm₂, ok_bind, kfree_ok vm₂ hpgdir]
  · show pgdir :: vm₂.free = _
    rw [hfree, hdealloc, ← htables₁]
    rfl
  · rw [Vm.owned, List.mem_append, List.mem_append, not_or, not_or] at hown
    refine (Function.update_of_ne hp _ _).trans ((hmem p ?_).trans (hd.mem p ?_))
    · exact fun hp' => hown.2.1 (by rw [← htables₁]; exact hp')
    · rw [PGROUNDUP_zero]
      exact hown.1

theorem freevm_owned (hk : 0 < kend) {pgdir : Nat} (hpgdir : Frame kend pgdir) (hgood : ∀ p ∈ vm.owned, Frame kend p) :
    ∃ vm', vm.freevm kend pgdir = .ok vm' ∧ vm'.free.Perm (pgdir :: vm.owned) ∧
      ∀ p ∉ pgdir :: vm.owned, vm'.mem p = vm.mem p := by
  unfold Vm.owned at hgood
  obtain ⟨vm', hvm', hfree, hmem⟩ := freevm_ok hk hpgdir (fun p hp => hgood p (List.mem_append_left _ hp))
    fun p hp => hgood p (List.mem_append_right _ (List.mem_append_left _ hp))
  refine ⟨vm', hvm', ?_, fun p hp => ?_⟩
  · rw [hfree]
    refine List.Perm.cons _ ?_
    unfold Vm.owned
    refine ((List.reverse_perm _).append ((List.reverse_perm _).append_right _)).trans ?_
    rw [← List.append_assoc, ← List.append_assoc]
    exact List.perm_append_comm.append_right _
  · rw [List.mem_cons, not_or] at hp
    exact hmem p hp.1 hp.2

/-- `deallocuvm` comes to its end, frees the frame of each present page of the range once and clears the entries of those pages only;
`freevm` frees every user page, page table and the directory once. -/
theorem deallocuvm_exact (kend : Nat) (vm : Vm) (oldsz newsz pgdir : Nat) (hk : 0 < kend) (hlt : newsz < oldsz) (hold : oldsz ≤ KERNBASE)
    (hgood : ∀ p ∈ vm.dir.frames 0 KERNBASE, Frame kend p) (htables : ∀ p ∈ vm.dir.tableFrames, Frame kend p)
    (hpgdir : Frame kend pgdir) :
    (∃ vm', vm.deallocuvm kend oldsz newsz = .ok (vm', newsz) ∧
      vm'.free = (vm.dir.frames (PGROUNDUP newsz) oldsz).reverse ++ vm.free ∧
      (∀ va < 2 ^ 32, vm'.dir.entryAt va =
        if InRange (PGROUNDUP newsz) oldsz va ∧ vm.dir.present va = true then some 0 else vm.dir.entryAt va) ∧
      ∀ i, vm'.dir.tableFrame i = vm.dir.tableFrame i) ∧
    ∃ vm', vm.freevm kend pgdir = .ok vm' ∧
      vm'.free = pgdir :: (vm.dir.tableFrames.reverse ++ ((vm.dir.frames 0 KERNBASE).reverse ++ vm.free)) := by
  constructor
  · have hrange : ∀ p ∈ vm.dir.frames (PGROUNDUP newsz) oldsz, Frame kend p := by
      intro p hp
      obtain ⟨va, hr, hpres, rfl⟩ := (PgDir.mem_frames (PGROUNDUP_aligned newsz)).1 hp
      refine hgood _ ((PgDir.mem_frames (Nat.zero_mod _)).2 ⟨va, inRange_kernbase.2 ?_, hpres, rfl⟩)
      unfold InRange PGSIZE KERNBASE at *
      omega
    obtain ⟨vm', hvm', hd⟩ := deallocuvm_ok hk hold hlt hrange
    exact ⟨vm', hvm', hd.free, fun va hva => hd.entryAt hva, hd.tables⟩
  · obtain ⟨vm', hvm', hfree, -⟩ := freevm_ok hk hpgdir hgood htables
    exact ⟨vm', hvm', hfree⟩

def singlePage : PgDir := fun i =>
  if i = 0 then some ⟨0x400000, fun j => if j = 0 then .mk 0x401000 (PTE_W ||| PTE_U) else 0⟩ else none

theorem present_singlePage {va : Nat} (hva : va < KERNBASE) : singlePage.present va = true ↔ va < 4096 := by
  rw [lt_pgsize_iff hva]
  unfold PgDir.present PgDir.entryAt singlePage
  by_cases h0 : PDX va = 0
  · by_cases ht : PTX va = 0
    · simp [h0, ht]
    · simp [h0, ht]
  · simp [h0]

theorem frames_singlePage : singlePage.frames 0 KERNBASE = [0x401000] := by
  have hrest : singlePage.frames 4096 KERNBASE = [] := by
    refine PgDir.frames_of_all_absent (by decide) fun va hr => ?_
    have hva : va < KERNBASE := by unfold InRange PGSIZE KERNBASE at *; omega
    rw [← Bool.not_eq_true, present_singlePage hva]
    exact Nat.not_lt.2 hr.1
  rw [PgDir.frames_of_present (by decide) ((present_singlePage (by decide)).2 (by decide)), Nat.zero_add]
  exact congrArg (List.cons _) hrest

theorem tableFrames_singlePage : singlePage.tableFrames = [0x400000] := by decide +kernel

theorem exactPages_singlePage : ExactPages singlePage 4096 := fun _ hva => present_singlePage hva

def singleVm (free : List Nat) : Vm := { dir := singlePage, free := free, mem := fun _ _ => 7 }

theorem frame_iff {pa : Nat} : Frame kend pa ↔ pa % PGSIZE = 0 ∧ kend ≤ pa ∧ pa < PHYSTOP :=
  ⟨fun h => ⟨h.aligned, h.low, h.high⟩, fun h => ⟨h.1, h.2.1, h.2.2⟩⟩

theorem frame_pages {l : List Nat} (h : ∀ p ∈ l, p % PGSIZE = 0 ∧ kend ≤ p ∧ p < PHYSTOP) : ∀ p ∈ l, Frame kend p :=
  fun p hp => frame_iff.2 (h p hp)

theorem deallocuvm_exact_singlePage : ∃ vm', (singleVm []).freevm 0x200000 0x402000 = .ok vm' ∧
    vm'.free = [0x402000, 0x400000, 0x401000] := by
  obtain ⟨-, vm', hvm', hfree⟩ := deallocuvm_exact 0x200000 (singleVm []) 4096 0 0x402000 (by decide) (by decide) (by decide)
    (by rw [show (singleVm []).dir = singlePage from rfl, frames_singlePage]; exact frame_pages (by decide))
    (by rw [show (singleVm []).dir = singlePage from rfl, tableFrames_singlePage]; exact frame_pages (by decide))
    (frame_iff.2 (by decide))
  refine ⟨vm', hvm', hfree.trans ?_⟩
  show _ :: (singlePage.tableFrames.reverse ++ ((singlePage.frames 0 KERNBASE).reverse ++ [])) = _
  rw [frames_singlePage, tableFrames_singlePage]
  rfl

/-! ### `allocuvm` -/

theorem KeepsTables.tableFrames {d d' : PgDir} (h : KeepsTables d d') : ∃ new, d'.tableFrames.Perm (new ++ d.tableFrames) := by
  refine ⟨_, perm_filterMap_of_fill fun i _ hi => h i fun hnone => hi ?_⟩
  rw [PgDir.tableFrame, hnone]
  rfl

theorem SamePages.frames {d d' : PgDir} (h : SamePages d d') : d'.frames 0 KERNBASE = d.frames 0 KERNBASE := by
  refine PgDir.frames_congr (Nat.zero_mod _) fun va hr => ?_
  have hva : va < 2 ^ 32 := by have := inRange_kernbase.1 hr; unfold KERNBASE at this; omega
  obtain ⟨hpres, hpte⟩ := h va hva
  unfold PgDir.frameAt
  rw [hpres]
  split
  · next hp => rw [hpte hp]
  · rfl

/-- `allocuvm` has mapped all the new pages, or none of them. -/
theorem allocuvm_cases {oldsz newsz : Nat} (hk : 0 < kend) (hle : oldsz ≤ newsz) (hnew : newsz < KERNBASE)
    (hfree : ∀ p ∈ vm.free, Frame kend p) (habs : ∀ vb < 2 ^ 32, InRange (PGROUNDUP oldsz) newsz vb → vm.dir.present vb = false) :
    (∃ vm', vm.allocuvm kend oldsz newsz = .ok (vm', newsz) ∧
      Allocated kend (PGROUNDUP oldsz) newsz (fun _ => PTE_W ||| PTE_U) (fun _ _ => 0) vm vm') ∨
    ∃ vm', vm.allocuvm kend oldsz newsz = .ok (vm', 0) ∧ RolledBack (PGROUNDUP oldsz) newsz vm vm' := by
  rcases Nat.lt_or_ge oldsz newsz with hlt | hge
  · obtain ⟨hyes, hno⟩ := allocuvm_spec hk hfree hlt hnew habs
    exact (Nat.lt_or_ge vm.free.length (growNeed vm.dir oldsz newsz)).symm.imp hyes hno
  · obtain rfl : newsz = oldsz := by omega
    have hround := (PGROUNDUP_le hnew).1
    have hcount : Vm.pageCount (PGROUNDUP newsz) newsz = 0 := by unfold Vm.pageCount PGSIZE; omega
    refine .inl ⟨vm, ?_, .nil vm (PGROUNDUP_aligned _) hround⟩
    rw [Vm.allocuvm, if_neg (by omega), if_neg (by omega)]
    dsimp only
    rw [hcount]
    rfl

theorem RolledBack.mem_of_absent {a b p : Nat} (h : RolledBack a b vm vm') (ha : a % PGSIZE = 0) (hb : b ≤ KERNBASE)
    (habs : ∀ vb < 2 ^ 32, InRange a b vb → vm.dir.present vb = false) (hp : p ∉ vm.free) : vm'.mem p = vm.mem p := by
  have hnone : vm.dir.frames a b = [] := by
    refine PgDir.frames_of_all_absent ha fun vb hin => habs vb ?_ hin
    unfold InRange PGSIZE KERNBASE at *
    omega
  exact h.mem p hp (by rw [hnone]; nofun)

/-- `allocuvm` maps a fresh zeroed frame for each page up to `newsz` and for no other, or leaves the pages as they were and keeps
nothing but pages for new page tables. -/
theorem allocuvm_fresh (kend : Nat) (vm : Vm) (oldsz newsz : Nat) (hk : 0 < kend) (hle : oldsz ≤ newsz) (hnew : newsz < KERNBASE)
    (hfree : ∀ p ∈ vm.free, Frame kend p) (hnd : vm.free.Nodup)
    (habs : ∀ va, PGROUNDUP oldsz ≤ va → va < newsz → vm.dir.present va = false) :
    (∃ vm', vm.allocuvm kend oldsz newsz = .ok (vm', newsz) ∧
      (∀ va < 2 ^ 32, ¬ (PGROUNDUP oldsz ≤ va ∧ va < PGROUNDUP newsz) → vm'.dir.pte va = vm.dir.pte va) ∧
      (∀ va, PGROUNDUP oldsz ≤ va → va < PGROUNDUP newsz → ∃ pa ∈ vm.free, PTE_ADDR (vm'.dir.pte va) = pa ∧
        vm'.dir.pte va = .mk pa (PTE_W ||| PTE_U) ∧ vm'.mem pa = fun _ => 0) ∧
      (∀ va vb, PGROUNDUP oldsz ≤ va → va < PGROUNDUP newsz → PGROUNDUP oldsz ≤ vb → vb < PGROUNDUP newsz →
        PTE_ADDR (vm'.dir.pte va) = PTE_ADDR (vm'.dir.pte vb) → va / PGSIZE = vb / PGSIZE) ∧
      vm'.owned.Perm vm.owned) ∨
    (∃ vm', vm.allocuvm kend oldsz newsz = .ok (vm', 0) ∧ SamePages vm.dir vm'.dir ∧
      (∀ p ∉ vm.free, vm'.mem p = vm.mem p) ∧
      ∃ new, vm'.dir.tableFrames.Perm (new ++ vm.dir.tableFrames) ∧ vm.free.Perm (new ++ vm'.free)) := by
  have hrange : ∀ va, InRange (PGROUNDUP oldsz) newsz va ↔ PGROUNDUP oldsz ≤ va ∧ va < PGROUNDUP newsz := fun va => inRange_iff hnew
  have htop := (PGROUNDUP_le hnew).2
  have habs' : ∀ vb < 2 ^ 32, InRange (PGROUNDUP oldsz) newsz vb → vm.dir.present vb = false := by
    intro vb hb hr
    have hpage : vb / PGSIZE * PGSIZE / PGSIZE = vb / PGSIZE := Nat.mul_div_cancel _ (by decide)
    rw [← PgDir.present_congr hpage]
    have := PGROUNDUP_aligned oldsz
    refine habs _ ?_ hr.2
    unfold InRange PGSIZE at *
    omega
  rcases allocuvm_cases hk hle hnew hfree habs' with ⟨vm', hvm', ha⟩ | ⟨vm', hvm', hr⟩
  · have hlt : ∀ {va}, va < PGROUNDUP newsz → va < 2 ^ 32 := fun h => by unfold KERNBASE at htop; omega
    refine .inl ⟨vm', hvm', fun va hva hn => ha.out va hva (by rwa [hrange]), fun va h1 h2 => ?_, fun va vb h1 h2 h3 h4 heq => ?_, ha.owned⟩
    · have hin := (hrange va).2 ⟨h1, h2⟩
      obtain ⟨pa, hpa, -, haddr, hpte⟩ := ha.new va (hlt h2) hin
      refine ⟨pa, hpa, haddr, hpte, ?_⟩
      rw [← haddr]
      exact ha.contents hnd va (hlt h2) hin
    · exact ha.inj hnd va (hlt h2) vb (hlt h4) ((hrange va).2 ⟨h1, h2⟩) ((hrange vb).2 ⟨h3, h4⟩) heq
  · have hsame := hr.emptied.samePages habs'
    obtain ⟨new, hnew⟩ := hr.keeps.tableFrames
    refine .inr ⟨vm', hvm', hsame, fun p hp => hr.mem_of_absent (PGROUNDUP_aligned _) (by omega) habs' hp, new, hnew, ?_⟩
    -- The user frames are the same, so tables and free list have exchanged pages only with each other.
    have howned := hr.owned
    unfold Vm.owned at howned
    rw [hsame.frames, List.perm_append_left_iff] at howned
    have hall := (hnew.append_right vm'.free).symm.trans howned
    rw [List.append_assoc] at hall
    have hswap := (List.perm_append_comm_assoc vm.dir.tableFrames new vm'.free).trans hall
    exact ((List.perm_append_left_iff _).1 hswap).symm

theorem absent_singlePage {va : Nat} (h1 : 4096 ≤ va) (h2 : va < KERNBASE) : singlePage.present va = false := by
  rw [← Bool.not_eq_true, present_singlePage h2]
  omega

theorem allocuvm_fresh_singlePage :
    (∃ vm', (singleVm [0x402000]).allocuvm 0x200000 4096 8192 = .ok (vm', 8192) ∧ vm'.mem 0x402000 = fun _ => 0) ∨
      ∃ vm', (singleVm [0x402000]).allocuvm 0x200000 4096 8192 = .ok (vm', 0) := by
  have hround : PGROUNDUP 4096 = 4096 := by decide
  have hround' : PGROUNDUP 8192 = 8192 := by decide
  rcases allocuvm_fresh 0x200000 (singleVm [0x402000]) 4096 8192 (by decide) (by decide)
    (by decide) (frame_pages (by decide)) (by decide)
    (fun va h1 h2 => absent_singlePage (by rwa [hround] at h1) (by unfold KERNBASE; omega)) with ⟨vm', hvm', -, hnew, -⟩ | ⟨vm', hvm', -⟩
  · obtain ⟨pa, hpa, -, -, hmem⟩ := hnew 4096 (by rw [hround]) (by rw [hround']; decide)
    rw [List.mem_singleton.1 hpa] at hmem
    exact .inl ⟨vm', hvm', hmem⟩
  · exact .inr ⟨vm', hvm'⟩

/-! ### `growproc` -/

/-- The frames of the process and the free ones are pages that `kfree` takes, and all different. -/
structure Sound (kend : Nat) (vm : Vm) : Prop where
  frame : ∀ p ∈ vm.owned, Frame kend p
  nodup : vm.owned.Nodup

namespace Sound

variable (h : Sound kend vm)
include h

theorem good : GoodFrames kend vm.dir := by
  intro va hva hp
  refine h.frame _ (List.mem_append_left _ ?_)
  exact (PgDir.mem_frames (Nat.zero_mod _)).2 ⟨va, inRange_kernbase.2 hva, hp, rfl⟩

theorem free {p : Nat} (hp : p ∈ vm.free) : Frame kend p := h.frame p (List.mem_append_right _ (List.mem_append_right _ hp))

theorem free_nodup : vm.free.Nodup := (List.nodup_append.1 (List.nodup_append.1 h.nodup).2.1).2.1

theorem not_free {va : Nat} (hva : va < KERNBASE) (hp : vm.dir.present va = true) : PTE_ADDR (vm.dir.pte va) ∉ vm.free := by
  intro hfree
  have hmem := (PgDir.mem_frames (Nat.zero_mod _)).2 ⟨va, inRange_kernbase.2 hva, hp, rfl⟩
  exact (List.nodup_append.1 h.nodup).2.2 _ hmem _ (List.mem_append_right _ hfree) rfl

theorem page_eq {va vb : Nat} (hva : va < KERNBASE) (hvb : vb < KERNBASE) (hpa : vm.dir.present va = true)
    (hpb : vm.dir.present vb = true) (heq : PTE_ADDR (vm.dir.pte va) = PTE_ADDR (vm.dir.pte vb)) : va / PGSIZE = vb / PGSIZE := by
  have hpage : ∀ v, v / PGSIZE * PGSIZE / PGSIZE = v / PGSIZE := fun v => Nat.mul_div_cancel _ (by decide)
  have hmem : ∀ {v}, v < KERNBASE → v / PGSIZE * PGSIZE ∈ pages 0 KERNBASE := fun hv =>
    (mem_pages (Nat.zero_mod _)).2 ⟨Nat.mul_mod_left _ _, (inRange_congr (Nat.zero_mod _) (hpage _)).2 (inRange_kernbase.2 hv)⟩
  have hslot := slot_eq_of_nodup (List.nodup_append.1 h.nodup).1 (hmem hva) (hmem hvb)
    ((PgDir.frameAt_congr (hpage va)).trans (PgDir.frameAt_of_present hpa))
    ((PgDir.frameAt_congr (hpage vb)).trans ((PgDir.frameAt_of_present hpb).trans (by rw [heq])))
  unfold PGSIZE at *
  omega

theorem perm (hp : vm'.owned.Perm vm.owned) : Sound kend vm' :=
  ⟨fun p hm => h.frame p (hp.subset hm), hp.nodup_iff.2 h.nodup⟩

end Sound

/-- The user page of `va` has the same entry and the same contents. -/
def SamePage (vm vm' : Vm) (va : Nat) : Prop :=
  vm'.dir.pte va = vm.dir.pte va ∧ vm'.mem (PTE_ADDR (vm.dir.pte va)) = vm.mem (PTE_ADDR (vm.dir.pte va))

/-- What a caller of `growproc(n)` relies on. -/
def GrowOk (vm : Vm) (sz : Nat) (n : Int) (res : Except Halt (Vm × Nat × Int)) : Prop :=
  ∃ vm' sz' ret, res = .ok (vm', sz', ret) ∧
    ((ret = 0 ∧ (sz' : Int) = sz + n ∧ ExactPages vm'.dir sz' ∧
      (∀ va, PGROUNDUP sz ≤ va → va < PGROUNDUP sz' → vm'.mem (PTE_ADDR (vm'.dir.pte va)) = fun _ => 0) ∧
      ∀ va, va < PGROUNDUP sz → va < PGROUNDUP sz' → SamePage vm vm' va) ∨
    (ret = -1 ∧ sz' = sz ∧ ∀ va < KERNBASE, vm'.dir.present va = vm.dir.present va ∧
      (vm.dir.present va = true → SamePage vm vm' va)))

section
variable {sz : Nat} {n : Int} (hk : 0 < kend) (h : Sound kend vm) (hsz : sz < KERNBASE) (hd : ExactPages vm.dir sz)
include hk h hsz hd

theorem growOk_grow (hn : 0 < n) (hn' : n < 2 ^ 31) : GrowOk vm sz n (vm.growproc kend sz n) := by
  have huser : UserSpace kend vm.dir sz := ⟨hsz, hd, h.good⟩
  have hmax : (sz : Int) + n < 2 ^ 32 := by unfold KERNBASE at hsz; omega
  unfold Vm.growproc
  rw [if_pos hn, toUint32_of_nonneg (by omega) hmax]
  by_cases hbig : KERNBASE ≤ (sz + n).toNat
  · rw [Vm.allocuvm, if_pos hbig]
    exact ⟨vm, sz, -1, rfl, .inr ⟨rfl, rfl, fun va _ => ⟨rfl, fun _ => ⟨rfl, rfl⟩⟩⟩⟩
  obtain ⟨hyes, hno⟩ := allocuvm_spec hk (fun p hp => h.free hp) (show sz < (sz + n).toNat by omega) (by omega)
    (huser.below.absent (by omega))
  rcases Nat.lt_or_ge vm.free.length (growNeed vm.dir sz (sz + n).toNat) with hneed | hneed
  · obtain ⟨vm', hvm', hr⟩ := hno hneed
    have hsame := hr.emptied.samePages (huser.below.absent (by omega))
    refine ⟨vm', sz, -1, by rw [hvm']; rfl, .inr ⟨rfl, rfl, fun va hva => ?_⟩⟩
    obtain ⟨hpres, hpte⟩ := hsame va (by unfold KERNBASE at hva; omega)
    exact ⟨hpres, fun hp => ⟨hpte hp, hr.mem_of_absent (PGROUNDUP_aligned _) (by omega) (huser.below.absent (by omega)) (h.not_free hva hp)⟩⟩
  · obtain ⟨vm', hvm', ha⟩ := hyes hneed
    have hround := PGROUNDUP_le hsz
    have hround' := PGROUNDUP_le (show (sz + n).toNat < KERNBASE by omega)
    refine ⟨vm', (sz + n).toNat, 0, ?_, .inl ⟨rfl, by omega, (huser.filled (by omega) (by omega) ha.filled).exact, fun va h1 h2 => ?_,
      fun va h1 h2 => ?_⟩⟩
    · rw [hvm', ok_bind]
      exact if_neg (by omega)
    · exact ha.contents h.free_nodup va (by unfold KERNBASE at hround'; omega) ((inRange_iff (by omega)).2 ⟨h1, h2⟩)
    · have hva : va < KERNBASE := by omega
      exact ⟨ha.out va (by unfold KERNBASE at hva; omega) (by rw [inRange_iff (by omega)]; omega),
        ha.mem _ (h.not_free hva ((hd va hva).2 h1))⟩

theorem growOk_shrink (hn : n < 0) (hpos : 0 < sz + n) : GrowOk vm sz n (vm.growproc kend sz n) := by
  have huser : UserSpace kend vm.dir sz := ⟨hsz, hd, h.good⟩
  have hlt : (sz + n).toNat < sz := by omega
  obtain ⟨vm', hvm', hdealloc⟩ := deallocuvm_ok hk (by omega) hlt (h.good.frames (PGROUNDUP_aligned _) (by omega))
  have hempty := hdealloc.cleared.emptied
  have hround := PGROUNDUP_le hsz
  have hmono := PGROUNDUP_mono hsz (Nat.le_of_lt hlt)
  refine ⟨vm', (sz + n).toNat, 0, ?_, .inl ⟨rfl, by omega, (huser.emptied (by omega) hempty).exact, fun va h1 h2 => by omega,
    fun va h1 h2 => ?_⟩⟩
  · rw [Vm.growproc, if_neg (by omega), if_pos hn, toUint32_of_nonneg (by omega) (by unfold KERNBASE at hsz; omega), hvm', ok_bind]
    exact if_neg (by omega)
  · have hva : va < KERNBASE := by omega
    have hout : ¬ InRange (PGROUNDUP (sz + n).toNat) sz va := by rw [inRange_iff hsz]; omega
    refine ⟨hempty.out va (by unfold KERNBASE at hva; omega) hout, hdealloc.mem _ fun hmem => ?_⟩
    -- The frame of a page that is kept is not the frame of one that goes.
    obtain ⟨vb, hr, hp, heq⟩ := (PgDir.mem_frames (PGROUNDUP_aligned _)).1 hmem
    have hvb : vb < KERNBASE := by have := (inRange_iff hsz).1 hr; omega
    have hpage := h.page_eq hvb hva hp ((hd va hva).2 h1) heq
    exact hout ((inRange_congr (PGROUNDUP_aligned _) hpage).1 hr)

theorem not_growOk_to_zero (hpos : 0 < sz) (hn : (sz : Int) + n = 0) : ¬ GrowOk vm sz n (vm.growproc kend sz n) := by
  have huser : UserSpace kend vm.dir sz := ⟨hsz, hd, h.good⟩
  obtain ⟨vm₁, hres, he⟩ := growproc_shrinks hk huser.below (by omega) (by omega : 0 ≤ (sz : Int) + n)
  rw [if_pos hn] at hres
  have hround := PGROUNDUP_le hsz
  have hzero : (sz + n).toNat = 0 := by omega
  rw [hzero, PGROUNDUP_zero] at he
  rintro ⟨vm', sz', ret, hres', ⟨h0, -⟩ | ⟨-, -, hsame⟩⟩
  · cases hres.symm.trans hres'
    cases h0
  · cases hres.symm.trans hres'
    have hpres := (hsame 0 (by decide)).1
    rw [he.gone 0 (by decide) ⟨Nat.le_refl 0, by rw [Nat.zero_div, Nat.zero_mul]; exact hpos⟩, (hd 0 (by decide)).2 (by omega)] at hpres
    cases hpres

end

theorem not_growOk_below_zero {sz : Nat} {n : Int} (hsz : sz < KERNBASE) (hpos : 0 < sz) (hn : -2 ^ 31 ≤ n) (hneg : (sz : Int) + n < 0) :
    ¬ GrowOk vm sz n (vm.growproc kend sz n) := by
  have hwrap : sz ≤ toUint32 (sz + n) := by unfold toUint32 KERNBASE at *; omega
  have hres : vm.growproc kend sz n = .ok (vm, sz, 0) := by
    rw [Vm.growproc, if_neg (by omega), if_pos (by omega), Vm.deallocuvm, if_pos hwrap, ok_bind]
    exact if_neg (by omega)
  rintro ⟨vm', sz', ret, hres', ⟨-, hsum, -⟩ | ⟨h0, -⟩⟩
  · cases hres.symm.trans hres'
    omega
  · cases hres.symm.trans hres'
    cases h0

/-- `growproc(n)` does what its callers rely on exactly when it does not shrink a process that has memory to nothing or below. -/
theorem growOk_iff (kend : Nat) (vm : Vm) (sz : Nat) (n : Int) (hk : 0 < kend) (h : Sound kend vm) (hsz : sz < KERNBASE)
    (hd : ExactPages vm.dir sz) (hn : -2 ^ 31 ≤ n ∧ n < 2 ^ 31) :
    GrowOk vm sz n (vm.growproc kend sz n) ↔ 0 ≤ n ∨ 0 < sz + n ∨ sz = 0 := by
  constructor
  · intro hok
    by_contra hcon
    rw [not_or, not_or] at hcon
    rcases Int.lt_or_eq_of_le (Int.not_lt.1 hcon.2.1) with hlt | heq
    · exact not_growOk_below_zero hsz (by omega) hn.1 hlt hok
    · exact not_growOk_to_zero hk h hsz hd (by omega) heq hok
  · intro hcond
    rcases Int.lt_trichotomy n 0 with hneg | rfl | hpos
    · rcases hcond with hcond | hcond | rfl
      · omega
      · exact growOk_shrink hk h hsz hd hneg hcond
      · have hres : vm.growproc kend 0 n = .ok (vm, 0, -1) := by
          rw [Vm.growproc, if_neg (by omega), if_pos hneg, Vm.deallocuvm, if_pos (Nat.zero_le _), ok_bind]
          rfl
        exact ⟨vm, 0, -1, hres, .inr ⟨rfl, rfl, fun va _ => ⟨rfl, fun _ => ⟨rfl, rfl⟩⟩⟩⟩
    · refine ⟨vm, sz, 0, rfl, .inl ⟨rfl, by omega, hd, fun va h1 h2 => by omega, fun va _ _ => ⟨rfl, rfl⟩⟩⟩
    · exact growOk_grow hk h hsz hd hpos hn.2

theorem owned_singleVm (free : List Nat) : (singleVm free).owned = 0x401000 :: 0x400000 :: free := by
  show singlePage.frames 0 KERNBASE ++ (singlePage.tableFrames ++ free) = _
  rw [frames_singlePage, tableFrames_singlePage]
  rfl

theorem sound_singleVm : Sound 0x200000 (singleVm [0x402000]) := by
  constructor
  · rw [owned_singleVm]
    exact frame_pages (by decide)
  · rw [owned_singleVm]
    decide

theorem growOk_one_page : GrowOk (singleVm [0x402000]) 4096 4096 ((singleVm [0x402000]).growproc 0x200000 4096 4096) :=
  (growOk_iff 0x200000 (singleVm [0x402000]) 4096 4096 (by decide) sound_singleVm (by decide) exactPages_singlePage (by decide)).2
    (.inl (by decide))

/-- `growproc(-4096)` in a process of one page: the page is gone, and the call returns -1. -/
theorem not_growOk_last_page : Sound 0x200000 (singleVm [0x402000]) ∧ ExactPages (singleVm [0x402000]).dir 4096 ∧
    ¬ GrowOk (singleVm [0x402000]) 4096 (-4096) ((singleVm [0x402000]).growproc 0x200000 4096 (-4096)) :=
  ⟨sound_singleVm, exactPages_singlePage,
    not_growOk_to_zero (by decide) sound_singleVm (by decide) exactPages_singlePage (by decide) (by decide)⟩

end Ostep.Xv6
