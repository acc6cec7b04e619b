import Ostep.Xv6.PageTable

/-!
# What the functions of `vm.c` do to a directory

`deallocuvm` clears the present entries of a range and puts their frames on the free list, `allocuvm` fills a range with fresh frames
or, when `kalloc` fails, leaves the pages as they were, and `growproc` is put together from the two. Each of them only moves frames
within `Vm.owned`.
-/

namespace Ostep.Xv6

/-! ### `deallocuvm` -/

structure Frame (kend pa : Nat) : Prop where
  aligned : pa % PGSIZE = 0
  low : kend ≤ pa
  high : pa < PHYSTOP

theorem kfree_ok {kend pa : Nat} (vm : Vm) (h : Frame kend pa) :
    vm.kfree kend pa = .ok { vm.memset pa 1 with free := pa :: vm.free } := by
  rw [Vm.kfree, if_neg]
  have := h.aligned; have := h.low; have := h.high
  omega

/-- Every present user page has a frame that `kfree` takes back. -/
def GoodFrames (kend : Nat) (d : PgDir) : Prop :=
  ∀ va < KERNBASE, d.present va = true → Frame kend (PTE_ADDR (d.pte va))

theorem GoodFrames.frames {kend a b : Nat} {d : PgDir} (h : GoodFrames kend d) (ha : a % PGSIZE = 0) (hb : b ≤ KERNBASE) :
    ∀ p ∈ d.frames a b, Frame kend p := by
  intro p hp
  obtain ⟨va, hr, hpres, rfl⟩ := (PgDir.mem_frames ha).1 hp
  refine h va ?_ hpres
  unfold InRange PGSIZE KERNBASE at *
  omega

/-- `d'` is `d` with the present entries from `a` to `b` cleared. -/
def Cleared (a b : Nat) (d d' : PgDir) : Prop :=
  ∀ vb < 2 ^ 32, d'.pte vb = if InRange a b vb ∧ d.present vb = true then 0 else d.pte vb

theorem Cleared.present {a b : Nat} {d d' : PgDir} (h : Cleared a b d d') {vb : Nat} (hb : vb < 2 ^ 32) :
    d'.present vb = true ↔ d.present vb = true ∧ ¬ InRange a b vb := by
  rw [PgDir.present_eq_pte, h vb hb]
  split
  · next hr => simp [hr.1]
  · next hr => rw [← PgDir.present_eq_pte]; tauto

theorem Cleared.skip {a a' b : Nat} {d d' : PgDir} (ha : a ≤ a')
    (hnone : ∀ vb < 2 ^ 32, a ≤ vb → vb < a' → d.present vb = false) (h : Cleared a' b d d') : Cleared a b d d' := by
  intro vb hb
  rw [h vb hb]
  by_cases hp : d.present vb = true
  · have : ¬ (a ≤ vb ∧ vb < a') := by
      rintro ⟨h1, h2⟩
      rw [hnone vb hb h1 h2] at hp
      cases hp
    have hr : InRange a' b vb ↔ InRange a b vb := by unfold InRange; omega
    simp only [hr]
  · simp [hp]

theorem Cleared.cons {a b : Nat} {d d' : PgDir} (ha : a % PGSIZE = 0) (ha' : a < 2 ^ 32) (hb' : a < b)
    (hp : d.present a = true) (h : Cleared (a + PGSIZE) b (d.setEntry a 0) d') : Cleared a b d d' := by
  have hsome := PgDir.isSome_of_present hp
  have hpte : ∀ vb < 2 ^ 32, (d.setEntry a 0).pte vb = if a / PGSIZE = vb / PGSIZE then 0 else d.pte vb :=
    fun vb hb => PgDir.pte_setEntry ha' hb hsome
  intro vb hb
  rw [h vb hb, PgDir.present_eq_pte, hpte vb hb]
  by_cases hpage : a / PGSIZE = vb / PGSIZE
  · have hr : InRange a b vb := by unfold InRange PGSIZE at *; omega
    have hpb : d.present vb = true := by rw [← PgDir.present_congr hpage]; exact hp
    simp [hpage, hr, hpb]
  · have hr : InRange (a + PGSIZE) b vb ↔ InRange a b vb := by unfold InRange PGSIZE at *; omega
    simp [hpage, hr, PgDir.present_eq_pte]

theorem skip_table {a : Nat} (ha : a < KERNBASE) :
    ((PGADDR (PDX a + 1) + 2 ^ 32 - PGSIZE) % 2 ^ 32 + PGSIZE) % 2 ^ 32 = (PDX a + 1) * 2 ^ 22 ∧
      a + PGSIZE ≤ (PDX a + 1) * 2 ^ 22 + a % PGSIZE := by
  unfold PGADDR PDX PGSIZE KERNBASE at *
  omega

theorem Cleared.refl {a b : Nat} (d : PgDir) (ha : a % PGSIZE = 0) (h : b ≤ a) : Cleared a b d d := by
  intro vb hb
  rw [if_neg]
  rintro ⟨⟨h1, h2⟩, -⟩
  unfold PGSIZE at *
  omega

theorem frames_setEntry_rest {d : PgDir} {a b : Nat} (hb : b ≤ KERNBASE) (ha : a % PGSIZE = 0) (hlt : a < b)
    (hsome : (d.entryAt a).isSome) (e : Pte) : (d.setEntry a e).frames (a + PGSIZE) b = d.frames (a + PGSIZE) b := by
  refine PgDir.frames_congr (by unfold PGSIZE at *; omega) fun va hr => PgDir.frameAt_eq_of_pte ?_
  rw [PgDir.pte_setEntry (by unfold KERNBASE at hb; omega) (by unfold InRange PGSIZE KERNBASE at *; omega) hsome, if_neg]
  unfold InRange PGSIZE at *
  omega

theorem inRange_kernbase {va : Nat} : InRange 0 KERNBASE va ↔ va < KERNBASE := by
  unfold InRange PGSIZE KERNBASE
  omega

theorem owned_push {vm vm' : Vm} {pa : Nat} (hdir : vm'.dir = vm.dir) (hfree : vm'.free = pa :: vm.free) :
    vm'.owned.Perm (pa :: vm.owned) := by
  unfold Vm.owned
  rw [hdir, hfree]
  exact (List.perm_middle.append_left _).trans List.perm_middle

theorem owned_clear {vm : Vm} {a : Nat} (ha : a < KERNBASE) (hp : vm.dir.present a = true) :
    Vm.owned { vm.memset (PTE_ADDR (vm.dir.pte a)) 1 with
      free := PTE_ADDR (vm.dir.pte a) :: vm.free, dir := vm.dir.setEntry a 0 } |>.Perm vm.owned := by
  have ha32 : a < 2 ^ 32 := by unfold KERNBASE at ha; omega
  have hsome := PgDir.isSome_of_present hp
  have hfree : (vm.dir.frames 0 KERNBASE).Perm (PTE_ADDR (vm.dir.pte a) :: (vm.dir.setEntry a 0).frames 0 KERNBASE) := by
    refine PgDir.frames_put (Nat.zero_mod _) (inRange_kernbase.2 ha) ?_ (PgDir.frameAt_of_present hp) fun vb hr hne => ?_
    · rw [PgDir.present_eq_pte, PgDir.pte_setEntry ha32 ha32 hsome, if_pos rfl]
      exact Pte.not_present_zero
    · refine (PgDir.frameAt_eq_of_pte ?_).symm
      have := inRange_kernbase.1 hr
      rw [PgDir.pte_setEntry ha32 (by unfold KERNBASE at this; omega) hsome, if_neg hne]
  have htables : (vm.dir.setEntry a 0).tableFrames = vm.dir.tableFrames := PgDir.tableFrames_congr (PgDir.frame_setEntry _ _ _)
  unfold Vm.owned
  rw [htables]
  refine ((List.perm_middle.append_left _).trans List.perm_middle).trans ?_
  rw [← List.cons_append]
  exact hfree.symm.append_right _

/-- What `deallocuvm` does to the pages from `a` to `b`. -/
structure Deallocated (a b : Nat) (vm vm' : Vm) : Prop where
  cleared : Cleared a b vm.dir vm'.dir
  tables : ∀ i, vm'.dir.tableFrame i = vm.dir.tableFrame i
  free : vm'.free = (vm.dir.frames a b).reverse ++ vm.free
  mem : ∀ p ∉ vm.dir.frames a b, vm'.mem p = vm.mem p
  owned : vm'.owned.Perm vm.owned

namespace Deallocated

variable {a b : Nat} {vm vm' : Vm}

theorem refl (ha : a % PGSIZE = 0) (h : b ≤ a) : Deallocated a b vm vm :=
  ⟨.refl _ ha h, fun _ => rfl, by rw [PgDir.frames_of_le h]; rfl, fun _ _ => rfl, .refl _⟩

theorem skip {n : Nat} (hnone : ∀ vb < 2 ^ 32, a ≤ vb → vb < a + n * PGSIZE → vm.dir.present vb = false)
    (hlt : a + n * PGSIZE ≤ 2 ^ 32) (h : Deallocated (a + n * PGSIZE) b vm vm') : Deallocated a b vm vm' := by
  have hframes : vm.dir.frames a b = vm.dir.frames (a + n * PGSIZE) b := by
    refine PgDir.frames_skip fun i hi => ?_
    refine hnone _ ?_ (by omega) ?_
    all_goals unfold PGSIZE at *; omega
  exact ⟨h.cleared.skip (by omega) hnone, h.tables, by rw [hframes]; exact h.free, by rw [hframes]; exact h.mem, h.owned⟩

theorem cons (ha : a % PGSIZE = 0) (hlt : a < b) (hb : b ≤ KERNBASE) (hp : vm.dir.present a = true)
    (h : Deallocated (a + PGSIZE) b { vm.memset (PTE_ADDR (vm.dir.pte a)) 1 with
      free := PTE_ADDR (vm.dir.pte a) :: vm.free, dir := vm.dir.setEntry a 0 } vm') : Deallocated a b vm vm' := by
  have ha32 : a < 2 ^ 32 := by unfold KERNBASE at hb; omega
  have hframes := PgDir.frames_of_present hlt hp
  have hrest := frames_setEntry_rest (b := b) hb ha hlt (PgDir.isSome_of_present hp) 0
  refine ⟨h.cleared.cons ha ha32 hlt hp, fun i => (h.tables i).trans (PgDir.frame_setEntry _ _ _ _), ?_, fun p hp => ?_,
    h.owned.trans (owned_clear (by omega) hp)⟩
  · rw [h.free, hrest, hframes, List.reverse_cons, List.append_assoc]
    rfl
  · rw [hframes, List.mem_cons, not_or] at hp
    rw [h.mem p (by rw [hrest]; exact hp.2)]
    exact Function.update_of_ne hp.1 _ _

theorem entryAt (h : Deallocated a b vm vm') {va : Nat} (hva : va < 2 ^ 32) :
    vm'.dir.entryAt va = if InRange a b va ∧ vm.dir.present va = true then some 0 else vm.dir.entryAt va := by
  have hpte := h.cleared va hva
  have htab : (vm'.dir.entryAt va).isSome = (vm.dir.entryAt va).isSome := by
    have := congrArg Option.isSome (h.tables (PDX va))
    rw [PgDir.tableFrame, PgDir.tableFrame, Option.isSome_map, Option.isSome_map] at this
    rw [PgDir.isSome_entryAt, PgDir.isSome_entryAt]
    exact this
  cases he : vm.dir.entryAt va with
  | none =>
    have habs : ¬ (InRange a b va ∧ vm.dir.present va = true) := by
      rintro ⟨-, hp⟩
      have := PgDir.isSome_of_present hp
      rw [he] at this
      cases this
    rw [he] at htab
    rw [if_neg habs]
    exact Option.not_isSome_iff_eq_none.1 (by rw [htab]; rintro ⟨⟩)
  | some e =>
    rw [he] at htab
    obtain ⟨e', he'⟩ := Option.isSome_iff_exists.1 htab
    rw [PgDir.pte_of_entryAt he', PgDir.pte_of_entryAt he] at hpte
    rw [he', hpte]
    split <;> rfl

end Deallocated

theorem deallocFrom_ok {kend oldsz : Nat} (hk : 0 < kend) (hold : oldsz ≤ KERNBASE) {n a : Nat} (vm : Vm)
    (ha : a % PGSIZE = 0) (hn : Vm.pageCount a oldsz ≤ n) (hgood : ∀ p ∈ vm.dir.frames a oldsz, Frame kend p) :
    ∃ vm', Vm.deallocFrom kend oldsz n a vm = .ok vm' ∧ Deallocated a oldsz vm vm' := by
  induction n generalizing a vm with
  | zero =>
    have hle : oldsz ≤ a := by unfold Vm.pageCount PGSIZE at hn; omega
    exact ⟨vm, by rw [Vm.deallocFrom, if_neg (by omega)], .refl ha hle⟩
  | succ n ih =>
    rw [Vm.deallocFrom]
    by_cases hlt : a < oldsz
    swap
    · exact ⟨vm, by rw [if_neg hlt], .refl ha (by omega)⟩
    rw [if_pos hlt]
    have ha32 : a < 2 ^ 32 := by unfold KERNBASE at hold; omega
    have hnext : (a + PGSIZE) % 2 ^ 32 = a + PGSIZE := by unfold KERNBASE PGSIZE at *; omega
    have hal : (a + PGSIZE) % PGSIZE = 0 := by unfold PGSIZE at *; omega
    have hcount : Vm.pageCount (a + PGSIZE) oldsz ≤ n := by unfold Vm.pageCount PGSIZE at *; omega
    cases he : vm.dir.entryAt a with
    | none =>
      dsimp only
      obtain ⟨hskip, hle⟩ := skip_table (by omega : a < KERNBASE)
      obtain ⟨m, hm⟩ : ∃ m, (PDX a + 1) * 2 ^ 22 = a + m * PGSIZE := ⟨((PDX a + 1) * 2 ^ 22 - a) / PGSIZE, by unfold PGSIZE at *; omega⟩
      rw [hskip, hm]
      have hgap : ∀ vb < 2 ^ 32, a ≤ vb → vb < a + m * PGSIZE → vm.dir.present vb = false := by
        intro vb hb h1 h2
        have hpd : PDX vb = PDX a := by rw [← hm] at h2; unfold PDX KERNBASE at *; omega
        unfold PgDir.entryAt at he
        unfold PgDir.present PgDir.entryAt
        rw [hpd, Option.map_eq_none_iff.1 he]
        rfl
      have htop : a + m * PGSIZE ≤ 2 ^ 32 := by rw [← hm]; unfold PDX; omega
      have hframes : vm.dir.frames a oldsz = vm.dir.frames (a + m * PGSIZE) oldsz := by
        refine PgDir.frames_skip fun i hi => hgap _ ?_ (by omega) ?_
        all_goals unfold PGSIZE at *; omega
      obtain ⟨vm', hvm', hd⟩ := ih (a := a + m * PGSIZE) vm (by unfold PGSIZE at *; omega)
        (by unfold Vm.pageCount PGSIZE at *; omega) (by rw [← hframes]; exact hgood)
      exact ⟨vm', hvm', hd.skip hgap htop⟩
    | some e =>
      dsimp only
      have hpte := PgDir.pte_of_entryAt he
      rw [hnext]
      by_cases hp : e.present
      · have hpa : vm.dir.present a = true := by rw [PgDir.present_eq_pte, hpte]; exact hp
        rw [PgDir.frames_of_present hlt hpa, hpte] at hgood
        have hframe : Frame kend (PTE_ADDR e) := hgood _ List.mem_cons_self
        rw [if_pos hp, if_neg (by have := hframe.low; omega), kfree_ok vm hframe]
        have hsome : (vm.dir.entryAt a).isSome := by rw [he]; rfl
        obtain ⟨vm', hvm', hd⟩ := ih (a := a + PGSIZE)
          { vm.memset (PTE_ADDR e) 1 with free := PTE_ADDR e :: vm.free, dir := vm.dir.setEntry a 0 } hal hcount fun p hp => by
            rw [frames_setEntry_rest hold ha hlt hsome] at hp
            exact hgood p (List.mem_cons_of_mem _ hp)
        rw [← hpte] at hd
        exact ⟨vm', hvm', hd.cons ha hlt hold hpa⟩
      · have habs : vm.dir.present a = false := by rw [PgDir.present_eq_pte, hpte]; simpa using hp
        rw [if_neg hp]
        obtain ⟨vm', hvm', hd⟩ := ih (a := a + PGSIZE) vm hal hcount (by rw [← PgDir.frames_of_absent habs]; exact hgood)
        refine ⟨vm', hvm', Deallocated.skip (n := 1) (fun vb hb h1 h2 => ?_) (by unfold KERNBASE PGSIZE at *; omega)
          (by rw [Nat.one_mul]; exact hd)⟩
        have hpage : vb / PGSIZE = a / PGSIZE := by unfold PGSIZE at *; omega
        rw [PgDir.present_congr hpage, habs]

theorem deallocuvm_ok {kend oldsz newsz : Nat} (hk : 0 < kend) (hold : oldsz ≤ KERNBASE) (hlt : newsz < oldsz) {vm : Vm}
    (hgood : ∀ p ∈ vm.dir.frames (PGROUNDUP newsz) oldsz, Frame kend p) :
    ∃ vm', Vm.deallocuvm kend vm oldsz newsz = .ok (vm', newsz) ∧ Deallocated (PGROUNDUP newsz) oldsz vm vm' := by
  obtain ⟨vm', hvm', hd⟩ := deallocFrom_ok hk hold vm (PGROUNDUP_aligned newsz) le_rfl hgood
  exact ⟨vm', by rw [Vm.deallocuvm, if_neg (by omega)]; simp only [hvm']; rfl, hd⟩

/-! ### `allocuvm` -/

/-- How many pages `kalloc` has to hand out to map the `n` pages from `a` on, page tables included. -/
def allocNeed (tables : Nat → Bool) : Nat → Nat → Nat
  | 0, _ => 0
  | n + 1, a => 1 + (if tables (PDX a) then 0 else 1) + allocNeed (Function.update tables (PDX a) true) n (a + PGSIZE)

theorem mappages_page (vm : Vm) {a : Nat} (ha : a % PGSIZE = 0) (ha32 : a < 2 ^ 32) (pa : Nat) (perm : Pte) :
    vm.mappages a PGSIZE pa perm = Vm.mapFrom perm 0 a pa vm := by
  unfold Vm.mappages PGROUNDDOWN PGSIZE at *
  have h1 : a / 4096 * 4096 = a := by omega
  have h2 : ((a + 4096 + 2 ^ 32 - 1) % 2 ^ 32 / 4096 * 4096 + 2 ^ 32 - a) % 2 ^ 32 / 4096 = 0 := by omega
  simp only [h1, h2]

/-- No page table is taken away or put into another page. -/
def KeepsTables (d d' : PgDir) : Prop := ∀ i, d i ≠ none → d'.tableFrame i = d.tableFrame i

theorem KeepsTables.trans {d d₁ d' : PgDir} (h : KeepsTables d d₁) (h' : KeepsTables d₁ d') : KeepsTables d d' := by
  intro i hi
  refine (h' i fun hnone => ?_).trans (h i hi)
  have := h i hi
  rw [PgDir.tableFrame, hnone, eq_comm, Option.map_none, PgDir.tableFrame, Option.map_eq_none_iff] at this
  exact hi this

theorem KeepsTables.tables {d d' : PgDir} (h : KeepsTables d d') {i : Nat} (hi : d.tables i = true) : d'.tables i = true := by
  unfold PgDir.tables at *
  have hmap := h i fun hnone => by rw [hnone] at hi; cases hi
  rw [← Option.isSome_map (f := PgTab.frame)]
  show (d'.tableFrame i).isSome = true
  rw [hmap, PgDir.tableFrame, Option.isSome_map, hi]

/-- What mapping one absent page does. The frames of the tables and the free ones stay together: at most one moves. -/
structure MapsPage (vm vm' : Vm) (a : Nat) (e : Pte) : Prop where
  free : vm'.free = vm.free.drop (if vm.dir.tables (PDX a) then 0 else 1)
  tables : vm'.dir.tables = Function.update vm.dir.tables (PDX a) true
  pte : ∀ vb < 2 ^ 32, vm'.dir.pte vb = if a / PGSIZE = vb / PGSIZE then e else vm.dir.pte vb
  held : (vm'.dir.tableFrames ++ vm'.free).Perm (vm.dir.tableFrames ++ vm.free)
  keeps : KeepsTables vm.dir vm'.dir
  mem : ∀ p ∉ vm.free, vm'.mem p = vm.mem p

/-- Mapping one absent page succeeds unless there is no page for a missing page table. -/
theorem mapFrom_one (vm : Vm) {a : Nat} (ha : a < 2 ^ 32) (hfree : ∀ p ∈ vm.free, p ≠ 0)
    (habs : vm.dir.present a = false) (pa : Nat) (perm : Pte) :
    ((if vm.dir.tables (PDX a) then 0 else 1) ≤ vm.free.length →
      ∃ vm', Vm.mapFrom perm 0 a pa vm = .ok (vm', true) ∧ MapsPage vm vm' a (.mk pa perm)) ∧
    (vm.free.length < (if vm.dir.tables (PDX a) then 0 else 1) → Vm.mapFrom perm 0 a pa vm = .ok (vm, false)) := by
  cases ht : vm.dir (PDX a) with
  | some t =>
    have htab : vm.dir.tables (PDX a) = true := by rw [PgDir.tables, ht]; rfl
    refine ⟨fun _ => ⟨{ vm with dir := vm.dir.setEntry a (.mk pa perm) }, ?_, ?_, ?_, fun vb hb => ?_, ?_, fun i _ => ?_,
      fun _ _ => rfl⟩, fun h => ?_⟩
    · unfold Vm.mapFrom Vm.walkpgdir
      simp only [ht, habs]
      rfl
    · simp [htab]
    · rw [PgDir.tables_setEntry, ← htab, Function.update_eq_self]
    · exact PgDir.pte_setEntry ha hb (by rw [PgDir.isSome_entryAt, htab])
    · rw [PgDir.tableFrames_congr (PgDir.frame_setEntry _ _ _)]
    · exact PgDir.frame_setEntry _ _ _ i
    · simp [htab] at h
  | none =>
    have htab : vm.dir.tables (PDX a) = false := by rw [PgDir.tables, ht]; rfl
    simp only [htab]
    cases hf : vm.free with
    | nil =>
      refine ⟨fun h => by simp at h, fun _ => ?_⟩
      unfold Vm.mapFrom Vm.walkpgdir Vm.kalloc
      simp only [ht, hf]
      rfl
    | cons p rest =>
      have hp : p ≠ 0 := hfree p (by rw [hf]; simp)
      refine ⟨fun _ => ⟨{ vm.memset p 0 with free := rest, dir := (vm.dir.addTable (PDX a) p).setEntry a (.mk pa perm) },
        ?_, ?_, ?_, fun vb hb => ?_, ?_, fun i hi => ?_, fun q hq => ?_⟩, fun h => by simp at h⟩
      · have habs' : (vm.dir.addTable (PDX a) p).present a = false := by
          rw [PgDir.present_eq_pte, PgDir.pte_addTable ht, ← PgDir.present_eq_pte, habs]
        unfold Vm.mapFrom Vm.walkpgdir Vm.kalloc
        simp [ht, hf, hp, habs', Vm.memset]
      · simp [htab, hf]
      · rw [PgDir.tables_setEntry, PgDir.tables_addTable]
      · have hsome : ((vm.dir.addTable (PDX a) p).entryAt a).isSome := by
          rw [PgDir.isSome_entryAt, PgDir.tables_addTable, Function.update_self]
        rw [PgDir.pte_setEntry ha hb hsome, PgDir.pte_addTable ht]
      · rw [PgDir.tableFrames_congr (PgDir.frame_setEntry _ _ _), hf]
        refine ((PgDir.tableFrames_addTable (Nat.mod_lt _ (by decide)) ht).append_right _).trans ?_
        rw [List.cons_append]
        exact List.perm_middle.symm
      · have hne : i ≠ PDX a := fun heq => hi (by rw [heq, ht])
        rw [PgDir.frame_setEntry, PgDir.tableFrame, PgDir.addTable, Function.update_of_ne hne, PgDir.tableFrame]
      · rw [hf] at hq
        rw [List.mem_cons, not_or] at hq
        exact Function.update_of_ne hq.1 _ _

namespace MapsPage

variable {vm vm' : Vm} {a : Nat} {e : Pte}

theorem suffix (h : MapsPage vm vm' a e) : vm'.free <:+ vm.free := by
  rw [h.free]
  exact List.drop_suffix _ _

theorem frameAt (h : MapsPage vm vm' a e) {vb : Nat} (hb : vb < 2 ^ 32) (hne : ¬ a / PGSIZE = vb / PGSIZE) :
    vm'.dir.frameAt vb = vm.dir.frameAt vb := by
  refine PgDir.frameAt_eq_of_pte ?_
  rw [h.pte vb hb, if_neg hne]

theorem owned (h : MapsPage vm vm' a e) (ha : a < KERNBASE) (habs : vm.dir.present a = false) (he : e.present = true) :
    vm'.owned.Perm (PTE_ADDR e :: vm.owned) := by
  have ha32 : a < 2 ^ 32 := by unfold KERNBASE at ha; omega
  have hpte : vm'.dir.pte a = e := by rw [h.pte a ha32, if_pos rfl]
  have hframes : (vm'.dir.frames 0 KERNBASE).Perm (PTE_ADDR e :: vm.dir.frames 0 KERNBASE) := by
    refine PgDir.frames_put (Nat.zero_mod _) (inRange_kernbase.2 ha) habs ?_ fun vb hr hne => ?_
    · rw [PgDir.frameAt_of_present (by rw [PgDir.present_eq_pte, hpte, he]), hpte]
    · exact h.frameAt (by have := inRange_kernbase.1 hr; unfold KERNBASE at this; omega) hne
  unfold Vm.owned
  rw [← List.cons_append]
  exact hframes.append h.held

theorem owned_kernel (h : MapsPage vm vm' a e) (ha : KERNBASE ≤ a) : vm'.owned.Perm vm.owned := by
  have hframes : vm'.dir.frames 0 KERNBASE = vm.dir.frames 0 KERNBASE := by
    refine PgDir.frames_congr (Nat.zero_mod _) fun vb hr => ?_
    have := inRange_kernbase.1 hr
    refine h.frameAt (by unfold KERNBASE at this; omega) ?_
    unfold KERNBASE PGSIZE at *
    omega
  unfold Vm.owned
  rw [hframes]
  exact h.held.append_left _

end MapsPage

/-- `d'` is `d` with new pages from `a` to `b`. -/
structure Filled (kend a b : Nat) (d d' : PgDir) : Prop where
  out : ∀ vb < 2 ^ 32, ¬ InRange a b vb → d'.pte vb = d.pte vb
  new : ∀ vb < 2 ^ 32, InRange a b vb → ∃ pa, Frame kend pa ∧ d'.pte vb = .mk pa (PTE_W ||| PTE_U)

/-- `d'` is `d` without the pages from `a` to `b`. -/
structure Emptied (a b : Nat) (d d' : PgDir) : Prop where
  out : ∀ vb < 2 ^ 32, ¬ InRange a b vb → d'.pte vb = d.pte vb
  gone : ∀ vb < 2 ^ 32, InRange a b vb → d'.present vb = false

theorem Cleared.emptied {a b : Nat} {d d' : PgDir} (h : Cleared a b d d') : Emptied a b d d' := by
  refine ⟨fun vb hb hr => ?_, fun vb hb hr => ?_⟩
  · rw [h vb hb, if_neg fun hc => hr hc.1]
  · rw [← Bool.not_eq_true, h.present hb]
    tauto

theorem Emptied.of_out {a b : Nat} {d d₁ d' : PgDir} (h : Emptied a b d₁ d')
    (hout : ∀ vb < 2 ^ 32, ¬ InRange a b vb → d₁.pte vb = d.pte vb) : Emptied a b d d' :=
  ⟨fun vb hb hr => (h.out vb hb hr).trans (hout vb hb hr), h.gone⟩

theorem mk_frame {kend pa : Nat} (h : Frame kend pa) :
    PTE_ADDR (.mk pa (PTE_W ||| PTE_U)) = pa :=
  PTE_ADDR_mk (by have := h.high; unfold PHYSTOP at this; omega) h.aligned (by decide)

section
variable {kend oldsz newsz : Nat}

/-- The pages from `a` to `b` are new: page number `i` has a fresh frame with the contents `c i`, mapped with the flags `perm i`. -/
structure Allocated (kend a b : Nat) (perm : Nat → Pte) (c : Nat → Nat → UInt8) (vm vm' : Vm) : Prop where
  out : ∀ vb < 2 ^ 32, ¬ InRange a b vb → vm'.dir.pte vb = vm.dir.pte vb
  new : ∀ vb < 2 ^ 32, InRange a b vb → ∃ pa ∈ vm.free, Frame kend pa ∧ PTE_ADDR (vm'.dir.pte vb) = pa ∧
    vm'.dir.pte vb = .mk pa (perm (vb / PGSIZE))
  owned : vm'.owned.Perm vm.owned
  suffix : vm'.free <:+ vm.free
  keeps : KeepsTables vm.dir vm'.dir
  tables : ∀ i, vm'.dir.tables i = true → vm.dir.tables i = true ∨ ∃ vb, InRange a b vb ∧ PDX vb = i
  mem : ∀ p ∉ vm.free, vm'.mem p = vm.mem p
  contents : vm.free.Nodup → ∀ vb < 2 ^ 32, InRange a b vb → vm'.mem (PTE_ADDR (vm'.dir.pte vb)) = c (vb / PGSIZE)
  inj : vm.free.Nodup → ∀ vb < 2 ^ 32, ∀ vc < 2 ^ 32, InRange a b vb → InRange a b vc →
    PTE_ADDR (vm'.dir.pte vb) = PTE_ADDR (vm'.dir.pte vc) → vb / PGSIZE = vc / PGSIZE

/-- The pages from `a` to `b` are gone again, and nothing but their frames and free pages was written to. -/
structure RolledBack (a b : Nat) (vm vm' : Vm) : Prop where
  emptied : Emptied a b vm.dir vm'.dir
  owned : vm'.owned.Perm vm.owned
  keeps : KeepsTables vm.dir vm'.dir
  mem : ∀ p ∉ vm.free, p ∉ vm.dir.frames a b → vm'.mem p = vm.mem p

/-- The step for the page at `a`: it gets the frame `pa`, which `kalloc` has handed out, with the contents `c`. -/
structure AllocStep (kend b a pa : Nat) (perm : Pte) (c : Nat → UInt8) (rest : List Nat) (vm vm₂ : Vm) : Prop where
  free : vm.free = pa :: rest
  frame : Frame kend pa
  flags : perm.toNat < PGSIZE
  aligned : a % PGSIZE = 0
  lt : a < b
  top : b ≤ KERNBASE
  absent : vm.dir.present a = false
  maps : MapsPage { vm with free := rest, mem := Function.update vm.mem pa c } vm₂ a (.mk pa perm)

section
variable {b a pa : Nat} {vm vm₂ vm' : Vm} {rest : List Nat}

theorem Allocated.nil {perm : Nat → Pte} {c : Nat → Nat → UInt8} (vm : Vm) (ha : a % PGSIZE = 0) (h : b ≤ a) :
    Allocated kend a b perm c vm vm := by
  have hno : ∀ vb, ¬ InRange a b vb := by
    intro vb
    unfold InRange PGSIZE at *
    omega
  exact ⟨fun _ _ _ => rfl, fun vb _ hr => absurd hr (hno vb), .refl _, List.suffix_refl _, fun _ _ => rfl,
    fun _ h => .inl h, fun _ _ => rfl, fun _ vb _ hr => absurd hr (hno vb), fun _ vb _ _ _ hr => absurd hr (hno vb)⟩

theorem Allocated.fresh {perm : Nat → Pte} {c : Nat → Nat → UInt8} (h : Allocated kend a b perm c vm vm') {vb : Nat} (hb : vb < 2 ^ 32)
    (hr : InRange a b vb) : PTE_ADDR (vm'.dir.pte vb) ∈ vm.free := by
  obtain ⟨pa, hpa, -, haddr, -⟩ := h.new vb hb hr
  rw [haddr]
  exact hpa

theorem Allocated.filled {c : Nat → Nat → UInt8} (h : Allocated kend a b (fun _ => PTE_W ||| PTE_U) c vm vm') :
    Filled kend a b vm.dir vm'.dir := by
  refine ⟨h.out, fun vb hb hr => ?_⟩
  obtain ⟨pa, -, hpa, -, hpte⟩ := h.new vb hb hr
  exact ⟨pa, hpa, hpte⟩

namespace AllocStep

section
variable {perm : Pte} {c : Nat → UInt8} (h : AllocStep kend b a pa perm c rest vm vm₂)
include h

theorem pte {vb : Nat} (hb : vb < 2 ^ 32) :
    vm₂.dir.pte vb = if a / PGSIZE = vb / PGSIZE then .mk pa perm else vm.dir.pte vb := h.maps.pte vb hb

theorem addr : PTE_ADDR (.mk pa perm) = pa :=
  PTE_ADDR_mk (by have := h.frame.high; unfold PHYSTOP at this; omega) h.frame.aligned h.flags

theorem owned : vm₂.owned.Perm vm.owned := by
  have hmaps := h.maps.owned (by have := h.lt; have := h.top; omega) h.absent (Pte.present_mk _ _)
  rw [h.addr] at hmaps
  refine hmaps.trans (List.Perm.symm ?_)
  exact owned_push rfl h.free

theorem free_sub : vm₂.free <:+ rest := h.maps.suffix

theorem sub {p : Nat} (hp : p ∈ vm₂.free) : p ∈ vm.free := by
  rw [h.free]
  exact List.mem_cons_of_mem _ (h.free_sub.subset hp)

theorem mem {p : Nat} (hp : p ∉ vm.free) : vm₂.mem p = vm.mem p := by
  rw [h.free, List.mem_cons, not_or] at hp
  rw [h.maps.mem p hp.2]
  exact Function.update_of_ne hp.1 _ _

theorem mem_new (hnd : vm.free.Nodup) : vm₂.mem pa = c := by
  rw [h.free, List.nodup_cons] at hnd
  rw [h.maps.mem pa hnd.1]
  exact Function.update_self _ _ _

theorem later (hnd : vm.free.Nodup) : pa ∉ vm₂.free ∧ vm₂.free.Nodup := by
  rw [h.free, List.nodup_cons] at hnd
  exact ⟨fun hp => hnd.1 (h.free_sub.subset hp), hnd.2.sublist h.free_sub.sublist⟩

theorem absent_rest
    (habs : ∀ vb < 2 ^ 32, InRange a b vb → vm.dir.present vb = false) {vb : Nat} (hb : vb < 2 ^ 32)
    (hr : InRange (a + PGSIZE) b vb) : vm₂.dir.present vb = false := by
  have hal := h.aligned
  have hp : ¬ a / PGSIZE = vb / PGSIZE := by unfold InRange PGSIZE at *; omega
  rw [PgDir.present_eq_pte, h.pte hb, if_neg hp, ← PgDir.present_eq_pte]
  exact habs vb hb (by unfold InRange PGSIZE at *; omega)

theorem mem_frames {r p : Nat} (hr : r % PGSIZE = 0)
    (hp : p ∈ vm₂.dir.frames r b) : p ∈ vm.free ∨ p ∈ vm.dir.frames r b := by
  obtain ⟨va, hin, hpres, rfl⟩ := (PgDir.mem_frames hr).1 hp
  have hva : va < 2 ^ 32 := by have := h.top; unfold InRange PGSIZE KERNBASE at *; omega
  by_cases hpage : a / PGSIZE = va / PGSIZE
  · left
    rw [h.pte hva, if_pos hpage, h.addr, h.free]
    exact List.mem_cons_self
  · right
    rw [PgDir.present_eq_pte, h.pte hva, if_neg hpage] at hpres
    rw [h.pte hva, if_neg hpage]
    exact (PgDir.mem_frames hr).2 ⟨va, hin, by rw [PgDir.present_eq_pte]; exact hpres, rfl⟩

theorem rolledBack {r : Nat} (hal : r % PGSIZE = 0) (hle : r ≤ a)
    (hr : RolledBack r b vm₂ vm') : RolledBack r b vm vm' := by
  have hlt := h.lt
  have ha := h.aligned
  refine ⟨hr.emptied.of_out fun vb hb hin => ?_, hr.owned.trans h.owned, KeepsTables.trans h.maps.keeps hr.keeps,
    fun p hfree hframes => ?_⟩
  · rw [h.pte hb, if_neg]
    intro hpage
    refine hin ?_
    unfold InRange PGSIZE at *
    omega
  · rw [hr.mem p (fun hp => hfree (h.sub hp)) fun hp => (h.mem_frames hal hp).elim hfree hframes, h.mem hfree]

end

theorem allocated {perm : Nat → Pte} {c : Nat → Nat → UInt8} (h : AllocStep kend b a pa (perm (a / PGSIZE)) (c (a / PGSIZE)) rest vm vm₂)
    (hr : Allocated kend (a + PGSIZE) b perm c vm₂ vm') : Allocated kend a b perm c vm vm' := by
  have hal := h.aligned
  have hlt := h.lt
  have hsplit : ∀ {vb}, InRange a b vb → a / PGSIZE = vb / PGSIZE ∨ InRange (a + PGSIZE) b vb := by
    intro vb
    unfold InRange PGSIZE at *
    omega
  have hfirst : ∀ {vb}, vb < 2 ^ 32 → a / PGSIZE = vb / PGSIZE → vm'.dir.pte vb = .mk pa (perm (a / PGSIZE)) := by
    intro vb hb hpage
    rw [hr.out vb hb (by unfold InRange PGSIZE at *; omega), h.pte hb, if_pos hpage]
  refine ⟨fun vb hb hin => ?_, fun vb hb hin => ?_, hr.owned.trans h.owned, ?_,
    KeepsTables.trans h.maps.keeps hr.keeps, fun i hi => ?_, fun p hp => ?_, ?_, ?_⟩
  · have hpage : ¬ a / PGSIZE = vb / PGSIZE := by unfold InRange PGSIZE at *; omega
    rw [hr.out vb hb (by unfold InRange PGSIZE at *; omega), h.pte hb, if_neg hpage]
  · rcases hsplit hin with hpage | hin
    · refine ⟨pa, by rw [h.free]; exact List.mem_cons_self, h.frame, ?_, ?_⟩
      · rw [hfirst hb hpage, h.addr]
      · rw [hfirst hb hpage, hpage]
    · obtain ⟨q, hq, hrest⟩ := hr.new vb hb hin
      exact ⟨q, h.sub hq, hrest⟩
  · rw [h.free]
    exact (hr.suffix.trans h.free_sub).trans (List.suffix_cons _ _)
  · rcases hr.tables i hi with hi | ⟨vb, hin, hpd⟩
    · rw [h.maps.tables] at hi
      by_cases hia : i = PDX a
      · exact .inr ⟨a, by unfold InRange PGSIZE at *; omega, hia.symm⟩
      · rw [Function.update_of_ne hia] at hi
        exact .inl hi
    · exact .inr ⟨vb, by unfold InRange PGSIZE at *; omega, hpd⟩
  · rw [hr.mem p fun hp' => hp (h.sub hp'), h.mem hp]
  · intro hnd vb hb hin
    rcases hsplit hin with hpage | hin
    · rw [hfirst hb hpage, h.addr, hr.mem pa (h.later hnd).1, h.mem_new hnd, hpage]
    · exact hr.contents (h.later hnd).2 vb hb hin
  · intro hnd vb hb vc hc hinb hinc heq
    rcases hsplit hinb with hpb | hinb'
    · rcases hsplit hinc with hpc | hinc'
      · omega
      · rw [hfirst hb hpb, h.addr] at heq
        exact absurd (heq ▸ hr.fresh hc hinc') (h.later hnd).1
    · rcases hsplit hinc with hpc | hinc'
      · rw [hfirst hc hpc, h.addr] at heq
        exact absurd (heq ▸ hr.fresh hb hinb') (h.later hnd).1
      · exact hr.inj (h.later hnd).2 vb hb vc hc hinb' hinc' heq

end AllocStep

end

theorem undo_ok (hk : 0 < kend) (hnew : newsz < KERNBASE) (hold : oldsz < newsz) (vm : Vm)
    (hgood : ∀ p ∈ vm.dir.frames (PGROUNDUP oldsz) newsz, Frame kend p) :
    ∃ vm', Vm.deallocuvm kend vm newsz oldsz = .ok (vm', oldsz) ∧ RolledBack (PGROUNDUP oldsz) newsz vm vm' := by
  obtain ⟨vm', hvm', hd⟩ := deallocuvm_ok hk (by omega) hold hgood
  exact ⟨vm', hvm', hd.cleared.emptied, hd.owned, fun i _ => hd.tables i, fun p _ hp => hd.mem p hp⟩

theorem allocFrom_spec (hk : 0 < kend) (hnew : newsz < KERNBASE) (hold : oldsz < newsz) {n a : Nat} (vm : Vm)
    (ha : a % PGSIZE = 0) (hle : PGROUNDUP oldsz ≤ a) (hn : n = Vm.pageCount a newsz)
    (hgood : ∀ p ∈ vm.dir.frames (PGROUNDUP oldsz) newsz, Frame kend p) (hfree : ∀ p ∈ vm.free, Frame kend p)
    (habs : ∀ vb < 2 ^ 32, InRange a newsz vb → vm.dir.present vb = false) :
    (allocNeed vm.dir.tables n a ≤ vm.free.length → ∃ vm', Vm.allocFrom kend oldsz newsz n a vm = .ok (vm', newsz) ∧
      Allocated kend a newsz (fun _ => PTE_W ||| PTE_U) (fun _ _ => 0) vm vm') ∧
    (vm.free.length < allocNeed vm.dir.tables n a → ∃ vm', Vm.allocFrom kend oldsz newsz n a vm = .ok (vm', 0) ∧
      RolledBack (PGROUNDUP oldsz) newsz vm vm') := by
  have hround := PGROUNDUP_aligned oldsz
  induction n generalizing a vm with
  | zero =>
    refine ⟨fun _ => ⟨vm, rfl, .nil vm ha ?_⟩, fun h => by simp [allocNeed] at h⟩
    unfold Vm.pageCount PGSIZE at hn
    omega
  | succ n ih =>
    have hlt : a < newsz := by unfold Vm.pageCount PGSIZE at hn; omega
    have ha32 : a < 2 ^ 32 := by unfold KERNBASE at hnew; omega
    have hina : InRange a newsz a := by unfold InRange PGSIZE at *; omega
    rw [Vm.allocFrom, allocNeed]
    cases hf : vm.free with
    | nil =>
      refine ⟨fun h => by simp at h, fun _ => ?_⟩
      obtain ⟨vm', hvm', hr⟩ := undo_ok hk hnew hold vm hgood
      refine ⟨vm', ?_, hr⟩
      simp only [Vm.kalloc, hf, if_true, hvm', ok_bind]
    | cons pa rest =>
      have hpa : Frame kend pa := hfree pa (by rw [hf]; simp)
      have hrest : ∀ p ∈ rest, Frame kend p := fun p hp => hfree p (by rw [hf]; simp [hp])
      have hpa0 : pa ≠ 0 := by have := hpa.low; omega
      simp only [Vm.kalloc, hf, hpa0, if_false, mappages_page _ ha ha32]
      obtain ⟨hyes, hno⟩ := mapFrom_one ({ vm with free := rest }.memset pa 0) ha32
        (fun p hp => by have := (hrest p hp).low; omega) (habs a ha32 hina) pa (PTE_W ||| PTE_U)
      have htabs : ({ vm with free := rest }.memset pa 0).dir.tables = vm.dir.tables := rfl
      have hlen : ({ vm with free := rest }.memset pa 0).free.length = rest.length := rfl
      rw [htabs, hlen] at hyes hno
      by_cases ht : rest.length < if vm.dir.tables (PDX a) then 0 else 1
      · refine ⟨fun h => by rw [List.length_cons] at h; omega, fun _ => ?_⟩
        obtain ⟨vm', hvm', hr⟩ := undo_ok hk hnew hold ({ vm with free := rest }.memset pa 0) hgood
        refine ⟨{ vm'.memset pa 1 with free := pa :: vm'.free }, ?_, hr.emptied, ?_, hr.keeps, fun p hp hpf => ?_⟩
        · rw [hno ht]
          simp only [ok_bind, hvm', kfree_ok vm' hpa]
        · have hpush : Vm.owned { vm'.memset pa 1 with free := pa :: vm'.free } |>.Perm (pa :: vm'.owned) := owned_push rfl rfl
          refine hpush.trans ((hr.owned.cons pa).trans (List.Perm.symm ?_))
          exact owned_push rfl hf
        · rw [hf, List.mem_cons, not_or] at hp
          refine (Function.update_of_ne hp.1 _ _).trans ((hr.mem p hp.2 hpf).trans ?_)
          exact Function.update_of_ne hp.1 _ _
      · obtain ⟨vm₂, hvm₂, hmaps⟩ := hyes (by omega)
        have hstep : AllocStep kend newsz a pa (PTE_W ||| PTE_U) (fun _ => 0) rest vm vm₂ :=
          ⟨hf, hpa, by decide, ha, hlt, by omega, habs a ha32 hina, hmaps⟩
        have hlen₂ : vm₂.free.length = rest.length - if vm.dir.tables (PDX a) then 0 else 1 := by
          rw [hmaps.free, List.length_drop]; rfl
        obtain ⟨ihyes, ihno⟩ := ih (a := a + PGSIZE) vm₂ (by unfold PGSIZE at *; omega) (by omega)
          (by unfold Vm.pageCount PGSIZE at *; omega)
          (fun p hp => (hstep.mem_frames hround hp).elim (hfree p) (hgood p))
          (fun p hp => hrest p (hstep.free_sub.subset hp)) fun vb hb hr => hstep.absent_rest habs hb hr
        rw [hmaps.tables, htabs, hlen₂] at ihyes ihno
        rw [hvm₂, List.length_cons]
        simp only [ok_bind]
        refine ⟨fun h => ?_, fun h => ?_⟩
        · obtain ⟨vm', hvm', hr⟩ := ihyes (by omega)
          exact ⟨vm', hvm', hstep.allocated hr⟩
        · obtain ⟨vm', hvm', hr⟩ := ihno (by omega)
          exact ⟨vm', hvm', hstep.rolledBack hround hle hr⟩

end

/-! ### `growproc` -/

def SamePages (d d' : PgDir) : Prop :=
  ∀ vb < 2 ^ 32, d'.present vb = d.present vb ∧ (d.present vb = true → d'.pte vb = d.pte vb)

theorem SamePages.refl (d : PgDir) : SamePages d d := fun _ _ => ⟨rfl, fun _ => rfl⟩

theorem Emptied.samePages {a b : Nat} {d d' : PgDir} (h : Emptied a b d d')
    (habs : ∀ vb < 2 ^ 32, InRange a b vb → d.present vb = false) : SamePages d d' := by
  intro vb hb
  by_cases hr : InRange a b vb
  · rw [habs vb hb hr, h.gone vb hb hr]
    exact ⟨rfl, nofun⟩
  · rw [PgDir.present_eq_pte, PgDir.present_eq_pte, h.out vb hb hr]
    exact ⟨rfl, fun _ => rfl⟩

/-- The memory of a process: it has no page from its size on, and its frames are such that `kfree` takes
them back. -/
structure UserBelow (kend : Nat) (d : PgDir) (sz : Nat) : Prop where
  lt : sz < KERNBASE
  below : ∀ va < KERNBASE, d.present va = true → va < PGROUNDUP sz
  good : GoodFrames kend d

namespace UserBelow

variable {kend sz sz' : Nat} {d d' : PgDir}

theorem absent (h : UserBelow kend d sz) {b : Nat} (hb : b < KERNBASE) :
    ∀ vb < 2 ^ 32, InRange (PGROUNDUP sz) b vb → d.present vb = false := by
  intro vb _ hr
  rw [inRange_iff hb] at hr
  rw [← Bool.not_eq_true]
  intro hp
  have := h.below vb (by have := (PGROUNDUP_le hb).2; omega) hp
  omega

theorem samePages (h : UserBelow kend d sz) (hs : SamePages d d') : UserBelow kend d' sz := by
  refine ⟨h.lt, fun va hva hp => ?_, fun va hva hp => ?_⟩
  all_goals have hs := hs va (by unfold KERNBASE at hva; omega)
  all_goals rw [hs.1] at hp
  · exact h.below va hva hp
  · rw [hs.2 hp]
    exact h.good va hva hp

theorem filled (h : UserBelow kend d sz) (hsz' : sz' < KERNBASE) (hle : sz ≤ sz')
    (hf : Filled kend (PGROUNDUP sz) sz' d d') : UserBelow kend d' sz' := by
  have hmono := PGROUNDUP_mono hsz' hle
  refine ⟨hsz', fun va hva hp => ?_, fun va hva hp => ?_⟩
  all_goals have hb : va < 2 ^ 32 := by unfold KERNBASE at hva; omega
  all_goals by_cases hr : InRange (PGROUNDUP sz) sz' va
  · rw [inRange_iff hsz'] at hr
    exact hr.2
  · rw [PgDir.present_eq_pte, hf.out va hb hr, ← PgDir.present_eq_pte] at hp
    have := h.below va hva hp
    omega
  · obtain ⟨pa, hpa, hpte⟩ := hf.new va hb hr
    rw [hpte, mk_frame hpa]
    exact hpa
  · rw [PgDir.present_eq_pte, hf.out va hb hr, ← PgDir.present_eq_pte] at hp
    rw [hf.out va hb hr]
    exact h.good va hva hp

theorem emptied (h : UserBelow kend d sz) (hle : sz' ≤ sz) (he : Emptied (PGROUNDUP sz') sz d d') :
    UserBelow kend d' sz' := by
  have hlt := h.lt
  refine ⟨by omega, fun va hva hp => ?_, fun va hva hp => ?_⟩
  all_goals have hb : va < 2 ^ 32 := by unfold KERNBASE at hva; omega
  all_goals have hr : ¬ InRange (PGROUNDUP sz') sz va := fun hr => by rw [he.gone va hb hr] at hp; cases hp
  all_goals rw [PgDir.present_eq_pte, he.out va hb hr, ← PgDir.present_eq_pte] at hp
  · have := h.below va hva hp
    rw [inRange_iff h.lt] at hr
    omega
  · rw [he.out va hb hr]
    exact h.good va hva hp

end UserBelow

/-- The memory of a process, with all the pages below its size. -/
structure UserSpace (kend : Nat) (d : PgDir) (sz : Nat) : Prop where
  lt : sz < KERNBASE
  exact : ExactPages d sz
  good : GoodFrames kend d

namespace UserSpace

variable {kend sz sz' : Nat} {d d' : PgDir}

theorem below (h : UserSpace kend d sz) : UserBelow kend d sz :=
  ⟨h.lt, fun va hva hp => (h.exact va hva).1 hp, h.good⟩

theorem of_below (h : UserBelow kend d sz) (hall : ∀ va < PGROUNDUP sz, d.present va = true) : UserSpace kend d sz :=
  ⟨h.lt, fun va hva => ⟨h.below va hva, hall va⟩, h.good⟩

theorem present (h : UserSpace kend d sz) {va : Nat} (hva : va < PGROUNDUP sz) : d.present va = true ∧ va < KERNBASE := by
  have hlt : va < KERNBASE := by have := (PGROUNDUP_le h.lt).2; omega
  exact ⟨(h.exact va hlt).2 hva, hlt⟩

theorem samePages (h : UserSpace kend d sz) (hs : SamePages d d') : UserSpace kend d' sz := by
  refine of_below (h.below.samePages hs) fun va hva => ?_
  obtain ⟨hp, hlt⟩ := h.present hva
  rw [(hs va (by unfold KERNBASE at hlt; omega)).1]
  exact hp

theorem filled (h : UserSpace kend d sz) (hsz' : sz' < KERNBASE) (hle : sz ≤ sz')
    (hf : Filled kend (PGROUNDUP sz) sz' d d') : UserSpace kend d' sz' := by
  refine of_below (h.below.filled hsz' hle hf) fun va hva => ?_
  have hb : va < 2 ^ 32 := by have := (PGROUNDUP_le hsz').2; unfold KERNBASE at this; omega
  rw [PgDir.present_eq_pte]
  by_cases hr : InRange (PGROUNDUP sz) sz' va
  · obtain ⟨pa, -, hpte⟩ := hf.new va hb hr
    rw [hpte, Pte.present_mk]
  · rw [hf.out va hb hr, ← PgDir.present_eq_pte]
    rw [inRange_iff hsz'] at hr
    exact (h.present (by omega)).1

theorem emptied (h : UserSpace kend d sz) (hle : sz' ≤ sz) (he : Emptied (PGROUNDUP sz') sz d d') :
    UserSpace kend d' sz' := by
  refine of_below (h.below.emptied hle he) fun va hva => ?_
  have hmono := PGROUNDUP_mono h.lt hle
  obtain ⟨hp, hlt⟩ := h.present (by omega : va < PGROUNDUP sz)
  have hr : ¬ InRange (PGROUNDUP sz') sz va := by rw [inRange_iff h.lt]; omega
  rw [PgDir.present_eq_pte, he.out va (by unfold KERNBASE at hlt; omega) hr, ← PgDir.present_eq_pte]
  exact hp

end UserSpace

def growNeed (d : PgDir) (sz sz' : Nat) : Nat := allocNeed d.tables (Vm.pageCount (PGROUNDUP sz) sz') (PGROUNDUP sz)

section
variable {kend sz : Nat} {vm : Vm} {n : Int}

/-- A call that is refused or asks for nothing. -/
def GrowIdle (vm : Vm) (sz : Nat) (n : Int) : Prop :=
  n = 0 ∨ (n < 0 ∧ sz + n < 0) ∨ (0 < n ∧ (KERNBASE ≤ sz + n ∨ vm.free.length < growNeed vm.dir sz (sz + n).toNat))

theorem allocuvm_spec (hk : 0 < kend) (hfree : ∀ p ∈ vm.free, Frame kend p) {sz' : Nat} (hlt : sz < sz') (hsz' : sz' < KERNBASE)
    (habs : ∀ vb < 2 ^ 32, InRange (PGROUNDUP sz) sz' vb → vm.dir.present vb = false) :
    (growNeed vm.dir sz sz' ≤ vm.free.length → ∃ vm', vm.allocuvm kend sz sz' = .ok (vm', sz') ∧
      Allocated kend (PGROUNDUP sz) sz' (fun _ => PTE_W ||| PTE_U) (fun _ _ => 0) vm vm') ∧
    (vm.free.length < growNeed vm.dir sz sz' → ∃ vm', vm.allocuvm kend sz sz' = .ok (vm', 0) ∧
      RolledBack (PGROUNDUP sz) sz' vm vm') := by
  have hnone : vm.dir.frames (PGROUNDUP sz) sz' = [] := by
    refine PgDir.frames_of_all_absent (PGROUNDUP_aligned sz) fun vb hr => habs vb ?_ hr
    unfold InRange PGSIZE KERNBASE at *
    omega
  rw [Vm.allocuvm, if_neg (by omega), if_neg (by omega)]
  exact allocFrom_spec hk hsz' hlt vm (PGROUNDUP_aligned sz) le_rfl rfl (by rw [hnone]; nofun) hfree habs

theorem toUint32_of_nonneg {m : Int} (h0 : 0 ≤ m) (hlt : m < 2 ^ 32) : toUint32 m = m.toNat := by
  unfold toUint32
  omega

theorem growproc_idle (hk : 0 < kend) (h : UserBelow kend vm.dir sz) (hfree : ∀ p ∈ vm.free, Frame kend p)
    (hn : -2 ^ 31 ≤ n ∧ n < 2 ^ 31) (hidle : GrowIdle vm sz n) :
    ∃ vm' ret, vm.growproc kend sz n = .ok (vm', sz, ret) ∧ SamePages vm.dir vm'.dir := by
  have hlt := h.lt
  unfold Vm.growproc
  rcases hidle with rfl | ⟨hneg, hunder⟩ | ⟨hpos, hbig | hneed⟩
  · exact ⟨vm, 0, rfl, .refl _⟩
  · -- the new size wraps to one above the old, and `deallocuvm` returns at once
    have hwrap : sz ≤ toUint32 (sz + n) := by unfold toUint32 KERNBASE at *; omega
    rw [if_neg (by omega), if_pos hneg, Vm.deallocuvm, if_pos hwrap]
    by_cases h0 : sz = 0
    · exact ⟨vm, -1, by simp [h0], .refl _⟩
    · exact ⟨vm, 0, by simp [h0], .refl _⟩
  · rw [if_pos hpos, toUint32_of_nonneg (by omega) (by unfold KERNBASE at hlt; omega), Vm.allocuvm, if_pos (by omega)]
    exact ⟨vm, -1, by simp, .refl _⟩
  · rw [if_pos hpos]
    by_cases hbig : (KERNBASE : Int) ≤ sz + n
    · rw [toUint32_of_nonneg (by omega) (by unfold KERNBASE at hlt; omega), Vm.allocuvm, if_pos (by omega)]
      exact ⟨vm, -1, by simp, .refl _⟩
    · rw [toUint32_of_nonneg (by omega) (by unfold KERNBASE at hbig; omega)]
      obtain ⟨vm', hvm', hr⟩ := (allocuvm_spec hk hfree (by omega) (by omega) (h.absent (by omega))).2 hneed
      exact ⟨vm', -1, by rw [hvm']; simp, hr.emptied.samePages (h.absent (by omega))⟩

theorem growproc_grows (hk : 0 < kend) (h : UserBelow kend vm.dir sz) (hfree : ∀ p ∈ vm.free, Frame kend p)
    (hn : 0 < n) (hlt : sz + n < KERNBASE) (hneed : growNeed vm.dir sz (sz + n).toNat ≤ vm.free.length) :
    ∃ vm', vm.growproc kend sz n = .ok (vm', (sz + n).toNat, 0) ∧
      Filled kend (PGROUNDUP sz) (sz + n).toNat vm.dir vm'.dir := by
  obtain ⟨vm', hvm', hr⟩ := (allocuvm_spec hk hfree (show sz < (sz + n).toNat by omega) (by omega) (h.absent (by omega))).1 hneed
  refine ⟨vm', ?_, hr.filled⟩
  rw [Vm.growproc, if_pos hn, toUint32_of_nonneg (by omega) (by unfold KERNBASE at hlt; omega), hvm']
  rw [ok_bind]
  exact if_neg (by omega)

theorem growproc_shrinks (hk : 0 < kend) (h : UserBelow kend vm.dir sz) (hn : n < 0) (hge : 0 ≤ sz + n) :
    ∃ vm', vm.growproc kend sz n =
        .ok (if sz + n = 0 then (vm', sz, -1) else (vm', (sz + n).toNat, 0)) ∧
      Emptied (PGROUNDUP (sz + n).toNat) sz vm.dir vm'.dir := by
  have hlt := h.lt
  obtain ⟨vm', hvm', hd⟩ := deallocuvm_ok hk (by omega) (by omega : (sz + n).toNat < sz)
    (h.good.frames (PGROUNDUP_aligned _) (by omega))
  refine ⟨vm', ?_, hd.cleared.emptied⟩
  rw [Vm.growproc, if_neg (by omega), if_pos hn, toUint32_of_nonneg hge (by unfold KERNBASE at hlt; omega), hvm', ok_bind]
  by_cases h0 : sz + n = 0
  · rw [if_pos h0]; exact if_pos (by omega)
  · rw [if_neg h0]; exact if_neg (by omega)

end

end Ostep.Xv6
