import Ostep.Xv6.SharedSz
import Ostep.Xv6.StoreRange

/-!
# Kernel stores into protected pages

`argptr` compares an address with the size of the process, and nothing else. With `CR0_WP` set, a store by
the kernel faults when the page is absent or read-only, and a fault in kernel mode is `panic("trap")`.
`UserMem` records next to the pages of a process the history that decides it: which pages are under an
`mprotect`, and which ones an `sbrk` of the whole memory has taken away, since that call frees them and then
fails without changing the size.
-/

namespace Ostep.Xv6

structure UserMem where
  sz : Nat
  vm : Vm
  /-- Ghost: the page numbers that an `mprotect` has covered, until an `munprotect` covers them or an
  `sbrk` maps them anew. -/
  prot : Nat → Bool
  /-- Ghost: the page numbers that a failed `sbrk` has taken away, until one maps them anew. -/
  lost : Nat → Bool

/-- A call that has to do with the pages; `free` is what `kalloc` can hand out. -/
inductive MemAct where
  | sbrk (n : Int) (free : List Nat)
  | mprotect (addr : Nat) (len : Int)
  | munprotect (addr : Nat) (len : Int)

namespace UserMem

/-- A process whose pages are all there, some of them perhaps read-only. -/
def start (sz : Nat) (vm : Vm) : UserMem where
  sz := sz
  vm := vm
  prot := fun pg => !vm.dir.writable (pg * PGSIZE)
  lost := fun _ => false

def fresh (sz sz' pg : Nat) : Bool := decide (InRange (PGROUNDUP sz) sz' (pg * PGSIZE))

/-- The page numbers that a call with this result has covered. -/
def covered (ret : Int) (addr : Nat) (len : Int) (pg : Nat) : Bool :=
  decide (ret = 0) && decide (Visited addr len (pg * PGSIZE))

/-- The state after `sbrk(n)` has made the pages those of `vm` and the size `sz`. -/
def grown (s : UserMem) (n : Int) (vm : Vm) (sz : Nat) : UserMem where
  sz := sz
  vm := vm
  prot := fun pg => s.prot pg && !fresh s.sz sz pg
  lost := fun pg => (decide (n < 0 ∧ s.sz + n = 0) || s.lost pg) && !fresh s.sz sz pg

def IsInt (n : Int) : Prop := -2 ^ 31 ≤ n ∧ n < 2 ^ 31

instance (n : Int) : Decidable (IsInt n) := inferInstanceAs (Decidable (_ ∧ _))

/-- One call that returns; a panic or a fault has no next state. -/
def next (kend : Nat) (s : UserMem) : MemAct → Option UserMem
  | .sbrk n free =>
    if IsInt n ∧ ∀ p ∈ free, Frame kend p then
      match { s.vm with free := free }.growproc kend s.sz n with
      | .ok (vm, sz, _) => some (s.grown n vm sz)
      | .error _ => none
    else none
  | .mprotect addr len =>
    if addr < 2 ^ 32 then
      match Xv6.mprotect s.vm.dir s.sz addr len with
      | .ok (d, ret) => some
        { s with vm := { s.vm with dir := d }, prot := fun pg => s.prot pg || covered ret addr len pg }
      | .error _ => none
    else none
  | .munprotect addr len =>
    if addr < 2 ^ 32 then
      match Xv6.munprotect s.vm.dir s.sz addr len with
      | .ok (d, ret) => some
        { s with vm := { s.vm with dir := d }, prot := fun pg => s.prot pg && !covered ret addr len pg }
      | .error _ => none
    else none

end UserMem

open UserMem

/-- The ghost state is right about the page of `va`. -/
structure Tracks (s : UserMem) (va : Nat) : Prop where
  present : s.vm.dir.present va = !s.lost (va / PGSIZE)
  writable : s.lost (va / PGSIZE) = false → s.vm.dir.writable va = !s.prot (va / PGSIZE)

structure MemInv (kend : Nat) (s : UserMem) : Prop where
  user : UserBelow kend s.vm.dir s.sz
  tracks : ∀ va < PGROUNDUP s.sz, Tracks s va

section
variable {kend sz sz' va : Nat} {s s' : UserMem}

theorem MemInv.start {vm : Vm} (h : UserSpace kend vm.dir sz) : MemInv kend (.start sz vm) := by
  refine ⟨h.below, fun va hva => ⟨(h.present hva).1, fun _ => ?_⟩⟩
  show vm.dir.writable va = !!vm.dir.writable (va / PGSIZE * PGSIZE)
  have hpg : va / PGSIZE = va / PGSIZE * PGSIZE / PGSIZE := by unfold PGSIZE; omega
  rw [Bool.not_not, PgDir.writable_eq_pte, PgDir.pte_congr hpg, PgDir.writable_eq_pte]

theorem MemInv.lt_word (h : MemInv kend s) (hva : va < PGROUNDUP s.sz) : va < 2 ^ 32 := by
  have := (PGROUNDUP_le h.user.lt).2
  unfold KERNBASE at this
  omega

theorem Tracks.congr (h : Tracks s va) (hpte : s'.vm.dir.pte va = s.vm.dir.pte va)
    (hprot : s'.prot (va / PGSIZE) = s.prot (va / PGSIZE)) (hlost : s'.lost (va / PGSIZE) = s.lost (va / PGSIZE)) :
    Tracks s' va := by
  refine ⟨?_, ?_⟩
  · rw [PgDir.present_eq_pte, hpte, hlost, ← PgDir.present_eq_pte]
    exact h.present
  · rw [PgDir.writable_eq_pte, hpte, hlost, hprot, ← PgDir.writable_eq_pte]
    exact h.writable

/-! ### `sbrk` -/

theorem fresh_div (sz sz' va : Nat) : fresh sz sz' (va / PGSIZE) = decide (InRange (PGROUNDUP sz) sz' va) := by
  have hpg : va / PGSIZE * PGSIZE / PGSIZE = va / PGSIZE := by unfold PGSIZE; omega
  unfold fresh
  rw [decide_eq_decide]
  exact inRange_congr (PGROUNDUP_aligned sz) hpg

theorem not_fresh (hva : va < PGROUNDUP sz) : fresh sz sz' (va / PGSIZE) = false := by
  rw [fresh_div, decide_eq_false_iff_not]
  intro hr
  have := hr.1
  omega

theorem UserBelow.mono {d : PgDir} (h : UserBelow kend d sz) (hle : sz ≤ sz') (hlt : sz' < KERNBASE) :
    UserBelow kend d sz' := by
  refine ⟨hlt, fun va hva hp => ?_, h.good⟩
  have := h.below va hva hp
  have := PGROUNDUP_mono hlt hle
  omega

section
variable {n : Int} {vm : Vm}

theorem grown_prot (hva : va < PGROUNDUP s.sz) : (s.grown n vm sz').prot (va / PGSIZE) = s.prot (va / PGSIZE) := by
  simp [grown, not_fresh hva]

theorem grown_lost (hva : va < PGROUNDUP s.sz) (hall : ¬ (n < 0 ∧ s.sz + n = 0)) :
    (s.grown n vm sz').lost (va / PGSIZE) = s.lost (va / PGSIZE) := by
  simp [grown, not_fresh hva, hall]

theorem MemInv.samePages (h : MemInv kend s) (hall : ¬ (n < 0 ∧ s.sz + n = 0)) (hs : SamePages s.vm.dir vm.dir) :
    MemInv kend (s.grown n vm s.sz) := by
  refine ⟨h.user.samePages hs, fun va (hva : va < PGROUNDUP s.sz) => ?_⟩
  obtain ⟨hp, hpte⟩ := hs va (h.lt_word hva)
  have ht := h.tracks va hva
  refine ⟨?_, ?_⟩
  · rw [grown_lost hva hall, ← ht.present]
    exact hp
  · rw [grown_lost hva hall, grown_prot hva]
    intro hl
    have hpres : s.vm.dir.present va = true := by rw [ht.present, hl]; rfl
    rw [← ht.writable hl, PgDir.writable_eq_pte, PgDir.writable_eq_pte, ← hpte hpres]
    rfl

theorem MemInv.allGone (h : MemInv kend s) (hn : n < 0) (h0 : (s.sz : Int) + n = 0) (he : Emptied (PGROUNDUP 0) s.sz s.vm.dir vm.dir) :
    MemInv kend (s.grown n vm s.sz) := by
  refine ⟨(h.user.emptied (Nat.zero_le _) he).mono (Nat.zero_le _) h.user.lt, fun va (hva : va < PGROUNDUP s.sz) => ?_⟩
  have hlost : (s.grown n vm s.sz).lost (va / PGSIZE) = true := by simp [grown, not_fresh hva, hn, h0]
  have hin : InRange (PGROUNDUP 0) s.sz va := (inRange_iff h.user.lt).2 ⟨Nat.zero_le _, hva⟩
  refine ⟨?_, fun hl => ?_⟩
  · rw [hlost]
    exact he.gone va (h.lt_word hva) hin
  · rw [hlost] at hl
    cases hl

theorem MemInv.shrunk (h : MemInv kend s) (hall : (s.sz : Int) + n ≠ 0) (hle : sz' ≤ s.sz)
    (he : Emptied (PGROUNDUP sz') s.sz s.vm.dir vm.dir) : MemInv kend (s.grown n vm sz') := by
  refine ⟨h.user.emptied hle he, fun va (hva : va < PGROUNDUP sz') => ?_⟩
  have hva' : va < PGROUNDUP s.sz := lt_of_lt_of_le hva (PGROUNDUP_mono h.user.lt hle)
  have hout : ¬ InRange (PGROUNDUP sz') s.sz va := fun hin => by have := hin.1; omega
  exact (h.tracks va hva').congr (he.out va (h.lt_word hva') hout) (grown_prot hva') (grown_lost hva' fun hc => hall hc.2)

theorem MemInv.filled (h : MemInv kend s) (hn : 0 < n) (hlt : sz' < KERNBASE) (hle : s.sz ≤ sz')
    (hf : Filled kend (PGROUNDUP s.sz) sz' s.vm.dir vm.dir) : MemInv kend (s.grown n vm sz') := by
  refine ⟨h.user.filled hlt hle hf, fun va (hva : va < PGROUNDUP sz') => ?_⟩
  have hb : va < 2 ^ 32 := by have := (PGROUNDUP_le hlt).2; unfold KERNBASE at this; omega
  by_cases hin : InRange (PGROUNDUP s.sz) sz' va
  · obtain ⟨pa, -, hpte⟩ := hf.new va hb hin
    have hfresh : fresh s.sz sz' (va / PGSIZE) = true := by rw [fresh_div, decide_eq_true hin]
    refine ⟨?_, fun _ => ?_⟩
    · rw [show (s.grown n vm sz').lost (va / PGSIZE) = false by simp [grown, hfresh]]
      show vm.dir.present va = true
      rw [PgDir.present_eq_pte, hpte, Pte.present_mk]
    · rw [show (s.grown n vm sz').prot (va / PGSIZE) = false by simp [grown, hfresh]]
      show vm.dir.writable va = true
      rw [PgDir.writable_eq_pte, hpte, Pte.writable_mk _ (by decide)]
  · have hva' : va < PGROUNDUP s.sz := by
      rw [inRange_iff hlt] at hin
      omega
    exact (h.tracks va hva').congr (hf.out va hb hin) (grown_prot hva') (grown_lost hva' fun hc => by omega)

theorem MemInv.sbrk {ret : Int} {free : List Nat} (hk : 0 < kend) (h : MemInv kend s) (hn : IsInt n)
    (hfree : ∀ p ∈ free, Frame kend p) (hg : { s.vm with free := free }.growproc kend s.sz n = .ok (vm, sz', ret)) :
    MemInv kend (s.grown n vm sz') := by
  have hu : UserBelow kend { s.vm with free := free }.dir s.sz := h.user
  by_cases hidle : GrowIdle { s.vm with free := free } s.sz n
  · obtain ⟨vm', ret', hr, hsame⟩ := growproc_idle hk hu hfree hn hidle
    cases hr.symm.trans hg
    exact h.samePages (by unfold GrowIdle at hidle; omega) hsame
  unfold GrowIdle at hidle
  by_cases hneg : n < 0
  · obtain ⟨vm', hr, he⟩ := growproc_shrinks hk hu hneg (by omega)
    by_cases h0 : (s.sz : Int) + n = 0
    · rw [if_pos h0] at hr
      cases hr.symm.trans hg
      rw [show ((s.sz : Int) + n).toNat = 0 by omega] at he
      exact h.allGone hneg h0 he
    · rw [if_neg h0] at hr
      cases hr.symm.trans hg
      exact h.shrunk h0 (by omega) he
  · obtain ⟨vm', hr, hf⟩ := growproc_grows hk hu hfree (by omega : 0 < n) (by omega) (by omega)
    cases hr.symm.trans hg
    exact h.filled (by omega) (by omega) (by omega) hf

end

/-! ### `mprotect` and `munprotect` -/

/-- A call that changes entries by `f`, which sets `PTE_W` to `w` and keeps the rest. -/
theorem MemInv.protect {f : Pte → Pte} {w : Bool} (hf : ∀ e, f (f e) = f e) (hfp : ∀ e, (f e).present = e.present)
    (hfw : ∀ e, (f e).writable = w) (hfa : ∀ e, PTE_ADDR (f e) = PTE_ADDR e) {addr : Nat} {len ret : Int} {d : PgDir}
    {prot : Nat → Bool} (h : MemInv kend s) (haddr : addr < 2 ^ 32)
    (hres : Xv6.protect f s.vm.dir s.sz addr len = .ok (d, ret))
    (hprot : ∀ pg, prot pg = if covered ret addr len pg then !w else s.prot pg) :
    MemInv kend { s with vm := { s.vm with dir := d }, prot := prot } := by
  by_cases hrej : Rejected s.sz addr len
  · cases (protect_rejected hrej).symm.trans hres
    refine ⟨h.user, fun va hva => (h.tracks va hva).congr rfl ?_ rfl⟩
    simp [hprot, covered]
  have hent := protect_accepted_returned hf h.user.lt haddr hrej hres
  have hret : ret = 0 := by
    rw [protect_accepted hrej] at hres
    obtain ⟨d', -, hd'⟩ := bind_ok hres
    cases hd'
    rfl
  -- the two cases for an entry
  have hpte : ∀ va < 2 ^ 32, d.pte va = if Visited addr len va then f (s.vm.dir.pte va) else s.vm.dir.pte va := by
    intro va hva
    by_cases hv : Visited addr len va
    · obtain ⟨hsome, hmap⟩ := (hent va hva).1 hv
      obtain ⟨e, he⟩ := Option.isSome_iff_exists.1 hsome
      rw [if_pos hv, PgDir.pte, PgDir.pte, hmap, he]
      rfl
    · rw [if_neg hv, PgDir.pte, (hent va hva).2 hv]
      rfl
  have hpres : ∀ va < 2 ^ 32, d.present va = s.vm.dir.present va := by
    intro va hva
    rw [PgDir.present_eq_pte, hpte va hva, PgDir.present_eq_pte]
    split
    · exact hfp _
    · rfl
  refine ⟨⟨h.user.lt, fun va hva hp => ?_, fun va hva hp => ?_⟩, fun va hva => ⟨?_, fun hl => ?_⟩⟩
  · rw [hpres va (by unfold KERNBASE at hva; omega)] at hp
    exact h.user.below va hva hp
  · have hb : va < 2 ^ 32 := by unfold KERNBASE at hva; omega
    have hgood := h.user.good va hva (by rw [← hpres va hb]; exact hp)
    show Frame kend (PTE_ADDR (d.pte va))
    rw [hpte va hb]
    split
    · rw [hfa]; exact hgood
    · exact hgood
  · show d.present va = _
    rw [hpres va (h.lt_word hva)]
    exact (h.tracks va hva).present
  · show d.writable va = !prot (va / PGSIZE)
    have hpg : Visited addr len (va / PGSIZE * PGSIZE) ↔ Visited addr len va :=
      visited_congr hrej (by unfold PGSIZE; omega)
    rw [PgDir.writable_eq_pte, hpte va (h.lt_word hva), hprot]
    by_cases hv : Visited addr len va
    · simp [covered, hret, hpg, hv, hfw]
    · simp only [covered, hret, hpg, hv, decide_true, decide_false, Bool.and_false, if_false, Bool.false_eq_true]
      rw [← PgDir.writable_eq_pte]
      exact (h.tracks va hva).writable hl

theorem MemInv.next {a : MemAct} (hk : 0 < kend) (h : MemInv kend s) (hn : s.next kend a = some s') : MemInv kend s' := by
  cases a with
  | sbrk n free =>
    simp only [UserMem.next] at hn
    split at hn
    · next hg =>
      split at hn
      · next vm sz ret hgrow =>
        cases hn
        exact h.sbrk hk hg.1 hg.2 hgrow
      · cases hn
    · cases hn
  | mprotect addr len =>
    simp only [UserMem.next] at hn
    split at hn
    · next haddr =>
      split at hn
      · next d ret hres =>
        cases hn
        refine h.protect Pte.clearW_clearW Pte.present_clearW Pte.writable_clearW PTE_ADDR_clearW haddr hres fun pg => ?_
        cases covered ret addr len pg <;> simp
      · cases hn
    · cases hn
  | munprotect addr len =>
    simp only [UserMem.next] at hn
    split at hn
    · next haddr =>
      split at hn
      · next d ret hres =>
        cases hn
        refine h.protect Pte.setW_setW Pte.present_setW Pte.writable_setW PTE_ADDR_setW haddr hres fun pg => ?_
        cases covered ret addr len pg <;> simp
      · cases hn
    · cases hn

end

/-- No store of the call can fault: each one is to a page that is present and writable. -/
def StoresLand (d : PgDir) (m : Caller) (call : Sys) : Prop :=
  ∀ x ∈ (call.handler m m.argptr).stores, d.present x.1 = true ∧ d.writable x.1 = true

/-- After every sequence of `sbrk`, `mprotect` and `munprotect` calls, the stores of a `read`, `fstat` or
`pipe` all land exactly when none of them is to a page that is under an `mprotect` or has been taken away. -/
theorem storesLand_along {kend sz : Nat} {vm : Vm} {s : UserMem} {l : List MemAct} {m : Caller} {call : Sys} (hk : 0 < kend)
    (hsp : UserSpace kend vm.dir sz) (hrun : run (UserMem.next kend) (.start sz vm) l = some s) (hm : m.sz = s.sz)
    (hcall : call = .read ∨ call = .fstat ∨ call = .pipe) :
    StoresLand s.vm.dir m call ↔ ∀ x ∈ (call.handler m m.argptr).stores,
      s.prot (x.1 / PGSIZE) = false ∧ s.lost (x.1 / PGSIZE) = false := by
  have hinv : MemInv kend s := run_inv (fun _ _ _ h hn => h.next hk hn) (MemInv.start hsp) hrun
  have hlt : m.sz < KERNBASE := by rw [hm]; exact hinv.user.lt
  have hsafe : StoresSafe m call := by
    rcases hcall with rfl | rfl | rfl
    · exact (checked_read hlt).storesSafe hlt
    · exact (checked_fstat hlt).storesSafe hlt
    · exact (checked_pipe hlt).storesSafe hlt
  refine forall₂_congr fun x hx => ?_
  have hin := hsafe.inside x hx
  rw [hm] at hin
  have ht := hinv.tracks x.1 (lt_of_lt_of_le hin (PGROUNDUP_le hinv.user.lt).1)
  rw [ht.present]
  constructor
  · rintro ⟨hl, hw⟩
    rw [Bool.not_eq_true'] at hl
    rw [ht.writable hl, Bool.not_eq_true'] at hw
    exact ⟨hw, hl⟩
  · rintro ⟨hp, hl⟩
    rw [ht.writable hl, hp, hl]
    exact ⟨rfl, rfl⟩

def pipeCaller : Caller := { oneCaller 0 with newPipe := some (1, 2) }

def onePageVm : Vm := { dir := onePage, free := [], mem := fun _ _ => 0 }

theorem storesLand_along_sbrk :
    ∃ s, run (UserMem.next 0x100000) (.start 4096 onePageVm) [.sbrk 4096 [0x500000], .sbrk (-4096) []] = some s ∧
      StoresLand s.vm.dir pipeCaller .pipe := by
  have hrun : (run (UserMem.next 0x100000) (.start 4096 onePageVm) [.sbrk 4096 [0x500000], .sbrk (-4096) []]).map (fun s =>
      (s.sz, s.prot 0, s.lost 0)) = some (4096, false, false) := by
    decide +kernel
  obtain ⟨s, hs, he⟩ := Option.map_eq_some_iff.1 hrun
  simp only [Prod.mk.injEq] at he
  obtain ⟨hsz, hp, hl⟩ := he
  refine ⟨s, hs, (storesLand_along (by decide) userSpace_onePage hs (by rw [hsz]; decide) (.inr (.inr rfl))).2 ?_⟩
  have hpg : ∀ x ∈ (Sys.pipe.handler pipeCaller pipeCaller.argptr).stores, x.1 / PGSIZE = 0 := by decide +kernel
  intro x hx
  rw [hpg x hx]
  exact ⟨hp, hl⟩

/-- `mprotect(0, 1)` and then `pipe((int *) 0)`: `argptr` accepts the pointer, and the page is read-only. -/
theorem not_storesLand_mprotect :
    ∃ s, run (UserMem.next 0x100000) (.start 4096 onePageVm) [.mprotect 0 1] = some s ∧ pipeCaller.sz = s.sz ∧
      pipeCaller.argptr 0 8 = some 0 ∧ ¬ StoresLand s.vm.dir pipeCaller .pipe := by
  have hvis : ∀ va, Visited 0 1 va → va < 4096 := fun va hv => hv.2
  obtain ⟨d, hd, hent⟩ := protect_ok (d := onePage) Pte.clearW_clearW (show 4096 < KERNBASE by decide)
    (by decide) (show ¬ Rejected 4096 0 1 by decide) fun va _ hv => exactPages_onePage.isSome (by decide) (hvis va hv)
  have hnext : UserMem.next 0x100000 (.start 4096 onePageVm) (.mprotect 0 1) = some
      { UserMem.start 4096 onePageVm with
        vm := { onePageVm with dir := d }
        prot := fun pg => (UserMem.start 4096 onePageVm).prot pg || covered 0 0 1 pg } := by
    have hd : Xv6.mprotect (UserMem.start 4096 onePageVm).vm.dir (UserMem.start 4096 onePageVm).sz 0 1 = .ok (d, 0) := by
      rw [Xv6.mprotect]
      exact hd
    simp only [UserMem.next, hd]
    exact if_pos (by decide)
  refine ⟨_, (by rw [run, List.foldlM_cons, hnext]; rfl), rfl, by decide, fun h => ?_⟩
  have hmem : ((0, 0) : Nat × UInt8) ∈ (Sys.pipe.handler pipeCaller pipeCaller.argptr).stores := by decide +kernel
  have hw : d.writable 0 = true := (h _ hmem).2
  rw [PgDir.writable, (hent 0 (by decide)).1 (by decide)] at hw
  revert hw
  decide

end Ostep.Xv6
