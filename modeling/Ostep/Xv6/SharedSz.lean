import Ostep.Xv6.ProcSpec
import Ostep.Xv6.Protect

/-!
# The size of a shared address space

`sz` is a field of each process, while `clone` lets several processes use one page directory: a thread that
grows or shrinks the directory leaves the `sz` of the others behind. `Space` is the table together with the
page directory number `D`, and its steps are those of the processes and threads that use it.
-/

namespace Ostep.Xv6

open ProcState Kernel

structure Space where
  k : Kernel
  vm : Vm

/-- A step: one of the table's, or `sbrk(n)` with `free` the pages that `kalloc` can hand out. -/
inductive SpAct where
  | call (a : Act)
  | sbrk (n : Int) (free : List Nat)

/-- The steps of the table that neither make nor free a page directory. -/
def Act.keepsDirs : Act → Bool
  | .fork .. | .exec .. | .wait => false
  | _ => true

instance (kend pa : Nat) : Decidable (Frame kend pa) :=
  decidable_of_iff (pa % PGSIZE = 0 ∧ kend ≤ pa ∧ pa < PHYSTOP)
    ⟨fun h => ⟨h.1, h.2.1, h.2.2⟩, fun h => ⟨h.aligned, h.low, h.high⟩⟩

section
variable (kend D : Nat)

def Space.Uses (s : Space) (p : Slot) : Prop := (s.k.proc p).state ≠ UNUSED ∧ (s.k.proc p).pgdir = D

def Space.next (s : Space) : Slot × SpAct → Option Space
  | (c, .call a) => if a.keepsDirs then (Xv6.next s.k (c, a)).map fun k => { s with k := k } else none
  | (c, .sbrk n free) =>
    if (s.k.proc c).state = RUNNING ∧ (s.k.proc c).pgdir = D ∧ (-2 ^ 31 ≤ n ∧ n < 2 ^ 31) ∧ ∀ p ∈ free, Frame kend p then
      match { s.vm with free := free }.growproc kend (s.k.proc c).sz n with
      | .ok (vm, sz, _) => some { k := s.k.set c fun q => { q with sz := sz }, vm := vm }
      | .error _ => none
    else none

/-- The processes that use `D` agree on its size, which is that of its user pages, and none of them can
make `mappages` panic. -/
structure SharedOk (s : Space) : Prop where
  sameSz : ∀ p q, s.Uses D p → s.Uses D q → (s.k.proc p).sz = (s.k.proc q).sz
  exact : ∀ p, s.Uses D p → ExactPages s.vm.dir (s.k.proc p).sz
  noRemap : ∀ p, s.Uses D p → ∀ n free, -2 ^ 31 ≤ n ∧ n < 2 ^ 31 → (∀ f ∈ free, Frame kend f) →
    { s.vm with free := free }.growproc kend (s.k.proc p).sz n ≠ .error .remap

/-- An `sbrk` that has no effect, or by the only user of `D` and not of all its memory. -/
def SbrkOk (s : Space) : Slot × SpAct → Prop
  | (c, .sbrk n free) => GrowIdle { s.vm with free := free } (s.k.proc c).sz n ∨
      (∀ q, q ≠ c → ¬ s.Uses D q) ∧ (s.k.proc c).sz + n ≠ 0
  | (_, .call _) => True

structure SpaceInv (s : Space) : Prop where
  sameSz : ∀ p q, s.Uses D p → s.Uses D q → (s.k.proc p).sz = (s.k.proc q).sz
  space : ∀ p, s.Uses D p → UserSpace kend s.vm.dir (s.k.proc p).sz

end

section
variable {kend D : Nat}

theorem growproc_returns (vm : Vm) {sz : Nat} {n : Int} (hk : 0 < kend) (h : UserSpace kend vm.dir sz)
    (hfree : ∀ p ∈ vm.free, Frame kend p) (hn : -2 ^ 31 ≤ n ∧ n < 2 ^ 31) : ∃ r, vm.growproc kend sz n = .ok r := by
  by_cases hidle : GrowIdle vm sz n
  · obtain ⟨vm', ret, hr, -⟩ := growproc_idle hk h.below hfree hn hidle
    exact ⟨_, hr⟩
  unfold GrowIdle at hidle
  by_cases hneg : n < 0
  · obtain ⟨vm', hr, -⟩ := growproc_shrinks hk h.below hneg (by omega)
    exact ⟨_, hr⟩
  · obtain ⟨vm', hr, -⟩ := growproc_grows hk h.below hfree (by omega : 0 < n) (by omega) (by omega)
    exact ⟨_, hr⟩

theorem SpaceInv.sharedOk {s : Space} (hk : 0 < kend) (h : SpaceInv kend D s) : SharedOk kend D s := by
  refine ⟨h.sameSz, fun p hp => (h.space p hp).exact, fun p hp n free hn hfree herr => ?_⟩
  obtain ⟨r, hr⟩ := growproc_returns { s.vm with free := free } hk (h.space p hp) hfree hn
  rw [hr] at herr
  cases herr

theorem did_rep {k : Kernel} {c : Slot} {a : Act} {r : Result} (hd : k.Did c a r) (ha : a.keepsDirs = true) {q : Slot}
    (hq : (r.k.proc q).state ≠ UNUSED) :
    ∃ q', (k.proc q').state ≠ UNUSED ∧ (r.k.proc q).pgdir = (k.proc q').pgdir ∧ (r.k.proc q).sz = (k.proc q').sz := by
  rcases hd.used_cases hq with h | ⟨d, h, ⟨kstack, rfl⟩ | ⟨hc, rfl⟩⟩ | ⟨-, d, sz, _, _, _, rfl, -⟩
  · exact ⟨q, h.used, h.pgdir, h.sz⟩
  · cases ha
  · exact ⟨c, by rw [hc]; nofun, h.pgdir, h.sz⟩
  · cases ha

theorem SpaceInv.call {s : Space} {c : Slot} {a : Act} {r : Result} (h : SpaceInv kend D s) (ha : a.keepsDirs = true)
    (hd : s.k.Did c a r) : SpaceInv kend D { s with k := r.k } := by
  have hrep : ∀ q, Space.Uses D { s with k := r.k } q → ∃ q', s.Uses D q' ∧ (r.k.proc q).sz = (s.k.proc q').sz := by
    rintro q ⟨hq, hD⟩
    obtain ⟨q', hu, hdir, hsz⟩ := did_rep hd ha hq
    exact ⟨q', ⟨hu, hdir.symm.trans hD⟩, hsz⟩
  refine ⟨fun p q hp hq => ?_, fun p hp => ?_⟩
  · obtain ⟨p', hp', hpsz⟩ := hrep p hp
    obtain ⟨q', hq', hqsz⟩ := hrep q hq
    exact hpsz.trans ((h.sameSz p' q' hp' hq').trans hqsz.symm)
  · obtain ⟨p', hp', hpsz⟩ := hrep p hp
    show UserSpace kend s.vm.dir (r.k.proc p).sz
    rw [hpsz]
    exact h.space p' hp'

/-! ### `sbrk` -/

def Space.grown (s : Space) (c : Slot) (vm : Vm) (sz : Nat) : Space :=
  { k := s.k.set c fun q => { q with sz := sz }, vm := vm }

section
variable {s : Space} {c : Slot} {vm : Vm} {sz : Nat}

theorem grown_uses (p : Slot) : (s.grown c vm sz).Uses D p ↔ s.Uses D p := by
  unfold Space.Uses Space.grown
  by_cases h : p = c
  · subst h; simp
  · simp [h]

theorem grown_sz_self : ((s.grown c vm sz).k.proc c).sz = sz := by simp [Space.grown]

theorem grown_sz_of_ne {p : Slot} (h : p ≠ c) : ((s.grown c vm sz).k.proc p).sz = (s.k.proc p).sz := by
  simp [Space.grown, h]

theorem SpaceInv.grown_same (h : SpaceInv kend D s) (hs : SamePages s.vm.dir vm.dir) :
    SpaceInv kend D (s.grown c vm (s.k.proc c).sz) := by
  have hsz : ∀ p, ((s.grown c vm (s.k.proc c).sz).k.proc p).sz = (s.k.proc p).sz := by
    intro p
    by_cases hp : p = c
    · subst hp; exact grown_sz_self
    · exact grown_sz_of_ne hp
  refine ⟨fun p q hp hq => ?_, fun p hp => ?_⟩
  · rw [hsz, hsz]
    exact h.sameSz p q ((grown_uses p).1 hp) ((grown_uses q).1 hq)
  · rw [hsz]
    exact (h.space p ((grown_uses p).1 hp)).samePages hs

theorem SpaceInv.grown_alone (halone : ∀ q, q ≠ c → ¬ s.Uses D q) (hsp : UserSpace kend vm.dir sz) :
    SpaceInv kend D (s.grown c vm sz) := by
  have hc : ∀ p, (s.grown c vm sz).Uses D p → p = c := by
    intro p hp
    by_contra hne
    exact halone p hne ((grown_uses p).1 hp)
  refine ⟨fun p q hp hq => ?_, fun p hp => ?_⟩
  · rw [hc p hp, hc q hq]
  · rw [hc p hp, grown_sz_self]
    exact hsp

theorem not_sharedOk_of_sz {q : Slot} (hc : s.Uses D c) (hq : s.Uses D q) (hne : q ≠ c) (hsz : sz ≠ (s.k.proc q).sz) :
    ¬ SharedOk kend D (s.grown c vm sz) := by
  intro h
  have := h.sameSz c q ((grown_uses c).2 hc) ((grown_uses q).2 hq)
  rw [grown_sz_self, grown_sz_of_ne hne] at this
  exact hsz this

theorem not_sharedOk_of_emptied (hc : s.Uses D c) (hpos : 0 < sz) (hlt : sz < KERNBASE) (hd : ExactPages vm.dir 0) :
    ¬ SharedOk kend D (s.grown c vm sz) := by
  intro h
  have hex := h.exact c ((grown_uses c).2 hc)
  rw [grown_sz_self] at hex
  have h0 : PGROUNDUP 0 = 0 := by decide
  have hp := (hex 0 (by decide)).2 (by rw [PGROUNDUP_of_lt hlt]; omega)
  have := (hd 0 (by decide)).1 hp
  omega

theorem SpaceInv.grown_iff (h : SpaceInv kend D s) (hc : s.Uses D c) (hsp : UserSpace kend vm.dir sz)
    (hne : sz ≠ (s.k.proc c).sz) :
    ((∀ q, q ≠ c → ¬ s.Uses D q) → SpaceInv kend D (s.grown c vm sz)) ∧
      (¬ (∀ q, q ≠ c → ¬ s.Uses D q) → ¬ SharedOk kend D (s.grown c vm sz)) := by
  refine ⟨fun halone => .grown_alone halone hsp, fun hshared => ?_⟩
  push Not at hshared
  obtain ⟨q, hqc, hq⟩ := hshared
  exact not_sharedOk_of_sz hc hq hqc (by rw [h.sameSz q c hq hc]; exact hne)

theorem SpaceInv.sbrk {n : Int} {free : List Nat} {ret : Int} (hk : 0 < kend) (h : SpaceInv kend D s) (hc : s.Uses D c)
    (hn : -2 ^ 31 ≤ n ∧ n < 2 ^ 31) (hfree : ∀ p ∈ free, Frame kend p)
    (hg : { s.vm with free := free }.growproc kend (s.k.proc c).sz n = .ok (vm, sz, ret)) :
    (SbrkOk D s (c, .sbrk n free) → SpaceInv kend D (s.grown c vm sz)) ∧
      (¬ SbrkOk D s (c, .sbrk n free) → ¬ SharedOk kend D (s.grown c vm sz)) := by
  have hsp := h.space c hc
  have hsp' : UserSpace kend { s.vm with free := free }.dir (s.k.proc c).sz := hsp
  have hlt := hsp.lt
  by_cases hidle : GrowIdle { s.vm with free := free } (s.k.proc c).sz n
  · obtain ⟨vm', ret', hr, hsame⟩ := growproc_idle hk hsp'.below hfree hn hidle
    cases hr.symm.trans hg
    exact ⟨fun _ => h.grown_same hsame, fun hno => absurd (.inl hidle) hno⟩
  have hok : SbrkOk D s (c, .sbrk n free) ↔ (∀ q, q ≠ c → ¬ s.Uses D q) ∧ (s.k.proc c).sz + n ≠ 0 := by
    simp only [SbrkOk, hidle, false_or]
  rw [hok]
  unfold GrowIdle at hidle
  by_cases hneg : n < 0
  · obtain ⟨vm', hr, he⟩ := growproc_shrinks hk hsp'.below hneg (by omega)
    have hsp₁ := hsp'.emptied (by omega) he
    by_cases h0 : ((s.k.proc c).sz : Int) + n = 0
    · rw [if_pos h0] at hr
      cases hr.symm.trans hg
      refine ⟨fun hok => absurd h0 hok.2, fun _ => not_sharedOk_of_emptied hc (by omega) hlt ?_⟩
      have hz : ((s.k.proc c).sz + n).toNat = 0 := by omega
      rw [hz] at hsp₁
      exact hsp₁.exact
    · rw [if_neg h0] at hr
      cases hr.symm.trans hg
      obtain ⟨hyes, hno⟩ := h.grown_iff hc hsp₁ (by omega)
      exact ⟨fun hok => hyes hok.1, fun hnok => hno fun halone => hnok ⟨halone, h0⟩⟩
  · obtain ⟨vm', hr, hf⟩ := growproc_grows hk hsp'.below hfree (by omega : 0 < n) (by omega) (by omega)
    cases hr.symm.trans hg
    obtain ⟨hyes, hno⟩ := h.grown_iff hc (hsp'.filled (by omega) (by omega) hf) (by omega)
    exact ⟨fun hok => hyes hok.1, fun hnok => hno fun halone => hnok ⟨halone, by omega⟩⟩

end

/-- One step: `SbrkOk` keeps the invariant, and any other `sbrk` breaks the claim. -/
theorem SpaceInv.next {s s' : Space} {a : Slot × SpAct} (hk : 0 < kend) (h : SpaceInv kend D s)
    (hn : s.next kend D a = some s') :
    (SbrkOk D s a → SpaceInv kend D s') ∧ (¬ SbrkOk D s a → ¬ SharedOk kend D s') := by
  obtain ⟨c, a | ⟨n, free⟩⟩ := a
  · simp only [Space.next] at hn
    split at hn
    · next ha =>
      obtain ⟨k', hk', rfl⟩ := Option.map_eq_some_iff.1 hn
      obtain ⟨r, hd, rfl⟩ := next_did hk'
      exact ⟨fun _ => h.call ha hd, fun hno => absurd trivial hno⟩
    · cases hn
  · simp only [Space.next] at hn
    split at hn
    · next hg =>
      obtain ⟨hrun, hD, hrange, hfree⟩ := hg
      split at hn
      · next vm sz ret hgrow =>
        cases hn
        exact h.sbrk hk ⟨by rw [hrun]; nofun, hD⟩ hrange hfree hgrow
      · cases hn
    · cases hn

end

/-- A process starts alone in its directory `D` with its pages those below its size. Along every run of it
and its threads, the claim holds after each step exactly when each `sbrk` is `SbrkOk`. -/
theorem sharedOk_along {kend D : Nat} {s₀ s : Space} {c₀ : Slot} {l : List (Slot × SpAct)} (hk : 0 < kend)
    (halone : ∀ q, q ≠ c₀ → ¬ s₀.Uses D q)
    (hsp : UserSpace kend s₀.vm.dir (s₀.k.proc c₀).sz) (hrun : run (Space.next kend D) s₀ l = some s) :
    (Along (Space.next kend D) (SbrkOk D) s₀ l ↔
      Along (Space.next kend D) (fun s a => ∀ s', s.next kend D a = some s' → SharedOk kend D s') s₀ l) ∧
    (Along (Space.next kend D) (SbrkOk D) s₀ l → SharedOk kend D s) := by
  have hinit : SpaceInv kend D s₀ := by
    have hc : ∀ p, s₀.Uses D p → p = c₀ := by
      intro p hp
      by_contra hne
      exact halone p hne hp
    refine ⟨fun p q hp hq => by rw [hc p hp, hc q hq], fun p hp => ?_⟩
    rw [hc p hp]
    exact hsp
  have hstep : ∀ s a s', SpaceInv kend D s → SbrkOk D s a → s.next kend D a = some s' → SpaceInv kend D s' :=
    fun s a s' h hok hn => (h.next hk hn).1 hok
  refine ⟨along_congr hstep (fun s a s' h hn => ?_) hinit hrun, fun hl => ?_⟩
  · constructor
    · intro hok t ht
      cases hn.symm.trans ht
      exact ((h.next hk hn).1 hok).sharedOk hk
    · intro hpost
      by_contra hno
      exact (h.next hk hn).2 hno (hpost s' hn)
  · exact (Along.inv hstep hinit hl hrun).sharedOk hk

def oneProcess : Space where
  k := { boot.set 0 fun q => { q with state := RUNNING, pid := 1, sz := 4096, pgdir := 2 } with nextpid := 2 }
  vm := { dir := onePage, free := [], mem := fun _ _ => 0 }

theorem oneProcess_alone (q : Slot) (hq : q ≠ 0) : ¬ oneProcess.Uses 2 q := by
  rintro ⟨hu, -⟩
  simp [oneProcess, hq, boot] at hu

theorem userSpace_onePage : UserSpace 0x100000 onePage 4096 := by
  refine ⟨by decide, exactPages_onePage, fun va hva hp => ?_⟩
  have hlt := (exactPages_onePage va hva).1 hp
  rw [show PGROUNDUP 4096 = 4096 by decide] at hlt
  rw [PgDir.pte_congr (show va / PGSIZE = 0 / PGSIZE by unfold PGSIZE; omega)]
  exact by decide

theorem sharedOk_along_grow : ∃ s, run (Space.next 0x100000 2) oneProcess [(0, .sbrk 4096 [0x500000])] = some s ∧
    SharedOk 0x100000 2 s := by
  obtain ⟨s, hs⟩ : ∃ s, run (Space.next 0x100000 2) oneProcess [(0, .sbrk 4096 [0x500000])] = some s :=
    Option.isSome_iff_exists.1 (by decide +kernel)
  refine ⟨s, hs, (sharedOk_along (by decide) oneProcess_alone userSpace_onePage hs).2 ⟨.inr ⟨oneProcess_alone, ?_⟩, ?_⟩⟩
  · decide
  · exact fun _ _ => trivial

/-- A thread grows the shared directory; the first process, whose size is the old one, then panics in
`mappages` when it grows by a page. -/
theorem not_sharedOk_clone : ∃ s, run (Space.next 0x100000 2) oneProcess
      [(0, .call (.clone 5 0 0)), (1, .call .sched), (1, .sbrk 4096 [0x500000])] = some s ∧
    (s.k.proc 0).sz = 4096 ∧ (s.k.proc 1).sz = 8192 ∧ ¬ SharedOk 0x100000 2 s := by
  have hrun : (run (Space.next 0x100000 2) oneProcess
      [(0, .call (.clone 5 0 0)), (1, .call .sched), (1, .sbrk 4096 [0x500000])]).map (fun s =>
        ((s.k.proc 0).sz, (s.k.proc 1).sz, (s.k.proc 0).state, (s.k.proc 0).pgdir,
          ({ s.vm with free := [0x501000] }.growproc 0x100000 (s.k.proc 0).sz 4096) matches .error .remap)) =
      some (4096, 8192, RUNNING, 2, true) := by
    decide +kernel
  obtain ⟨s, hs, he⟩ := Option.map_eq_some_iff.1 hrun
  simp only [Prod.mk.injEq] at he
  obtain ⟨h0, h1, hstate, hdir, hpanic⟩ := he
  refine ⟨s, hs, h0, h1, fun h => ?_⟩
  refine h.noRemap 0 ⟨by rw [hstate]; nofun, hdir⟩ 4096 [0x501000] (by decide) (by decide) ?_
  revert hpanic
  cases { s.vm with free := [0x501000] }.growproc 0x100000 (s.k.proc 0).sz 4096 with
  | ok r => simp
  | error e => cases e <;> simp

end Ostep.Xv6
