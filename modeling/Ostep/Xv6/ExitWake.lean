import Ostep.Xv6.Sections

/-!
# Exit notifications

`NoneMissed` says that a process that sleeps in `wait` or `join` has no exited child. The other facts of `TableInv` are needed for
`exit`: it wakes the parent of the caller before the caller becomes a ZOMBIE, and init when it inherits a ZOMBIE.
-/

namespace Ostep.Xv6

open ProcState Kernel

/-- SLEEPING in `wait` or `join`. -/
def Waits (k : Kernel) (p : Slot) : Prop := (k.proc p).state = SLEEPING ∧ (k.proc p).chan = .proc p

/-- No process sleeps in `wait` or `join` while it has an exited child. -/
def NoneMissed (k : Kernel) : Prop := ∀ p, Waits k p → ∀ q, (k.proc q).parent = some p → (k.proc q).state ≠ ZOMBIE

def Alive (q : Proc) : Prop := q.state = SLEEPING ∨ q.state = RUNNABLE ∨ q.state = RUNNING

structure TableInv (k : Kernel) : Prop where
  noneMissed : NoneMissed k
  parent : ∀ q, (k.proc q).parent ≠ some q
  init : Alive (k.proc k.initproc) ∧ (k.proc k.initproc).parent = none

variable {k k' : Kernel} {c p : Slot}

theorem Alive.of_woken {q q' : Proc} (h : Alive q) (hs : Woken q.state q'.state) : Alive q' := by
  rcases hs with hs | ⟨-, hs⟩
  · unfold Alive
    rw [hs]
    exact h
  · exact .inr (.inl hs)

/-- What a change of slot `p` must not do. -/
structure Harmless (k k' : Kernel) (p : Slot) : Prop where
  initproc : k'.initproc = k.initproc
  others : ∀ q, q ≠ p → k'.proc q = k.proc q
  zombie : (k'.proc p).state = ZOMBIE → (k.proc p).state = ZOMBIE ∧ (k'.proc p).parent = (k.proc p).parent
  waits : Waits k' p → Waits k p ∨ ∀ q, (k.proc q).parent = some p → (k.proc q).state ≠ ZOMBIE
  parent : (k'.proc p).parent ≠ some p
  init : p = k.initproc → Alive (k'.proc p) ∧ (k'.proc p).parent = none

theorem TableInv.harmless (h : TableInv k) (hp : Harmless k k' p) : TableInv k' := by
  have hwaits : ∀ q, q ≠ p → (Waits k' q ↔ Waits k q) := by
    intro q hq
    unfold Waits
    rw [hp.others q hq]
  have hzombie : ∀ q r, (k'.proc q).state = ZOMBIE → (k'.proc q).parent = some r → (k.proc q).state = ZOMBIE ∧ (k.proc q).parent = some r := by
    intro q r hz hr
    by_cases hq : q = p
    · subst hq
      obtain ⟨hz', hpar⟩ := hp.zombie hz
      exact ⟨hz', hpar ▸ hr⟩
    · rw [hp.others q hq] at hz hr
      exact ⟨hz, hr⟩
  refine ⟨fun r hr q hq hz => ?_, fun q => ?_, ?_⟩
  · obtain ⟨hz', hq'⟩ := hzombie q r hz hq
    by_cases hrp : r = p
    · subst hrp
      rcases hp.waits hr with hw | hnone
      · exact h.noneMissed r hw q hq' hz'
      · exact hnone q hq' hz'
    · exact h.noneMissed r ((hwaits r hrp).1 hr) q hq' hz'
  · by_cases hq : q = p
    · rw [hq]
      exact hp.parent
    · rw [hp.others q hq]
      exact h.parent q
  · rw [hp.initproc]
    by_cases hi : k.initproc = p
    · rw [hi]
      exact hp.init hi.symm
    · rw [hp.others _ hi]
      exact h.init

theorem harmless_of (h : TableInv k) (hi : k'.initproc = k.initproc) (ho : ∀ q, q ≠ p → k'.proc q = k.proc q)
    (hpar : (k'.proc p).parent = (k.proc p).parent) (hz : (k'.proc p).state = ZOMBIE → (k.proc p).state = ZOMBIE)
    (hw : Waits k' p → Waits k p) (ha : p = k.initproc → Alive (k'.proc p)) : Harmless k k' p where
  initproc := hi
  others := ho
  zombie := fun hz' => ⟨hz hz', hpar⟩
  waits := fun hw' => .inl (hw hw')
  parent := by
    rw [hpar]
    exact h.parent p
  init := fun hp => ⟨ha hp, by rw [hpar, hp]; exact h.init.2⟩

theorem state_wakeup1 (chan : Chan) (q : Slot) :
    ((k.wakeup1 chan).proc q).state = SLEEPING ↔ (k.proc q).state = SLEEPING ∧ (k.proc q).chan ≠ chan := by
  unfold wakeup1
  dsimp only
  split
  · next hq => exact iff_of_false nofun fun h => h.2 hq.2
  · next hq => exact ⟨fun h => ⟨h, fun hc => hq ⟨h, hc⟩⟩, And.left⟩

theorem waits_wakeup1 {chan : Chan} {q : Slot} (h : Waits (k.wakeup1 chan) q) : Waits k q ∧ chan ≠ .proc q := by
  obtain ⟨s, -, hq⟩ := k.wakeup1_proc chan q
  obtain ⟨hs, hc⟩ := (state_wakeup1 chan q).1 h.1
  have hchan : (k.proc q).chan = .proc q := by
    have := h.2
    rw [hq] at this
    exact this
  exact ⟨⟨hs, hchan⟩, fun heq => hc (by rw [hchan, heq])⟩

theorem TableInv.wakeup1 (h : TableInv k) (chan : Chan) : TableInv (k.wakeup1 chan) := by
  have hproc := k.wakeup1_proc chan
  refine ⟨fun r hr q hq hz => ?_, fun q => ?_, ?_⟩
  · obtain ⟨s, hs, hk⟩ := hproc q
    rw [hk] at hq hz
    exact h.noneMissed r (waits_wakeup1 hr).1 q hq (hs.zombie_iff.1 hz)
  · obtain ⟨s, -, hk⟩ := hproc q
    rw [hk]
    exact h.parent q
  · obtain ⟨s, hs, hk⟩ := hproc k.initproc
    show Alive ((k.wakeup1 chan).proc k.initproc) ∧ ((k.wakeup1 chan).proc k.initproc).parent = none
    rw [hk]
    exact ⟨h.init.1.of_woken hs, h.init.2⟩

/-- Who still sleeps in `wait` after an `exit` did so before, is not the parent of the caller, and if it is init it has inherited no
ZOMBIE. -/
theorem waits_exit {r : Result} (h : k.exit c = some r) {q : Slot} (hq : Waits r.k q) :
    Waits k q ∧ (k.proc c).parent ≠ some q ∧ (q = k.initproc → ∀ p, (k.proc p).parent = some c → (k.proc p).state ≠ ZOMBIE) := by
  unfold Kernel.exit at h
  split at h
  · cases h
  extract_lets k₁ k₂ k₃ k₄ at h
  cases h
  have hqc : q ≠ c := by
    rintro rfl
    have := hq.1
    simp at this
  -- back through the assignments of `exit`
  have h₄ : Waits k₄ q := by
    unfold Waits at hq ⊢
    simpa [hqc] using hq
  have h₃ : Waits k₃ q ∧ (q = k.initproc → ∀ p, (k₂.proc p).parent = some c → (k₂.proc p).state ≠ ZOMBIE) := by
    by_cases hz : (List.finRange NPROC).any fun p => (k₂.proc p).parent = some c ∧ (k₂.proc p).state = ZOMBIE
    · rw [show k₄ = k₃.wakeup1 (.proc k.initproc) from if_pos hz] at h₄
      obtain ⟨hw, hne⟩ := waits_wakeup1 h₄
      exact ⟨hw, fun hi => absurd (congrArg Chan.proc hi.symm) hne⟩
    · rw [show k₄ = k₃ from if_neg hz] at h₄
      refine ⟨h₄, fun _ p hp hzp => hz ?_⟩
      rw [List.any_eq_true]
      exact ⟨p, List.mem_finRange p, by simp [hp, hzp]⟩
  have h₂ : Waits k₂ q := by
    have h₃ := h₃.1
    unfold Waits at h₃ ⊢
    by_cases hp : (k₂.proc q).parent = some c
    · simpa [k₃, hp] using h₃
    · simpa [k₃, hp] using h₃
  obtain ⟨h₁, hne⟩ := waits_wakeup1 h₂
  have h₀ : Waits k q := by
    unfold Waits at h₁ ⊢
    simpa [k₁, hqc] using h₁
  refine ⟨h₀, fun hpar => hne (by rw [hpar]; rfl), fun hi p hp hz => ?_⟩
  obtain ⟨s, hs, hk⟩ := k₁.wakeup1_proc (.ofPtr (k.proc c).parent) p
  have hproc : (k₁.proc p).parent = (k.proc p).parent ∧ (k₁.proc p).state = (k.proc p).state := by
    by_cases hpc : p = c
    · simp [k₁, hpc]
    · simp [k₁, hpc]
  refine h₃.2 hi p ?_ ?_
  · show ((k₁.wakeup1 _).proc p).parent = some c
    rw [hk]
    exact hproc.1.trans hp
  · show ((k₁.wakeup1 _).proc p).state = ZOMBIE
    rw [hk]
    exact hs.zombie_iff.2 (hproc.2.trans hz)

theorem TableInv.exit (h : TableInv k) (hc : (k.proc c).state = RUNNING) {r : Result} (hr : k.exit c = some r) : TableInv r.k := by
  have hne : c ≠ k.initproc := by
    rintro rfl
    simp [Kernel.exit] at hr
  have hinit : r.k.initproc = k.initproc := by
    have hd := did_exit hc hr
    cases hd with
    | idle hidle _ => exact hidle.elim
    | exited he => exact he.initproc
  have hproc := exit_proc hr
  refine ⟨fun p hp q hq hz => ?_, fun q => ?_, ?_⟩
  · obtain ⟨hw, hparent, hinherit⟩ := waits_exit hr hp
    obtain ⟨s, hs, hk⟩ := hproc q
    rw [hk] at hq hz
    dsimp only at hq hz
    by_cases hqc : q = c
    · -- the new ZOMBIE: its parent has been woken
      subst hqc
      rw [if_neg (h.parent q)] at hq
      exact hparent hq
    · rw [if_neg hqc] at hz
      have hz' := hs.zombie_iff.1 hz
      by_cases hpar : (k.proc q).parent = some c
      · rw [if_pos hpar] at hq
        exact hinherit (Option.some.inj hq).symm q hpar hz'
      · rw [if_neg hpar] at hq
        exact h.noneMissed p hw q hq hz'
  · obtain ⟨s, -, hk⟩ := hproc q
    rw [hk]
    dsimp only
    by_cases hpar : (k.proc q).parent = some c
    · rw [if_pos hpar]
      intro hq
      have hqi := Option.some.inj hq
      rw [← hqi, h.init.2] at hpar
      cases hpar
    · rw [if_neg hpar]
      exact h.parent q
  · obtain ⟨s, hs, hk⟩ := hproc k.initproc
    rw [hinit, hk]
    dsimp only
    have hpar : (k.proc k.initproc).parent ≠ some c := by
      rw [h.init.2]
      nofun
    refine ⟨h.init.1.of_woken ?_, ?_⟩
    · dsimp only
      rw [if_neg (Ne.symm hne)]
      exact hs
    · rw [if_neg hpar]
      exact h.init.2

/-! ### The other calls -/

def EmbryosStay (k k' : Kernel) : Prop := ∀ q, (k.proc q).state = EMBRYO → (k'.proc q).state = EMBRYO

theorem embryosStay_of (ho : ∀ q, q ≠ p → k'.proc q = k.proc q) (hp : (k.proc p).state = EMBRYO → (k'.proc p).state = EMBRYO) :
    EmbryosStay k k' := by
  intro q hq
  by_cases hqp : q = p
  · rw [hqp] at hq ⊢
    exact hp hq
  · rw [ho q hqp]
    exact hq

theorem embryosStay_wakeup1 (chan : Chan) : EmbryosStay k (k.wakeup1 chan) := by
  intro q hq
  unfold wakeup1
  dsimp only
  rw [if_neg (by rw [hq]; nofun)]
  exact hq

theorem TableInv.own (h : TableInv k) (hc : (k.proc c).state = RUNNING) (hi : k'.initproc = k.initproc)
    (ho : ∀ q, q ≠ c → k'.proc q = k.proc q) (hpar : (k'.proc c).parent = (k.proc c).parent) (ha : Alive (k'.proc c))
    (hw : Waits k' c → ∀ q, (k.proc q).parent = some c → (k.proc q).state ≠ ZOMBIE) : TableInv k' ∧ EmbryosStay k k' := by
  refine ⟨h.harmless (p := c) ⟨hi, ho, fun hz => ?_, fun hw' => .inr (hw hw'), ?_, fun hinit => ⟨ha, ?_⟩⟩, embryosStay_of ho fun he => ?_⟩
  · rcases ha with ha | ha | ha
    all_goals
      rw [ha] at hz
      cases hz
  · rw [hpar]
    exact h.parent c
  · rw [hpar, hinit]
    exact h.init.2
  · rw [hc] at he
    cases he

theorem TableInv.reap (h : TableInv k) (hz : (k.proc p).state = ZOMBIE) (hi : k'.initproc = k.initproc)
    (ho : ∀ q, q ≠ p → k'.proc q = k.proc q) (hu : (k'.proc p).state = UNUSED)
    (hpar : (k'.proc p).parent = none ∨ (k'.proc p).parent = (k.proc p).parent) : TableInv k' ∧ EmbryosStay k k' := by
  refine ⟨h.harmless (p := p) ⟨hi, ho, fun hz' => ?_, fun hw => ?_, ?_, fun hinit => ?_⟩, embryosStay_of ho fun he => ?_⟩
  · rw [hu] at hz'
    cases hz'
  · rw [Waits, hu] at hw
    cases hw.1
  · rcases hpar with hpar | hpar
    · rw [hpar]
      nofun
    · rw [hpar]
      exact h.parent p
  · have := h.init.1
    rw [← hinit, Alive, hz] at this
    simp at this
  · rw [hz] at he
    cases he

theorem TableInv.sleep (h : TableInv k) (hc : (k.proc c).state = RUNNING) {chan : Chan}
    (hw : chan = .proc c → ∀ q, (k.proc q).parent = some c → (k.proc q).state ≠ ZOMBIE) :
    TableInv (k.sleep c chan) ∧ EmbryosStay k (k.sleep c chan) := by
  refine h.own (c := c) hc rfl (fun q hq => ?_) ?_ (.inl ?_) fun hwaits => hw ?_
  · simp [Kernel.sleep, hq]
  · simp [Kernel.sleep]
  · simp [Kernel.sleep]
  · have := hwaits.2
    simpa [Kernel.sleep] using this

theorem TableInv.wait (h : TableInv k) (hc : (k.proc c).state = RUNNING) : TableInv (k.wait c).k ∧ EmbryosStay k (k.wait c).k := by
  unfold Kernel.wait
  cases hf : k.waitFinds c with
  | some p =>
    have hp : (k.proc p).parent = some c ∧ (k.proc p).state = ZOMBIE := by simpa using findSlot_some hf
    refine h.reap (p := p) hp.2 rfl (fun q hq => ?_) ?_ (.inl ?_)
    · simp [hq]
    · simp
    · simp
  | none =>
    dsimp only
    split
    · exact ⟨h, fun _ hq => hq⟩
    · refine h.sleep hc fun _ q hq hz => ?_
      have := findSlot_none hf q
      simp [hq, hz] at this

theorem TableInv.join (h : TableInv k) (hc : (k.proc c).state = RUNNING) {word4 : Nat} :
    TableInv (k.join c word4).k ∧ EmbryosStay k (k.join c word4).k := by
  unfold Kernel.join
  cases hf : findSlot fun p => k.joinTakes c word4 p ∧ (k.proc p).state = ZOMBIE with
  | some p =>
    have hp : k.joinTakes c word4 p ∧ (k.proc p).state = ZOMBIE := by simpa using findSlot_some hf
    refine h.reap (p := p) hp.2 rfl (fun q hq => ?_) ?_ (.inr ?_)
    · simp [hq]
    · simp
    · simp
  | none =>
    -- the scan skips no child of the caller
    refine h.sleep hc fun _ q hq hz => ?_
    have := findSlot_none hf q
    simp [joinTakes, hq, hz] at this

theorem TableInv.kill (h : TableInv k) {pid : Int} : TableInv (k.kill pid).k ∧ EmbryosStay k (k.kill pid).k := by
  unfold Kernel.kill
  cases hf : findSlot fun p => (k.proc p).pid = pid with
  | none => exact ⟨h, fun _ hq => hq⟩
  | some p =>
    dsimp only
    have hproc : ∀ k' : Kernel, k' = (k.set p fun q => { q with killed := 1, state := if q.state = SLEEPING then RUNNABLE else q.state }) →
        Woken (k.proc p).state (k'.proc p).state := by
      rintro k' rfl
      by_cases hs : (k.proc p).state = SLEEPING
      · exact .inr ⟨hs, by simp [hs]⟩
      · exact .inl (by simp [hs])
    refine ⟨h.harmless (p := p) (harmless_of h rfl (fun q hq => ?_) ?_ (hproc _ rfl).zombie_iff.1 (fun hw => ?_) fun hi => ?_),
      embryosStay_of (p := p) (fun q hq => ?_) fun he => ?_⟩
    · simp [hq]
    · simp
    · have := hw.1
      by_cases hs : (k.proc p).state = SLEEPING
      · simp [hs] at this
      · simp [hs] at this
    · refine Alive.of_woken ?_ (hproc _ rfl)
      rw [hi]
      exact h.init.1
    · simp [hq]
    · simp [he]

theorem TableInv.call (h : TableInv k) {a : Act} (hf : ∀ kstack copy, a ≠ .fork kstack copy) (hcl : ∀ kstack fcn stack, a ≠ .clone kstack fcn stack)
    (hs : next k (c, a) = some k') : TableInv k' ∧ EmbryosStay k k' := by
  obtain ⟨r, hr, rfl⟩ := Option.map_eq_some_iff.1 hs
  unfold step at hr
  split at hr
  swap
  · cases hr
  next he =>
  cases a with
  | fork kstack copy => exact absurd rfl (hf kstack copy)
  | clone kstack fcn stack => exact absurd rfl (hcl kstack fcn stack)
  | exit =>
    have hc : (k.proc c).state = RUNNING := by simpa [enabled] using he
    refine ⟨h.exit hc hr, fun q hq => ?_⟩
    obtain ⟨s, hw, hk⟩ := exit_proc hr q
    have hqc : q ≠ c := by
      rintro rfl
      rw [hc] at hq
      cases hq
    rw [hk]
    dsimp only
    rw [if_neg hqc]
    rcases hw with rfl | ⟨hw, -⟩
    · exact hq
    · rw [hq] at hw
      cases hw
  | wait =>
    cases hr
    exact h.wait (by simpa [enabled] using he)
  | join word4 =>
    cases hr
    exact h.join (by simpa [enabled] using he)
  | kill pid =>
    cases hr
    exact h.kill
  | exec dir sz entry sp name =>
    have hc : (k.proc c).state = RUNNING := by
      simp only [enabled, Bool.decide_and, Bool.and_eq_true, decide_eq_true_eq] at he
      exact he.1
    cases hr
    rcases dir with _ | d | d
    · exact ⟨h, fun _ hq => hq⟩
    · exact ⟨⟨h.noneMissed, h.parent, h.init⟩, fun _ hq => hq⟩
    · refine h.own (c := c) hc rfl (fun q hq => ?_) ?_ (.inr (.inr ?_)) fun hw => ?_
      · simp [Kernel.exec, hq]
      · simp [Kernel.exec]
      · simp [Kernel.exec, hc]
      · have := hw.1
        simp [Kernel.exec, hc] at this
  | settickets n =>
    have hc : (k.proc c).state = RUNNING := by simpa [enabled] using he
    rw [act] at hr
    split at hr
    · cases hr
      exact ⟨h, fun _ hq => hq⟩
    · cases hr
      refine h.own (c := c) hc rfl (fun q hq => ?_) ?_ (.inr (.inr ?_)) fun hw => ?_
      · simp [hq]
      · simp
      · simp [hc]
      · have := hw.1
        simp [hc] at this
  | sleep chan =>
    cases hr
    exact h.sleep (by simpa [enabled] using he) (by rintro ⟨⟩)
  | wakeup chan =>
    cases hr
    exact ⟨h.wakeup1 _, embryosStay_wakeup1 _⟩
  | yield =>
    have hc : (k.proc c).state = RUNNING := by simpa [enabled] using he
    cases hr
    refine h.own (c := c) hc rfl (fun q hq => ?_) ?_ (.inr (.inl ?_)) fun hw => ?_
    · simp [hq]
    · simp
    · simp
    · have := hw.1
      simp at this
  | sched =>
    have hc : (k.proc c).state = RUNNABLE := by
      simp only [enabled, Bool.decide_and, Bool.and_eq_true, decide_eq_true_eq] at he
      exact he.1
    cases hr
    refine ⟨h.harmless (p := c) (harmless_of h rfl (fun q hq => ?_) ?_ (fun hz => ?_) (fun hw => ?_) fun _ => .inr (.inr ?_)),
      embryosStay_of (p := c) (fun q hq => ?_) fun he => ?_⟩
    · simp [hq]
    · simp
    · simp at hz
    · have := hw.1
      simp at this
    · simp
    · simp [hq]
    · rw [hc] at he
      cases he

/-! ### Runs -/

structure Table.Inv (s : Table) : Prop where
  table : TableInv s.k
  embryo : ∀ {c t}, s.taken c = some t → (s.k.proc t.slot).state = EMBRYO
  unique : ∀ {c c' t t'}, s.taken c = some t → s.taken c' = some t' → t.slot = t'.slot → c = c'

theorem TableInv.embryo (h : TableInv k) (hp : (k.proc p).state = EMBRYO) (hi : k'.initproc = k.initproc)
    (ho : ∀ q, q ≠ p → k'.proc q = k.proc q) (hz : (k'.proc p).state ≠ ZOMBIE ∧ (k'.proc p).state ≠ SLEEPING)
    (hpar : (k'.proc p).parent = (k.proc p).parent ∨ ∃ c, c ≠ p ∧ (k'.proc p).parent = some c) : TableInv k' := by
  refine h.harmless (p := p) ⟨hi, ho, fun hz' => absurd hz' hz.1, fun hw => absurd hw.1 hz.2, ?_, fun hinit => ?_⟩
  · rcases hpar with hpar | ⟨c, hc, hpar⟩
    · rw [hpar]
      exact h.parent p
    · rw [hpar]
      intro hcp
      exact hc (Option.some.inj hcp)
  · have := h.init.1
    rw [← hinit, Alive, hp] at this
    simp at this

namespace Table.Inv

variable {s s' : Table}

theorem alloc (h : s.Inv) (hp : (s.k.proc p).state = UNUSED) :
    Inv ⟨s.k.allocSection p, Function.update s.taken c (some ⟨p, false⟩)⟩ := by
  have ho : ∀ q, q ≠ p → (s.k.allocSection p).proc q = s.k.proc q := fun q hq => by simp [allocSection, hq]
  have hstate : ((s.k.allocSection p).proc p).state = EMBRYO := by simp [allocSection]
  have hne : ∀ {c t}, s.taken c = some t → t.slot ≠ p := by
    intro c t ht hslot
    have := h.embryo ht
    rw [hslot, hp] at this
    cases this
  refine ⟨h.table.harmless (p := p) (harmless_of h.table rfl ho ?_ ?_ ?_ ?_), fun {c' t} ht => ?_, fun {c₁ c₂ t₁ t₂} h₁ h₂ heq => ?_⟩
  · simp [allocSection]
  · rw [hstate]
    rintro ⟨⟩
  · rw [Waits, hstate]
    rintro ⟨⟨⟩, -⟩
  · intro hi
    have := h.table.init.1
    rw [← hi, Alive, hp] at this
    simp at this
  · dsimp only at ht ⊢
    by_cases hc : c' = c
    · rw [hc, Function.update_self] at ht
      cases ht
      exact hstate
    · rw [Function.update_of_ne hc] at ht
      rw [ho _ (hne ht)]
      exact h.embryo ht
  · dsimp only at h₁ h₂
    by_cases hc₁ : c₁ = c
    · by_cases hc₂ : c₂ = c
      · rw [hc₁, hc₂]
      · rw [hc₁, Function.update_self] at h₁
        rw [Function.update_of_ne hc₂] at h₂
        cases h₁
        exact absurd heq.symm (hne h₂)
    · rw [Function.update_of_ne hc₁] at h₁
      by_cases hc₂ : c₂ = c
      · rw [hc₂, Function.update_self] at h₂
        cases h₂
        exact absurd heq (hne h₁)
      · rw [Function.update_of_ne hc₂] at h₂
        exact h.unique h₁ h₂ heq

theorem goOn (h : s.Inv) {k' : Kernel} {b : Bool} (ht : s.taken c = some ⟨p, b⟩) (hi : k'.initproc = s.k.initproc)
    (ho : ∀ q, q ≠ p → k'.proc q = s.k.proc q) (hz : (k'.proc p).state ≠ ZOMBIE ∧ (k'.proc p).state ≠ SLEEPING)
    (hpar : (k'.proc p).parent = (s.k.proc p).parent ∨ ∃ c, c ≠ p ∧ (k'.proc p).parent = some c) {o : Option Taken}
    (hkeep : ∀ t, o = some t → t.slot = p ∧ (k'.proc p).state = EMBRYO) : Inv ⟨k', Function.update s.taken c o⟩ := by
  have hne : ∀ {c' t}, c' ≠ c → s.taken c' = some t → t.slot ≠ p := fun hc ht' hslot => hc (h.unique ht' ht hslot)
  refine ⟨h.table.embryo (h.embryo ht) hi ho hz hpar, fun {c' t} ht' => ?_, fun {c₁ c₂ t₁ t₂} h₁ h₂ heq => ?_⟩
  · dsimp only at ht' ⊢
    by_cases hc : c' = c
    · rw [hc, Function.update_self] at ht'
      obtain ⟨hslot, hstate⟩ := hkeep t ht'
      rw [hslot]
      exact hstate
    · rw [Function.update_of_ne hc] at ht'
      rw [ho _ (hne hc ht')]
      exact h.embryo ht'
  · dsimp only at h₁ h₂
    by_cases hc₁ : c₁ = c
    · by_cases hc₂ : c₂ = c
      · rw [hc₁, hc₂]
      · rw [hc₁, Function.update_self] at h₁
        rw [Function.update_of_ne hc₂] at h₂
        exact absurd (heq.symm.trans (hkeep t₁ h₁).1) (hne hc₂ h₂)
    · rw [Function.update_of_ne hc₁] at h₁
      by_cases hc₂ : c₂ = c
      · rw [hc₂, Function.update_self] at h₂
        exact absurd (heq.trans (hkeep t₂ h₂).1) (hne hc₁ h₁)
      · rw [Function.update_of_ne hc₂] at h₂
        exact h.unique h₁ h₂ heq

theorem step (h : s.Inv) {part : Part} (hs : partStep s (c, part) = some s') : s'.Inv := by
  cases part with
  | call a =>
    unfold partStep at hs
    dsimp only at hs
    split at hs
    swap
    · cases hs
    next hcan =>
    obtain ⟨k', hk', rfl⟩ := Option.map_eq_some_iff.1 hs
    obtain ⟨htable, hstay⟩ := h.table.call (fun _ _ ha => by simp [canCall, ha] at hcan) (fun _ _ _ ha => by simp [canCall, ha] at hcan) hk'
    exact ⟨htable, fun ht => hstay _ (h.embryo ht), h.unique⟩
  | alloc =>
    unfold partStep at hs
    dsimp only at hs
    split at hs
    swap
    · cases hs
    split at hs
    · cases hs
      exact h
    · next p hp =>
      cases hs
      exact h.alloc (by simpa using findSlot_some hp)
  | noStack =>
    unfold partStep at hs
    dsimp only at hs
    split at hs
    swap
    · cases hs
    next p ht =>
    split at hs
    swap
    · cases hs
    cases hs
    refine h.goOn ht ?_ (fun q hq => ?_) ⟨?_, ?_⟩ (.inl ?_) fun t hkeep => ?_
    · rfl
    · simp [hq]
    · simp
    · simp
    · simp
    · cases hkeep
  | noCopy =>
    unfold partStep at hs
    dsimp only at hs
    split at hs
    swap
    · cases hs
    next p ht =>
    split at hs
    swap
    · cases hs
    cases hs
    refine h.goOn ht ?_ (fun q hq => ?_) ⟨?_, ?_⟩ (.inl ?_) fun t hkeep => ?_
    · rfl
    · simp [hq]
    · simp
    · simp
    · simp
    · cases hkeep
  | fill kstack pgdir tf =>
    unfold partStep at hs
    dsimp only at hs
    split at hs
    swap
    · cases hs
    next p ht =>
    split at hs
    swap
    · cases hs
    next hc =>
    cases hs
    have hp : (s.k.proc p).state = EMBRYO := h.embryo ht
    have hcp : c ≠ p := by
      rintro rfl
      rw [hc] at hp
      cases hp
    refine h.goOn ht ?_ (fun q hq => ?_) ⟨?_, ?_⟩ (.inr ⟨c, hcp, ?_⟩) fun t hkeep => ?_
    · rfl
    · simp [Kernel.fill, hq]
    · simp [Kernel.fill, hp]
    · simp [Kernel.fill, hp]
    · simp [Kernel.fill]
    · cases hkeep
      exact ⟨rfl, by simp [Kernel.fill, hp]⟩
  | start =>
    unfold partStep at hs
    dsimp only at hs
    split at hs
    swap
    · cases hs
    next p ht =>
    split at hs
    swap
    · cases hs
    cases hs
    refine h.goOn ht ?_ (fun q hq => ?_) ⟨?_, ?_⟩ (.inl ?_) fun t hkeep => ?_
    · rfl
    · simp [Kernel.start, hq]
    · simp [Kernel.start]
    · simp [Kernel.start]
    · simp [Kernel.start]
    · cases hkeep

end Table.Inv

theorem Started.tableInv {d : Nat} (h : Started d k) : TableInv k := by
  have hparent : ∀ q, (k.proc q).parent = none := by
    intro q
    by_cases hq : q = 0
    · rw [hq, h.parent]
    · rw [h.others q hq]
  refine ⟨fun p hp => ?_, fun q => ?_, ?_⟩
  · intro q hq
    rw [hparent q] at hq
    cases hq
  · rw [hparent q]
    nofun
  · rw [h.initproc]
    exact ⟨.inr (.inl h.state), h.parent⟩

/-- No exit notification is lost: in every state reached from the first process, whoever sleeps in `wait` or `join` has no exited
child. -/
theorem noneMissed_run {kstack d : Nat} {k₀ : Kernel} {l : List (Slot × Part)} {t : Table} (h₀ : userinit kstack d = some k₀)
    (hrun : run partStep ⟨k₀, fun _ => none⟩ l = some t) : NoneMissed t.k := by
  have hinit : Table.Inv ⟨k₀, fun _ => none⟩ := ⟨(userinit_started h₀).1.tableInv, nofun, nofun⟩
  exact (run_inv (I := Table.Inv) (fun _ _ _ h hs => h.step hs) hinit hrun).table.noneMissed

/-- A child exits while its parent sleeps in `wait`. -/
theorem noneMissed_run_exit : ∃ k₀ t, userinit 1 2 = some k₀ ∧ run partStep ⟨k₀, fun _ => none⟩
      [(0, .call .sched), (0, .alloc), (0, .fill 5 7 {}), (0, .start), (0, .call .wait), (1, .call .sched), (1, .call .exit)] = some t ∧
    (t.k.proc 1).state = ZOMBIE ∧ (t.k.proc 1).parent = some 0 ∧ NoneMissed t.k := by
  obtain ⟨k₀, h₀⟩ : ∃ k₀, userinit 1 2 = some k₀ := ⟨_, rfl⟩
  have hval : (run partStep ⟨k₀, fun _ => none⟩ [(0, .call .sched), (0, .alloc), (0, .fill 5 7 {}), (0, .start), (0, .call .wait),
      (1, .call .sched), (1, .call .exit)]).map (fun t => ((t.k.proc 1).state, (t.k.proc 1).parent)) = some (ZOMBIE, some 0) := by
    cases h₀
    decide +kernel
  obtain ⟨t, ht, hproc⟩ := Option.map_eq_some_iff.1 hval
  obtain ⟨hstate, hparent⟩ := Prod.mk.inj hproc
  exact ⟨k₀, t, h₀, ht, hstate, hparent, noneMissed_run h₀ ht⟩

end Ostep.Xv6
