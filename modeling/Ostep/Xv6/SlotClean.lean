import Ostep.Xv6.ProcSpec

/-!
# The fields of an UNUSED slot

`kill`, `wait` and `allocproc` look at the fields of a slot without regard to its state, so they rely on
an UNUSED slot having been wiped. `wait` wipes the slot it frees; the failure paths of `allocproc` and
`fork`, and `join`, only set the state.
-/

namespace Ostep.Xv6

open ProcState Kernel

structure Wiped (q : Proc) : Prop where
  pid : q.pid = 0
  parent : q.parent = none
  killed : q.killed = 0
  inuse : q.inuse = 0
  ticks : q.ticks = 0

def UnusedWiped (k : Kernel) : Prop := ∀ p, (k.proc p).state = UNUSED → Wiped (k.proc p)

/-- The step does not take one of the paths that give a slot back unwiped, and is not a `kill(0)` that
finds an UNUSED slot. -/
def Wipes (k : Kernel) : Slot × Act → Prop
  | (_, .fork kstack copy) => (∃ p, (k.proc p).state = UNUSED) → kstack ≠ 0 ∧ ∃ d, copy = .ok d
  | (_, .clone kstack ..) => (∃ p, (k.proc p).state = UNUSED) → kstack ≠ 0
  | (c, .join word4) => ∀ p, ¬ (k.joinTakes c word4 p ∧ (k.proc p).state = ZOMBIE)
  | (_, .kill pid) => pid = 0 → ∀ p, (k.proc p).state ≠ UNUSED
  | _ => True

/-- What the callers expect of the step: `kill` finds a process, `wait` does not sleep for a child
that is not there, a new process starts with fresh counters. -/
structure Relied (k : Kernel) (c : Slot) (a : Act) (r : Result) : Prop where
  kill : ∀ pid, a = .kill pid → r.ret = some 0 → ∃ p, (k.proc p).state ≠ UNUSED ∧ (k.proc p).pid = pid
  wait : a = .wait → (∀ p, (k.proc p).parent = some c → (k.proc p).state = UNUSED) → r.ret = some (-1)
  born : ∀ p, (k.proc p).state = UNUSED → (r.k.proc p).state ≠ UNUSED →
    (r.k.proc p).killed = 0 ∧ (r.k.proc p).ticks = 0

/-- Pids are handed out from 1 on, and a slot in use holds one. -/
structure Pids (k : Kernel) : Prop where
  nextpid : 1 ≤ k.nextpid
  used : ∀ p, (k.proc p).state ≠ UNUSED → 1 ≤ (k.proc p).pid

theorem Wiped.same {q q' : Proc} (h : Same q q') (hu : q.state = UNUSED) : Wiped q' ↔ Wiped q := by
  constructor
  · rintro ⟨h1, h2, h3, h4, h5⟩
    exact ⟨h.pid ▸ h1, h.parent ▸ h2, h.killed ▸ h3, h.inuse ▸ h4, h.ticks hu ▸ h5⟩
  · rintro ⟨h1, h2, h3, h4, h5⟩
    exact ⟨h.pid ▸ h1, h.parent ▸ h2, h.killed ▸ h3, h.inuse ▸ h4, h.ticks hu ▸ h5⟩

section
variable {k : Kernel} {c : Slot} {a : Act} {r : Result}

theorem Pids.did (hk : Pids k) (hd : k.Did c a r) : Pids r.k := by
  refine ⟨hk.nextpid.trans hd.nextpid_le, fun q hq => ?_⟩
  rcases hd.used_cases hq with h | ⟨d, h, -⟩ | ⟨rfl, d, sz, _, _, _, -, h⟩
  · rw [h.pid]; exact hk.used q h.used
  · rw [h.pid]; exact hk.nextpid
  · rw [h.caller.pid]; exact hk.used q (by rw [h.running]; nofun)

/-! ### When a step leaves every UNUSED slot wiped -/

theorem not_wiped_of_pid {q : Proc} (h : 1 ≤ q.pid) : ¬ Wiped q := by
  intro hw
  have := hw.pid
  omega

theorem UnusedWiped.pid_eq_zero_iff (hw : UnusedWiped k) (hk : Pids k) (p : Slot) :
    (k.proc p).pid = 0 ↔ (k.proc p).state = UNUSED := by
  constructor
  · intro h
    by_contra hu
    have := hk.used p hu
    omega
  · intro h
    exact (hw p h).pid

theorem Lost.not_unusedWiped {p : Slot} (hk : Pids k) (h : k.Lost p r) : ¬ UnusedWiped r.k := by
  intro hw
  exact not_wiped_of_pid (by rw [h.pid]; exact hk.nextpid) (hw p h.unused)

theorem UnusedWiped.born {p : Slot} {d : Nat} (hw : UnusedWiped k) (h : k.Born c p d r) : UnusedWiped r.k := by
  refine forall_of_others (fun q => q.state = UNUSED → Wiped q) h.others ?_ hw
  intro hu
  rw [h.state] at hu
  cases hu

theorem UnusedWiped.exited (hw : UnusedWiped k) (h : k.Exited c r) : UnusedWiped r.k := by
  intro q hq
  obtain ⟨s, hs, hp⟩ := h.proc q
  by_cases hqc : q = c
  · subst hqc; rw [hp] at hq; simp at hq
  · rw [hp] at hq ⊢
    simp only [if_neg hqc] at hq
    have := hw q (hs.unused_iff.1 hq)
    refine ⟨this.pid, ?_, this.killed, this.inuse, this.ticks⟩
    simp [this.parent]

theorem UnusedWiped.idle (hw : UnusedWiped k) (h : k.Quiet r) : UnusedWiped r.k := by
  intro q hq
  have hu := (h.proc q).unused.1 hq
  exact (Wiped.same (h.proc q) hu).2 (hw q hu)

theorem UnusedWiped.wipes_of_idle (hw : UnusedWiped k) (h : k.Idle c a) : Wipes k (c, a) := by
  cases a with
  | fork kstack copy => rintro ⟨p, hp⟩; exact absurd hp (h p)
  | clone kstack fcn stack => rintro ⟨p, hp⟩; exact absurd hp (h p)
  | join word4 => exact h
  | kill pid => rintro rfl p hp; exact h p (hw p hp).pid
  | exit | wait | exec | settickets | sleep | wakeup | yield | sched => trivial

/-- In a state with every UNUSED slot wiped, a step keeps it so exactly when it `Wipes`. -/
theorem UnusedWiped.did_iff (hw : UnusedWiped k) (hk : Pids k) (hd : k.Did c a r) :
    UnusedWiped r.k ↔ Wipes k (c, a) := by
  cases hd with
  | idle ha h => exact iff_of_true (hw.idle h) (hw.wipes_of_idle ha)
  | forkLost hb h =>
    refine iff_of_false (Lost.not_unusedWiped hk h) fun hwipes => ?_
    obtain ⟨hstack, d, hd⟩ := hwipes ⟨_, h.free⟩
    rcases hb with hb | hb
    · exact hstack hb
    · exact hb d hd
  | cloneLost h =>
    refine iff_of_false (Lost.not_unusedWiped hk h) fun hwipes => ?_
    exact hwipes ⟨_, h.free⟩ rfl
  | forked hstack _ h _ => exact iff_of_true (hw.born h) fun _ => ⟨hstack, _, rfl⟩
  | cloned hstack _ h _ => exact iff_of_true (hw.born h) fun _ => hstack
  | exited h => exact iff_of_true (hw.exited h) trivial
  | waited h =>
    refine iff_of_true (forall_of_others (fun q => q.state = UNUSED → Wiped q) h.others ?_ hw) trivial
    intro _
    rw [h.proc]
    exact ⟨rfl, rfl, rfl, rfl, rfl⟩
  | @joined word4 p _ ht h =>
    refine iff_of_false (fun hw' => ?_) fun hwipes => hwipes p ⟨ht, h.zombie⟩
    have hpid : 1 ≤ (k.proc p).pid := hk.used p (by rw [h.zombie]; nofun)
    exact not_wiped_of_pid (by rw [h.proc]; exact hpid) (hw' p (by rw [h.proc]))
  | @killed pid p _ h =>
    obtain ⟨s, hs, hp⟩ := h.proc
    by_cases hu : (k.proc p).state = UNUSED
    · refine iff_of_false (fun hw' => ?_) fun hwipes => hwipes (h.found ▸ (hw p hu).pid) p hu
      have := (hw' p (by rw [hp]; exact hs.unused_iff.2 hu)).killed
      rw [hp] at this
      cases this
    · refine iff_of_true (forall_of_others (fun q => q.state = UNUSED → Wiped q) h.others ?_ hw) fun h0 => ?_
      · rw [hp]; intro hu'; exact absurd (hs.unused_iff.1 hu') hu
      · exact absurd ((hw.pid_eq_zero_iff hk p).1 (h.found.trans h0)) hu
  | execed h =>
    refine iff_of_true (forall_of_others (fun q => q.state = UNUSED → Wiped q) h.others ?_ hw) trivial
    intro hu
    exact (Wiped.same h.caller (h.caller.unused.1 hu)).2
      (let w := hw c (h.caller.unused.1 hu); ⟨w.pid, w.parent, w.killed, w.inuse, w.ticks⟩)

/-! ### What the callers rely on -/

theorem kill_ret_zero {pid : Int} (h : (k.kill pid).ret = some 0) : ∃ p, (k.proc p).pid = pid := by
  unfold kill at h
  cases hf : findSlot fun p => (k.proc p).pid = pid with
  | none => rw [hf] at h; simp at h
  | some p => exact ⟨p, by simpa using findSlot_some hf⟩

theorem wait_ret_of_no_child (h : ∀ p, (k.proc p).parent ≠ some c) : (k.wait c).ret = some (-1) := by
  unfold wait
  cases hf : k.waitFinds c with
  | some p =>
    have hp : (k.proc p).parent = some c ∧ (k.proc p).state = ZOMBIE := by simpa using findSlot_some hf
    exact absurd hp.1 (h p)
  | none => simp [h]

theorem did_counters (hd : k.Did c a r) (p : Slot) (hu : (k.proc p).state = UNUSED)
    (hu' : (r.k.proc p).state ≠ UNUSED) :
    (r.k.proc p).killed = (k.proc p).killed ∧ (r.k.proc p).ticks = (k.proc p).ticks := by
  have hother : ∀ {p'}, (∀ q, q ≠ p' → r.k.proc q = k.proc q) → p = p' := by
    intro p' ho
    by_contra hne
    rw [ho p hne] at hu'
    exact hu' hu
  cases hd with
  | idle _ h => exact absurd ((h.proc p).unused.2 hu) hu'
  | forkLost _ h => cases hother h.others; exact absurd h.unused hu'
  | cloneLost h => cases hother h.others; exact absurd h.unused hu'
  | forked _ _ h _ => cases hother h.others; exact ⟨h.killed, h.ticks⟩
  | cloned _ _ h _ => cases hother h.others; exact ⟨h.killed, h.ticks⟩
  | exited h => obtain ⟨s, -, hp⟩ := h.proc p; rw [hp]; exact ⟨rfl, rfl⟩
  | waited h => cases hother h.others; rw [h.zombie] at hu; cases hu
  | joined _ h => cases hother h.others; rw [h.zombie] at hu; cases hu
  | killed h =>
    cases hother h.others
    obtain ⟨s, hs, hp⟩ := h.proc
    rw [hp] at hu'
    exact absurd (hs.unused_iff.2 hu) hu'
  | execed h => cases hother h.others; exact absurd (h.caller.unused.2 hu) hu'

theorem UnusedWiped.relied (hw : UnusedWiped k) (hwipes : Wipes k (c, a)) (h : step k (c, a) = some r) :
    Relied k c a r := by
  refine ⟨?_, ?_, fun p hu hu' => ?_⟩
  · rintro pid rfl hret
    unfold step at h
    split at h
    · cases h
      obtain ⟨p, hp⟩ := kill_ret_zero hret
      refine ⟨p, fun hu => ?_, hp⟩
      exact hwipes (hp ▸ (hw p hu).pid) p hu
    · cases h
  · rintro rfl hkids
    unfold step at h
    split at h
    · cases h
      refine wait_ret_of_no_child fun p hp => ?_
      have := (hw p (hkids p hp)).parent
      rw [hp] at this
      cases this
    · cases h
  · obtain ⟨hkilled, hticks⟩ := did_counters (step_did h) p hu hu'
    exact ⟨hkilled.trans (hw p hu).killed, hticks.trans (hw p hu).ticks⟩

theorem Started.pids {d : Nat} (h : Started d k) : Pids k := by
  refine ⟨by rw [h.nextpid]; omega, fun p hp => ?_⟩
  by_cases h0 : p = 0
  · subst h0; rw [h.pid]
  · rw [h.others p h0] at hp; exact absurd rfl hp

theorem Started.unusedWiped {d : Nat} (h : Started d k) : UnusedWiped k := by
  intro p hp
  by_cases h0 : p = 0
  · subst h0; rw [h.state] at hp; cases hp
  · rw [h.others p h0]; exact ⟨rfl, rfl, rfl, rfl, rfl⟩

end

/-- Along every run from the first process, the UNUSED slots are wiped after each step exactly when
each step `Wipes`; then what the callers of the next step rely on holds as well. -/
theorem unusedWiped_along {kstack d : Nat} {k₀ k : Kernel} {l : List (Slot × Act)}
    (h₀ : userinit kstack d = some k₀) (hrun : run next k₀ l = some k) :
    (Along next Wipes k₀ l ↔ Along next (fun s a => ∀ s', next s a = some s' → UnusedWiped s') k₀ l) ∧
      (Along next Wipes k₀ l → UnusedWiped k ∧
        ∀ c a r, Wipes k (c, a) → step k (c, a) = some r → Relied k c a r) := by
  have hs := (userinit_started h₀).1
  have hstep : ∀ s a s', Pids s ∧ UnusedWiped s → Wipes s a → next s a = some s' → Pids s' ∧ UnusedWiped s' := by
    rintro s ⟨c, a⟩ s' ⟨hp, hw⟩ hwipes hn
    obtain ⟨r, hd, rfl⟩ := next_did hn
    exact ⟨hp.did hd, (hw.did_iff hp hd).2 hwipes⟩
  refine ⟨along_congr hstep ?_ ⟨hs.pids, hs.unusedWiped⟩ hrun, fun hl => ?_⟩
  · rintro s ⟨c, a⟩ s' ⟨hp, hw⟩ hn
    obtain ⟨r, hd, rfl⟩ := next_did hn
    rw [← hw.did_iff hp hd, hn]
    simp
  · have hk := Along.inv hstep ⟨hs.pids, hs.unusedWiped⟩ hl hrun
    exact ⟨hk.2, fun c a r hwipes hr => hk.2.relied hwipes hr⟩

theorem unusedWiped_along_fork : ∃ k₀ k, userinit 1 2 = some k₀ ∧
    run next k₀ [(0, .sched), (0, .fork 5 (.ok 7))] = some k ∧ UnusedWiped k := by
  obtain ⟨k₀, h₀⟩ : ∃ k₀, userinit 1 2 = some k₀ := ⟨_, rfl⟩
  obtain ⟨k, hk⟩ : ∃ k, run next k₀ [(0, .sched), (0, .fork 5 (.ok 7))] = some k := by
    cases h₀
    exact Option.isSome_iff_exists.1 (by decide)
  refine ⟨k₀, k, h₀, hk, ((unusedWiped_along h₀ hk).2 ⟨trivial, fun s _ => ⟨fun _ => ?_, fun _ _ => trivial⟩⟩).1⟩
  exact ⟨by decide, 7, rfl⟩

/-- `fork` fails in `kalloc`: slot 1 is UNUSED and still has pid 2, and `kill(2)` returns 0. -/
theorem not_unusedWiped_fork_fails : ∃ k₀ k r, userinit 1 2 = some k₀ ∧
    run next k₀ [(0, .sched), (0, .fork 0 .none)] = some k ∧ ¬ UnusedWiped k ∧
    step k (0, .kill 2) = some r ∧ ¬ Relied k 0 (.kill 2) r := by
  obtain ⟨k₀, h₀⟩ : ∃ k₀, userinit 1 2 = some k₀ := ⟨_, rfl⟩
  obtain ⟨k, hk⟩ : ∃ k, run next k₀ [(0, .sched), (0, .fork 0 .none)] = some k := ⟨_, by cases h₀; rfl⟩
  obtain ⟨r, hr⟩ : ∃ r, step k (0, .kill 2) = some r := ⟨_, by cases h₀; cases hk; rfl⟩
  cases h₀
  cases hk
  cases hr
  refine ⟨_, _, _, rfl, rfl, fun hw => ?_, rfl, fun hrel => ?_⟩
  · exact absurd (hw 1 (by decide)).pid (by decide)
  · exact absurd (hrel.kill 2 rfl (by decide)) (by decide +kernel)

end Ostep.Xv6
