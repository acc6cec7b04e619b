import Ostep.Xv6.Join

/-!
# The family of the first process

Two processes never have the same pid. Every process but the first has a parent that has not exited and whose pid is smaller, so the
parents form a tree with the first process at its root, and there is somebody to wait for each process.
-/

namespace Ostep.Xv6

open ProcState Kernel

variable {k : Kernel} {c p : Slot} {a : Act} {r : Result}

def Proc.Used (q : Proc) : Prop := q.state ≠ UNUSED

def Proc.Live (q : Proc) : Prop := q.Used ∧ q.state ≠ ZOMBIE

/-- The processes after a step are those from before, which may have got the first one as their parent, and at most one new one. -/
structure Goes (k : Kernel) (r : Result) : Prop where
  old : ∀ q, (r.k.proc q).Used → (k.proc q).Used → (r.k.proc q).pid = (k.proc q).pid ∧
    ((r.k.proc q).parent = (k.proc q).parent ∨ (r.k.proc q).parent = some k.initproc)
  new : ∀ q, (r.k.proc q).Used → ¬ (k.proc q).Used → (r.k.proc q).pid = k.nextpid ∧ k.nextpid < r.k.nextpid ∧
    (∃ c, (r.k.proc q).parent = some c ∧ (k.proc c).Live) ∧ ∀ p, p ≠ q → r.k.proc p = k.proc p
  live : ∀ q p, (r.k.proc q).Used → (r.k.proc q).parent = some p → (k.proc p).Live → (r.k.proc p).Live

/-- The slot holds the same process, or one that had exited is gone. -/
def Tame (q q' : Proc) : Prop := (q'.Used → q.Used ∧ q'.pid = q.pid ∧ q'.parent = q.parent) ∧ (q.Live → q'.Live)

theorem tame_of {q q' : Proc} (hpid : q'.pid = q.pid) (hparent : q'.parent = q.parent) (hunused : q'.state = UNUSED ↔ q.state = UNUSED)
    (hzombie : q'.state = ZOMBIE ↔ q.state = ZOMBIE) : Tame q q' :=
  ⟨fun hu => ⟨mt hunused.2 hu, hpid, hparent⟩, fun hl => ⟨mt hunused.1 hl.1, mt hzombie.1 hl.2⟩⟩

theorem tame_gone {q q' : Proc} (hl : ¬ q.Live) (hu : q'.state = UNUSED) : Tame q q' := ⟨fun h => absurd hu h, fun h => absurd h hl⟩

theorem goes_of_tame (h : ∀ q, Tame (k.proc q) (r.k.proc q)) : Goes k r where
  old := fun q hq _ => ⟨((h q).1 hq).2.1, .inl ((h q).1 hq).2.2⟩
  new := fun q hq hu => absurd ((h q).1 hq).1 hu
  live := fun _ p _ _ hp => (h p).2 hp

theorem goes_of_others (ho : ∀ q, q ≠ p → r.k.proc q = k.proc q) (hp : Tame (k.proc p) (r.k.proc p)) : Goes k r := by
  refine goes_of_tame fun q => ?_
  by_cases hq : q = p
  · rw [hq]
    exact hp
  · rw [ho q hq]
    exact tame_of rfl rfl .rfl .rfl

theorem Kernel.Born.goes {d : Nat} (h : k.Born c p d r) (hc : (k.proc c).state = RUNNING) : Goes k r := by
  have hother : ∀ q, (k.proc q).Used → r.k.proc q = k.proc q := fun q hq => h.others q fun hqp => hq (hqp ▸ h.free)
  refine ⟨fun q _ hq => ?_, fun q hq hn => ?_, fun q x _ _ hx => ?_⟩
  · rw [hother q hq]
    exact ⟨rfl, .inl rfl⟩
  · obtain rfl : q = p := by
      by_contra hqp
      rw [h.others q hqp] at hq
      exact hn hq
    refine ⟨h.pid, by rw [h.nextpid]; omega, ⟨c, h.parent, ?_⟩, h.others⟩
    rw [Proc.Live, Proc.Used, hc]
    exact ⟨nofun, nofun⟩
  · rw [hother x hx.1]
    exact hx

theorem Kernel.Exited.goes (h : k.Exited c r) : Goes k r := by
  refine ⟨fun q _ _ => ?_, fun q hq hn => absurd (h.kept hq).used hn, fun q x _ hx hl => ?_⟩
  all_goals obtain ⟨s, -, hp⟩ := h.proc q
  · rw [hp]
    dsimp only
    split
    · exact ⟨rfl, .inr rfl⟩
    · exact ⟨rfl, .inl rfl⟩
  · have hxc : x ≠ c := by
      rintro rfl
      rw [hp] at hx
      dsimp only at hx
      split at hx
      · exact h.caller (Option.some.inj hx).symm
      · next hne => exact hne hx
    obtain ⟨s, hs, hp⟩ := h.proc x
    rw [hp, Proc.Live, Proc.Used, if_neg hxc]
    exact ⟨mt hs.unused_iff.1 hl.1, mt hs.zombie_iff.1 hl.2⟩

theorem Kernel.Did.goes (hd : k.Did c a r) (hfork : ∀ kstack copy, a = .fork kstack copy → (k.proc c).state = RUNNING) : Goes k r := by
  cases hd with
  | idle _ h => exact goes_of_tame fun q => tame_of (h.proc q).pid (h.proc q).parent (h.proc q).unused (h.proc q).zombie
  | forkLost _ h => exact goes_of_others h.others (tame_gone (fun hl => hl.1 h.free) h.unused)
  | cloneLost h => exact goes_of_others h.others (tame_gone (fun hl => hl.1 h.free) h.unused)
  | forked _ _ h _ => exact h.goes (hfork _ _ rfl)
  | cloned _ hc h _ => exact h.goes hc
  | exited h => exact h.goes
  | waited h => exact goes_of_others h.others (tame_gone (fun hl => hl.2 h.zombie) (by rw [h.proc]))
  | joined _ h => exact goes_of_others h.others (tame_gone (fun hl => hl.2 h.zombie) (by rw [h.proc]))
  | killed h =>
    obtain ⟨s, hs, hp⟩ := h.proc
    exact goes_of_others h.others (hp ▸ tame_of rfl rfl hs.unused_iff hs.zombie_iff)
  | execed h => exact goes_of_others h.others (tame_of h.caller.pid h.caller.parent h.caller.unused h.caller.zombie)

structure Family (k : Kernel) : Prop where
  init : InitAlive k
  below : ∀ q, (k.proc q).Used → (k.proc q).pid < k.nextpid
  distinct : ∀ p q, (k.proc p).Used → (k.proc q).Used → (k.proc p).pid = (k.proc q).pid → p = q
  parent : ∀ q, (k.proc q).Used → q ≠ 0 → (k.proc 0).pid < (k.proc q).pid ∧
    ∃ p, (k.proc q).parent = some p ∧ (k.proc p).Live ∧ (k.proc p).pid < (k.proc q).pid

namespace Family

theorem step (h : Family k) (hs : step k (c, a) = some r) : Family r.k := by
  have hd := step_did hs
  have hgoes : Goes k r := by
    refine hd.goes ?_
    rintro kstack copy rfl
    exact (of_decide_eq_true (Option.ite_none_right_eq_some.1 hs).1).1
  have hinit := h.init.did hd
  have hfirst := (hgoes.old 0 hinit.used h.init.used).1
  have hnew : ∀ p q, (r.k.proc p).Used → (r.k.proc q).Used → ¬ (k.proc p).Used → (r.k.proc p).pid = (r.k.proc q).pid → p = q := by
    intro p q hp hq hu heq
    by_contra hne
    obtain ⟨hpid, -, -, hothers⟩ := hgoes.new p hp hu
    rw [hothers q fun h => hne h.symm] at hq heq
    exact absurd (h.below q hq) (by rw [← heq, hpid]; exact lt_irrefl _)
  refine ⟨hinit, fun q hq => ?_, fun p q hp hq heq => ?_, fun q hq h0 => ?_⟩
  · by_cases hu : (k.proc q).Used
    · rw [(hgoes.old q hq hu).1]
      exact (h.below q hu).trans_le hd.nextpid_le
    · obtain ⟨hpid, hlt, -⟩ := hgoes.new q hq hu
      rwa [hpid]
  · by_cases hup : (k.proc p).Used
    · by_cases huq : (k.proc q).Used
      · rw [(hgoes.old p hp hup).1, (hgoes.old q hq huq).1] at heq
        exact h.distinct p q hup huq heq
      · exact (hnew q p hq hp huq heq.symm).symm
    · exact hnew p q hp hq hup heq
  · -- the parent is one from before the step, and keeps its pid
    suffices ∃ p, (r.k.proc q).parent = some p ∧ (k.proc p).Live ∧ (k.proc p).pid < (r.k.proc q).pid ∧ (k.proc 0).pid < (r.k.proc q).pid by
      obtain ⟨p, hp, hl, hlt, hpos⟩ := this
      have hl' := hgoes.live q p hq hp hl
      rw [hfirst]
      exact ⟨hpos, p, hp, hl', by rwa [(hgoes.old p hl'.1 hl.1).1]⟩
    by_cases hu : (k.proc q).Used
    · obtain ⟨hpid, hpar⟩ := hgoes.old q hq hu
      obtain ⟨hpos, p, hp, hl, hlt⟩ := h.parent q hu h0
      rw [hpid]
      rcases hpar with hpar | hpar
      · exact ⟨p, hpar.trans hp, hl, hlt, hpos⟩
      · exact ⟨0, by rw [hpar, h.init.initproc], ⟨h.init.used, h.init.alive⟩, hpos, hpos⟩
    · obtain ⟨hpid, -, ⟨p, hp, hl⟩, -⟩ := hgoes.new q hq hu
      rw [hpid]
      exact ⟨p, hp, hl, h.below p hl.1, h.below 0 h.init.used⟩

theorem of_run {kstack d : Nat} {k₀ : Kernel} {l : List (Slot × Act)} (h₀ : userinit kstack d = some k₀) (hrun : run next k₀ l = some k) :
    Family k := by
  have hs := (userinit_started h₀).1
  have hzero : ∀ q, (k₀.proc q).Used → q = 0 := by
    intro q hq
    by_contra h
    rw [hs.others q h] at hq
    exact hq rfl
  refine run_inv (I := Family) ?_ ⟨InitAlive.run h₀ (l := []) rfl, fun q hq => ?_, fun p q hp hq _ => ?_, fun q hq h => ?_⟩ hrun
  · rintro k ⟨c, a⟩ k' h hn
    obtain ⟨r, hr, rfl⟩ := Option.map_eq_some_iff.1 hn
    exact h.step hr
  · rw [hzero q hq, hs.pid, hs.nextpid]
    decide
  · rw [hzero p hp, hzero q hq]
  · exact absurd (hzero q hq) h

end Family

section
variable {kstack d : Nat} {k₀ : Kernel} {l : List (Slot × Act)} (h₀ : userinit kstack d = some k₀) (hrun : run next k₀ l = some k)
include h₀ hrun

/-- A pid belongs to one process, and the next one to none. -/
theorem pids_of_run : (∀ p, (k.proc p).Used → (k.proc p).pid < k.nextpid) ∧
    ∀ p q, (k.proc p).Used → (k.proc q).Used → (k.proc p).pid = (k.proc q).pid → p = q := by
  have h := Family.of_run h₀ hrun
  exact ⟨h.below, h.distinct⟩

/-- Every process but the first has a parent that has not exited, and was created after it. -/
theorem parents_of_run : (k.proc 0).Live ∧ (k.proc 0).parent = none ∧ ∀ q, (k.proc q).Used → q ≠ 0 →
    ∃ p, (k.proc q).parent = some p ∧ (k.proc p).Live ∧ (k.proc p).pid < (k.proc q).pid := by
  have h := Family.of_run h₀ hrun
  exact ⟨⟨h.init.used, h.init.alive⟩, h.init.parent, fun q hq h0 => (h.parent q hq h0).2⟩

end

/-- A child forks and exits. -/
def orphan : List (Slot × Act) := [(0, .sched), (0, .fork 5 (.ok 7)), (1, .sched), (1, .fork 6 (.ok 8)), (1, .exit)]

theorem run_orphan : ∃ k₀ k, userinit 1 2 = some k₀ ∧ run next k₀ orphan = some k ∧ (k.proc 1).state = ZOMBIE ∧ (k.proc 2).Used := by
  obtain ⟨k₀, h₀⟩ : ∃ k₀, userinit 1 2 = some k₀ := ⟨_, rfl⟩
  have hval : (run next k₀ orphan).map (fun k => ((k.proc 1).state, (k.proc 2).state)) = some (ZOMBIE, RUNNABLE) := by
    cases h₀
    decide +kernel
  obtain ⟨k, hk, hstate⟩ := Option.map_eq_some_iff.1 hval
  obtain ⟨h1, h2⟩ := Prod.mk.inj hstate
  refine ⟨k₀, k, h₀, hk, h1, ?_⟩
  rw [Proc.Used, h2]
  nofun

theorem pids_of_run_orphan : ∃ k : Kernel, (k.proc 2).Used ∧ (k.proc 2).pid < k.nextpid := by
  obtain ⟨k₀, k, h₀, hrun, -, h2⟩ := run_orphan
  exact ⟨k, h2, (pids_of_run h₀ hrun).1 2 h2⟩

theorem parents_of_run_orphan : ∃ (k : Kernel) (p : Slot), (k.proc 1).state = ZOMBIE ∧ (k.proc 2).parent = some p ∧ (k.proc p).Live := by
  obtain ⟨k₀, k, h₀, hrun, h1, h2⟩ := run_orphan
  obtain ⟨p, hp, hlive, -⟩ := (parents_of_run h₀ hrun).2.2 2 h2 (by decide)
  exact ⟨k, p, h1, hp, hlive⟩

end Ostep.Xv6
