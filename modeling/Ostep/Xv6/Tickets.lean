import Ostep.Xv6.Scheduler

/-!
# Tickets along runs

Only `settickets`, `fork` and `clone` raise the tickets that the processes hold together (`held`). `Affordable` keeps that sum
below `INT_MAX`, and then every pass of the scheduler comes to its end.
-/

namespace Ostep.Xv6

open ProcState Kernel

/-! ### Runs with the scheduler -/

/-- A process makes a call, or a CPU goes through the table. -/
inductive Move where
  | call (c : Slot) (a : Act)
  | pass

/-- The table and the seed after a move. The scheduler alone starts processes. -/
def move (s : Kernel × Int) : Move → Option (Kernel × Int)
  | .call _ .sched => none
  | .call c a => (next s.1 (c, a)).map (·, s.2)
  | .pass =>
    match scheduler s.1 s.2 with
    | .ok (seed, some p) => (next s.1 (p, .sched)).map (·, seed)
    | .ok (seed, none) => some (s.1, seed)
    | .error _ => none

def share (q : Proc) : Int := if q.state = UNUSED then 0 else q.tickets

def held (k : Kernel) : Int := ∑ p, share (k.proc p)

/-- A call leaves the processes with fewer than `INT_MAX` tickets. -/
def Affordable (s : Kernel × Int) : Move → Prop
  | .call c (.settickets n) => 0 ≤ n → held s.1 - (s.1.proc c).tickets + n < INT_MAX
  | .call c (.fork ..) | .call c (.clone ..) => held s.1 + (s.1.proc c).tickets < INT_MAX
  | _ => True

variable {k k' : Kernel} {c : Slot} {a : Act}

/-! ### What a call does to the tickets -/

theorem share_of_used {q : Proc} (h : q.state ≠ UNUSED) : share q = q.tickets := if_neg h

theorem share_of_unused {q : Proc} (h : q.state = UNUSED) : share q = 0 := if_pos h

theorem share_congr {q q' : Proc} (hs : q'.state = UNUSED ↔ q.state = UNUSED) (ht : q'.tickets = q.tickets) : share q' = share q := by
  unfold share
  simp only [hs, ht]

def NoneRaised (k k' : Kernel) : Prop := ∀ q, share (k'.proc q) = share (k.proc q) ∨ share (k'.proc q) = 0

structure Raised (k k' : Kernel) (p : Slot) (n : Int) : Prop where
  share : share (k'.proc p) = n
  others : ∀ q, q ≠ p → k'.proc q = k.proc q

theorem noneRaised_one {p : Slot} (ho : ∀ q, q ≠ p → k'.proc q = k.proc q)
    (hp : share (k'.proc p) = share (k.proc p) ∨ share (k'.proc p) = 0) : NoneRaised k k' := by
  intro q
  by_cases hq : q = p
  · rw [hq]
    exact hp
  · rw [ho q hq]
    exact .inl rfl

theorem noneRaised_wakeup1 (chan : Chan) : NoneRaised k (k.wakeup1 chan) := by
  intro q
  obtain ⟨s, hs, hq⟩ := k.wakeup1_proc chan q
  rw [hq]
  exact .inl (share_congr hs.unused_iff rfl)

theorem raised_inherit {p : Slot} {kstack d : Nat} {b : Bool} {tf : Trapframe} {k₁ : Kernel} (hp : (k.proc p).state = UNUSED)
    (hc : (k.proc c).state = RUNNING) (h₁ : k₁ = k.taken p kstack EMBRYO ∨ k₁ = (k.taken p kstack EMBRYO).setDir d b) {e : Nat} :
    Raised k (k₁.inherit c p e tf) p (k.proc c).tickets := by
  have hcp : c ≠ p := by
    rintro rfl
    rw [hp] at hc
    cases hc
  have hproc : k₁.proc = (k.taken p kstack EMBRYO).proc := by
    rcases h₁ with rfl | rfl
    · rfl
    · rfl
  refine ⟨?_, fun q hq => ?_⟩
  · simp [inherit, share, hproc, taken, hcp]
  · simp [inherit, hproc, taken, hq]

theorem fork_tickets (hc : (k.proc c).state = RUNNING) (kstack : Nat) (copy : NewDir) :
    NoneRaised k (k.fork c kstack copy).k ∨ ∃ p, share (k.proc p) = 0 ∧ Raised k (k.fork c kstack copy).k p (k.proc c).tickets := by
  unfold Kernel.fork
  rcases k.allocproc_cases kstack with ⟨ha, -⟩ | ⟨p, hp, ⟨-, ha⟩ | ⟨-, ha⟩⟩
  · rw [ha]
    exact .inl fun q => .inl rfl
  · rw [ha]
    refine .inl (noneRaised_one (p := p) (fun q hq => ?_) (.inr ?_))
    · simp [taken, hq]
    · simp [taken, share]
  · rw [ha]
    rcases copy with _ | d | d
    · refine .inl (noneRaised_one (p := p) (fun q hq => ?_) (.inr ?_))
      · simp [taken, hq]
      · simp [share]
    · refine .inl (noneRaised_one (p := p) (fun q hq => ?_) (.inr ?_))
      · simp [taken, hq]
      · simp [share]
    · exact .inr ⟨p, share_of_unused hp, raised_inherit hp hc (.inr rfl)⟩

theorem clone_tickets (hc : (k.proc c).state = RUNNING) (kstack fcn stack : Nat) :
    NoneRaised k (k.clone c kstack fcn stack).k ∨
      ∃ p, share (k.proc p) = 0 ∧ Raised k (k.clone c kstack fcn stack).k p (k.proc c).tickets := by
  unfold Kernel.clone
  rcases k.allocproc_cases kstack with ⟨ha, -⟩ | ⟨p, hp, ⟨-, ha⟩ | ⟨-, ha⟩⟩
  · rw [ha]
    exact .inl fun q => .inl rfl
  · rw [ha]
    refine .inl (noneRaised_one (p := p) (fun q hq => ?_) (.inr ?_))
    · simp [taken, hq]
    · simp [taken, share]
  · rw [ha]
    exact .inr ⟨p, share_of_unused hp, raised_inherit (d := 0) (b := true) hp hc (.inl rfl)⟩

theorem sleep_tickets (hc : (k.proc c).state = RUNNING) (chan : Chan) : NoneRaised k (k.sleep c chan) := by
  refine noneRaised_one (p := c) (fun q hq => ?_) (.inl ?_)
  · simp [Kernel.sleep, hq]
  · simp [Kernel.sleep, share, hc]

theorem wait_tickets (hc : (k.proc c).state = RUNNING) : NoneRaised k (k.wait c).k := by
  unfold Kernel.wait
  split
  · next p _ =>
    refine noneRaised_one (p := p) (fun q hq => ?_) (.inr ?_)
    · simp [hq]
    · simp [share]
  · split
    · exact fun q => .inl rfl
    · exact sleep_tickets hc _

theorem join_tickets (hc : (k.proc c).state = RUNNING) {word4 : Nat} : NoneRaised k (k.join c word4).k := by
  unfold Kernel.join
  split
  · next p _ =>
    refine noneRaised_one (p := p) (fun q hq => ?_) (.inr ?_)
    · simp [hq]
    · simp [share]
  · exact sleep_tickets hc _

theorem kill_tickets {pid : Int} : NoneRaised k (k.kill pid).k := by
  unfold Kernel.kill
  split
  · next p _ =>
    refine noneRaised_one (p := p) (fun q hq => ?_) (.inl (share_congr ?_ ?_))
    · simp [hq]
    · by_cases hs : (k.proc p).state = SLEEPING
      · simp [hs]
      · simp [hs]
    · simp
  · exact fun q => .inl rfl

theorem exec_tickets {dir : NewDir} {sz entry sp : Nat} {name : List UInt8} : NoneRaised k (k.exec c dir sz entry sp name).k := by
  rcases dir with _ | d | d
  · exact fun q => .inl rfl
  · exact fun q => .inl rfl
  · refine noneRaised_one (p := c) (fun q hq => ?_) (.inl ?_)
    · simp [Kernel.exec, hq]
    · simp [Kernel.exec, share]

theorem exit_tickets (hc : (k.proc c).state = RUNNING) {r : Result} (h : k.exit c = some r) : NoneRaised k r.k := by
  intro q
  obtain ⟨s, hs, hq⟩ := exit_proc h q
  rw [hq]
  refine .inl (share_congr ?_ rfl)
  by_cases hqc : q = c
  · subst hqc
    simp [hc]
  · simp [hqc, hs.unused_iff]

theorem next_tickets (h : next k (c, a) = some k') : NoneRaised k k' ∨
    (∃ n, a = .settickets n ∧ 0 ≤ n ∧ (k.proc c).state = RUNNING ∧ Raised k k' c n) ∨
    (((∃ kstack copy, a = .fork kstack copy) ∨ ∃ kstack fcn stack, a = .clone kstack fcn stack) ∧ (k.proc c).state = RUNNING ∧
      ∃ p, share (k.proc p) = 0 ∧ Raised k k' p (k.proc c).tickets) := by
  obtain ⟨r, hr, rfl⟩ := Option.map_eq_some_iff.1 h
  unfold step at hr
  split at hr
  swap
  · cases hr
  next he =>
  cases a with
  | fork kstack copy =>
    cases hr
    have hc := (of_decide_eq_true he).1
    rcases fork_tickets hc kstack copy with hn | hp
    · exact .inl hn
    · exact .inr (.inr ⟨.inl ⟨kstack, copy, rfl⟩, hc, hp⟩)
  | clone kstack fcn stack =>
    cases hr
    have hc := (of_decide_eq_true he).1
    rcases clone_tickets hc kstack fcn stack with hn | hp
    · exact .inl hn
    · exact .inr (.inr ⟨.inr ⟨kstack, fcn, stack, rfl⟩, hc, hp⟩)
  | exit => exact .inl (exit_tickets (of_decide_eq_true he) hr)
  | wait =>
    cases hr
    exact .inl (wait_tickets (of_decide_eq_true he))
  | join word4 =>
    cases hr
    exact .inl (join_tickets (of_decide_eq_true he))
  | exec dir sz entry sp name =>
    cases hr
    exact .inl exec_tickets
  | kill pid =>
    cases hr
    exact .inl kill_tickets
  | settickets n =>
    have hc : (k.proc c).state = RUNNING := of_decide_eq_true he
    rw [act] at hr
    split at hr
    · cases hr
      exact .inl fun q => .inl rfl
    · next hn =>
      cases hr
      refine .inr (.inl ⟨n, rfl, by omega, hc, ?_, fun q hq => ?_⟩)
      · simp [share, hc]
      · simp [hq]
  | sleep chan =>
    cases hr
    exact .inl (sleep_tickets (of_decide_eq_true he) _)
  | wakeup chan =>
    cases hr
    exact .inl (noneRaised_wakeup1 _)
  | yield =>
    cases hr
    have hc : (k.proc c).state = RUNNING := of_decide_eq_true he
    refine .inl (noneRaised_one (p := c) (fun q hq => ?_) (.inl ?_))
    · simp [hq]
    · simp [share, hc]
  | sched =>
    cases hr
    have hc : (k.proc c).state = RUNNABLE := (of_decide_eq_true he).1
    refine .inl (noneRaised_one (p := c) (fun q hq => ?_) (.inl ?_))
    · simp [hq]
    · simp [share, hc]

/-! ### Runs -/

/-- No process holds a negative number of tickets, and all together hold fewer than `INT_MAX`. -/
structure Bounded (k : Kernel) : Prop where
  nonneg : ∀ p, 0 ≤ share (k.proc p)
  held : held k < INT_MAX

theorem Bounded.noneRaised (h : Bounded k) (hn : NoneRaised k k') : Bounded k' := by
  have hle : ∀ p, share (k'.proc p) ≤ share (k.proc p) := by
    intro p
    rcases hn p with hp | hp
    · exact hp.le
    · rw [hp]
      exact h.nonneg p
  refine ⟨fun p => ?_, Int.lt_of_le_of_lt (Finset.sum_le_sum fun p _ => hle p) h.held⟩
  rcases hn p with hp | hp
  · rw [hp]
    exact h.nonneg p
  · exact hp.ge

theorem held_raised {p : Slot} {n : Int} (h : Raised k k' p n) : held k' = held k - share (k.proc p) + n := by
  have hrest : ∑ q ∈ Finset.univ.erase p, share (k'.proc q) = ∑ q ∈ Finset.univ.erase p, share (k.proc q) :=
    Finset.sum_congr rfl fun q hq => by rw [h.others q (Finset.ne_of_mem_erase hq)]
  have hk := Finset.add_sum_erase _ (fun q => share (k.proc q)) (Finset.mem_univ p)
  have hk' := Finset.add_sum_erase _ (fun q => share (k'.proc q)) (Finset.mem_univ p)
  rw [hrest, h.share] at hk'
  unfold held
  omega

theorem Bounded.raised {p : Slot} {n : Int} (h : Bounded k) (hn : 0 ≤ n) (hr : Raised k k' p n)
    (hlt : Xv6.held k - share (k.proc p) + n < INT_MAX) : Bounded k' := by
  refine ⟨fun q => ?_, by rw [held_raised hr]; exact hlt⟩
  by_cases hq : q = p
  · rw [hq, hr.share]
    exact hn
  · rw [hr.others q hq]
    exact h.nonneg q

theorem Bounded.next (h : Bounded k) (seed : Int) (ha : Affordable (k, seed) (.call c a)) (hs : next k (c, a) = some k') : Bounded k' := by
  rcases next_tickets hs with hn | ⟨n, rfl, hn, hc, hr⟩ | ⟨hcall, hc, p, hp, hr⟩
  · exact h.noneRaised hn
  · have hshare : share (k.proc c) = (k.proc c).tickets := share_of_used (by rw [hc]; nofun)
    exact h.raised hn hr (by rw [hshare]; exact ha hn)
  · have hnonneg := h.nonneg c
    rw [share_of_used (by rw [hc]; nofun)] at hnonneg
    have hlt : Xv6.held k + (k.proc c).tickets < INT_MAX := by
      rcases hcall with ⟨kstack, copy, rfl⟩ | ⟨kstack, fcn, stack, rfl⟩
      · exact ha
      · exact ha
    exact h.raised hnonneg hr (by rw [hp]; omega)

theorem Bounded.sched (h : Bounded k) {p : Slot} (hs : Xv6.next k (p, .sched) = some k') : Bounded k' :=
  h.next 0 (by trivial) hs

theorem Bounded.move {s s' : Kernel × Int} {m : Move} (h : Bounded s.1 ∧ IsSeed s.2) (ha : Affordable s m) (hs : move s m = some s') :
    Bounded s'.1 ∧ IsSeed s'.2 := by
  obtain ⟨k, seed⟩ := s
  cases m with
  | call c a =>
    cases a with
    | sched => cases hs
    | _ =>
      simp only [Xv6.move] at hs
      obtain ⟨k', hk', rfl⟩ := Option.map_eq_some_iff.1 hs
      exact ⟨h.1.next seed ha hk', h.2⟩
  | pass =>
    rw [Xv6.move] at hs
    split at hs
    · next seed' p hp =>
      obtain ⟨k', hk', rfl⟩ := Option.map_eq_some_iff.1 hs
      exact ⟨h.1.sched hk', scheduler_seed h.2 hp⟩
    · next seed' hp =>
      cases hs
      exact ⟨h.1, scheduler_seed h.2 hp⟩
    · cases hs

theorem Started.bounded {d : Nat} (h : Started d k) (ht : (k.proc 0).tickets = 1) : Bounded k := by
  have hshare : ∀ p, share (k.proc p) = if p = 0 then 1 else 0 := by
    intro p
    by_cases hp : p = 0
    · rw [hp, share_of_used (by rw [h.state]; nofun), ht, if_pos rfl]
    · rw [h.others p hp, if_neg hp]
      rfl
  refine ⟨fun p => ?_, ?_⟩
  · rw [hshare]
    split <;> decide
  · unfold held
    rw [Finset.sum_congr rfl fun p _ => hshare p, Finset.sum_ite_eq' Finset.univ (0 : Slot) fun _ => (1 : Int), if_pos (Finset.mem_univ _)]
    decide

theorem Bounded.runnableTotal_lt (h : Bounded k) : runnableTotal k < INT_MAX := by
  refine Int.lt_of_le_of_lt (Finset.sum_le_sum fun p _ => ?_) h.held
  have hp := h.nonneg p
  unfold runnableTickets
  split
  · next hr => rw [share_of_used (by rw [hr]; nofun)]
  · exact hp

/-- Along a run from the first process whose calls are all `Affordable`, each pass of the scheduler comes to its end: the tickets of
the RUNNABLE processes and one more fit in an `int`, the modulus is positive, and so does the new seed before it is reduced. -/
theorem scheduler_along {kstack d : Nat} {k₀ : Kernel} {s : Kernel × Int} {l : List Move} (h₀ : userinit kstack d = some k₀)
    (hrun : run move (k₀, 1234) l = some s) (hl : Along move Affordable (k₀, 1234) l) :
    (∃ out, scheduler s.1 s.2 = .ok out) ∧ 0 < runnableTotal s.1 + 1 ∧ runnableTotal s.1 + 1 ≤ INT_MAX ∧
      0 ≤ 8121 * s.2 + 28411 ∧ 8121 * s.2 + 28411 ≤ INT_MAX := by
  have hinit : Bounded k₀ ∧ IsSeed 1234 := ⟨(userinit_started h₀).1.bounded (userinit_started h₀).2, by decide, by decide⟩
  obtain ⟨hb, hseed⟩ := Along.inv (I := fun s => Bounded s.1 ∧ IsSeed s.2) (s := (k₀, 1234)) (fun _ _ _ h ha hs => Bounded.move h ha hs)
    hinit hl hrun
  have hlt := hb.runnableTotal_lt
  have hrunnable : ∀ p, (s.1.proc p).state = RUNNABLE → 0 ≤ (s.1.proc p).tickets := by
    intro p hp
    have := hb.nonneg p
    rwa [share_of_used (by rw [hp]; nofun)] at this
  have hnonneg : 0 ≤ runnableTotal s.1 := Finset.sum_nonneg fun p _ => runnableTickets_nonneg (hrunnable p)
  obtain ⟨hlo, hhi⟩ := hseed
  exact ⟨(scheduler_ok_iff hrunnable ⟨hlo, hhi⟩).2 hlt, by omega, by omega, by omega, by unfold INT_MAX; omega⟩

theorem scheduler_along_million : ∃ k₀ s, userinit 1 2 = some k₀ ∧
    run move (k₀, 1234) [.pass, .call 0 (.settickets 1000000), .call 0 .yield] = some s ∧ ∃ out, scheduler s.1 s.2 = .ok out := by
  obtain ⟨k₀, h₀⟩ : ∃ k₀, userinit 1 2 = some k₀ := ⟨_, rfl⟩
  obtain ⟨s, hs⟩ : ∃ s, run move (k₀, 1234) [.pass, .call 0 (.settickets 1000000), .call 0 .yield] = some s := by
    cases h₀
    exact Option.isSome_iff_exists.1 (by decide +kernel)
  refine ⟨k₀, s, h₀, hs, (scheduler_along h₀ hs ⟨trivial, fun s₁ h₁ => ⟨fun _ => ?_, fun _ _ => ⟨trivial, fun _ _ => trivial⟩⟩⟩).1⟩
  have hval : (move (k₀, 1234) .pass).map (fun s₁ => (held s₁.1, (s₁.1.proc 0).tickets)) = some (1, 1) := by
    cases h₀
    decide +kernel
  rw [h₁] at hval
  obtain ⟨hheld, htickets⟩ := Prod.mk.inj (Option.some.inj hval)
  rw [hheld, htickets]
  decide

/-- A process gives itself `INT_MAX` tickets and yields; `count + 1` overflows in the next pass. -/
theorem scheduler_undefined_intMax : ∃ k₀ s, userinit 1 2 = some k₀ ∧
    run move (k₀, 1234) [.pass, .call 0 (.settickets INT_MAX), .call 0 .yield] = some s ∧ scheduler s.1 s.2 = .error .undefined := by
  obtain ⟨k₀, h₀⟩ : ∃ k₀, userinit 1 2 = some k₀ := ⟨_, rfl⟩
  have hval : (run move (k₀, 1234) [.pass, .call 0 (.settickets INT_MAX), .call 0 .yield]).map (fun s => scheduler s.1 s.2) =
      some (.error .undefined) := by
    cases h₀
    decide +kernel
  obtain ⟨s, hs, hsched⟩ := Option.map_eq_some_iff.1 hval
  exact ⟨k₀, s, h₀, hs, hsched⟩

end Ostep.Xv6
