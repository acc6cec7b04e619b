import Ostep.Xv6.ProcSpec

/-!
# Address spaces that `clone` shares

`clone` puts the caller's page directory into a second slot, while `wait` and `exec` free the directory of
one process as if it had no other user. `Kin` follows beside the table who is related by `clone`: `fork`
and a successful `exec` start a family, `clone` adds to the caller's. As long as directories are freed only
on behalf of the last member of a family, two processes have one directory exactly when they are related,
and every directory of a process is in use.
-/

namespace Ostep.Xv6

open ProcState Kernel

/-- The table, the family of each slot and the number of the next family. -/
structure Kin where
  k : Kernel
  family : Slot → Nat
  top : Nat

def Kin.first (k₀ : Kernel) : Kin := { k := k₀, family := fun _ => 0, top := 1 }

def isNew (k k' : Kernel) (p : Slot) : Bool := (k.proc p).state = UNUSED ∧ (k'.proc p).state ≠ UNUSED

def Kin.familyAfter (s : Kin) (k' : Kernel) : Slot × Act → Slot → Nat
  | (_, .fork ..), p => if isNew s.k k' p then s.top else s.family p
  | (c, .clone ..), p => if isNew s.k k' p then s.family c else s.family p
  | (c, .exec (.ok _) ..), p => if p = c then s.top else s.family p
  | _, p => s.family p

def Kin.next (s : Kin) (a : Slot × Act) : Option Kin :=
  (Xv6.next s.k a).map fun k' => { k := k', family := s.familyAfter k' a, top := s.top + 1 }

theorem Kin.next_k (s : Kin) (a : Slot × Act) : (s.next a).map (·.k) = Xv6.next s.k a := by
  rw [Kin.next, Option.map_map]
  exact congrFun Option.map_id _

/-- No slot in use other than `p` is of the family of `p`. -/
def Kin.Alone (s : Kin) (p : Slot) : Prop :=
  ∀ q, q ≠ p → (s.k.proc q).state ≠ UNUSED → s.family q ≠ s.family p

/-- The process that `wait` reaps, or that calls `exec` with success, is the last of its family. -/
def LastOfKin (s : Kin) : Slot × Act → Prop
  | (c, .wait) => ∀ p, s.k.waitFinds c = some p → s.Alone p
  | (c, .exec (.ok _) ..) => s.Alone c
  | _ => True

instance (s : Kin) (p : Slot) : Decidable (s.Alone p) :=
  inferInstanceAs (Decidable (∀ q, q ≠ p → (s.k.proc q).state ≠ UNUSED → s.family q ≠ s.family p))

instance (s : Kin) : ∀ a, Decidable (LastOfKin s a)
  | (c, .wait) => inferInstanceAs (Decidable (∀ p, s.k.waitFinds c = some p → s.Alone p))
  | (c, .exec (.ok _) ..) => inferInstanceAs (Decidable (s.Alone c))
  | (_, .exec .none ..) | (_, .exec (.bad _) ..) | (_, .fork ..) | (_, .clone ..) | (_, .exit) | (_, .join _)
  | (_, .kill _) | (_, .settickets _) | (_, .sleep _) | (_, .wakeup _) | (_, .yield) | (_, .sched) => isTrue trivial

/-- The step passes no directory to `freevm` that a process still has. -/
def FreesUnused (k : Kernel) (a : Slot × Act) : Prop :=
  ∀ r, step k a = some r → ∀ d, r.freed = some d → ∀ q, (r.k.proc q).state ≠ UNUSED → (r.k.proc q).pgdir ≠ d

structure KinInv (s : Kin) : Prop where
  live : ∀ p, (s.k.proc p).state ≠ UNUSED → s.k.pgdirs (s.k.proc p).pgdir = true
  kin : ∀ p q, (s.k.proc p).state ≠ UNUSED → (s.k.proc q).state ≠ UNUSED →
    (s.family p = s.family q ↔ (s.k.proc p).pgdir = (s.k.proc q).pgdir)
  bound : ∀ p, (s.k.proc p).state ≠ UNUSED → s.family p < s.top

namespace KinInv

variable {s s' : Kin} {c p : Slot} {a : Act} {r : Result}

theorem of_old (h : KinInv s) (hk : s'.top = s.top + 1)
    (hold : ∀ p, (s'.k.proc p).state ≠ UNUSED → (s.k.proc p).state ≠ UNUSED ∧
      (s'.k.proc p).pgdir = (s.k.proc p).pgdir ∧ s'.family p = s.family p)
    (hd : ∀ p, (s'.k.proc p).state ≠ UNUSED → s'.k.pgdirs (s.k.proc p).pgdir = s.k.pgdirs (s.k.proc p).pgdir) :
    KinInv s' := by
  refine ⟨fun p hp => ?_, fun p q hp hq => ?_, fun p hp => ?_⟩
  · obtain ⟨hu, hg, -⟩ := hold p hp
    rw [hg, hd p hp]
    exact h.live p hu
  · obtain ⟨hpu, hpg, hpf⟩ := hold p hp
    obtain ⟨hqu, hqg, hqf⟩ := hold q hq
    rw [hpg, hqg, hpf, hqf]
    exact h.kin p q hpu hqu
  · obtain ⟨hu, -, hf⟩ := hold p hp
    have := h.bound p hu
    omega

theorem ne_of_free (h : KinInv s) {d : Nat} (hd : s.k.pgdirs d = false) (hp : (s.k.proc p).state ≠ UNUSED) :
    (s.k.proc p).pgdir ≠ d := by
  rintro rfl
  rw [h.live p hp] at hd
  cases hd

theorem of_fresh (h : KinInv s) {d : Nat} (hk : s'.top = s.top + 1) (hd : s.k.pgdirs d = false)
    (hp : (s'.k.proc p).pgdir = d ∧ s'.family p = s.top)
    (hold : ∀ q, q ≠ p → s'.k.proc q = s.k.proc q ∧ s'.family q = s.family q)
    (hlive : ∀ q, (s'.k.proc q).state ≠ UNUSED → s'.k.pgdirs (s'.k.proc q).pgdir = true) : KinInv s' := by
  -- the others keep their directory and family, and neither is the new one
  have hne : ∀ q, q ≠ p → (s'.k.proc q).state ≠ UNUSED → (s'.k.proc q).pgdir ≠ d ∧ s'.family q < s.top := by
    intro q hqp hq
    obtain ⟨hproc, hfam⟩ := hold q hqp
    rw [hproc] at hq ⊢
    rw [hfam]
    exact ⟨h.ne_of_free hd hq, h.bound q hq⟩
  refine ⟨hlive, fun q q' hq hq' => ?_, fun q hq => ?_⟩
  · by_cases hqp : q = p <;> by_cases hqp' : q' = p
    · rw [hqp, hqp']; simp
    · subst hqp
      have := hne q' hqp' hq'
      rw [hp.1, hp.2]
      exact iff_of_false (fun he => by omega) fun he => this.1 he.symm
    · subst hqp'
      have := hne q hqp hq
      rw [hp.1, hp.2]
      exact iff_of_false (fun he => by omega) this.1
    · obtain ⟨h1, h2⟩ := hold q hqp
      obtain ⟨h1', h2'⟩ := hold q' hqp'
      rw [h1] at hq ⊢
      rw [h1'] at hq' ⊢
      rw [h2, h2']
      exact h.kin q q' hq hq'
  · by_cases hqp : q = p
    · subst hqp; omega
    · have := hne q hqp hq; omega

theorem alone_iff (h : KinInv s) (hp : (s.k.proc p).state ≠ UNUSED) :
    s.Alone p ↔ ∀ q, q ≠ p → (s.k.proc q).state ≠ UNUSED → (s.k.proc q).pgdir ≠ (s.k.proc p).pgdir := by
  refine forall_congr' fun q => forall_congr' fun _ => forall_congr' fun hq => ?_
  exact not_congr (h.kin q p hq hp)

end KinInv

section
variable {s : Kin} {c p : Slot} {a : Act} {r : Result}

theorem familyAfter_of_used {k' : Kernel} (hp : (s.k.proc p).state ≠ UNUSED)
    (ha : ∀ d sz entry sp name, a = .exec (.ok d) sz entry sp name → p ≠ c) :
    s.familyAfter k' (c, a) p = s.family p := by
  have hnew : isNew s.k k' p = false := by simp [isNew, hp]
  cases a with
  | fork kstack copy => simp [Kin.familyAfter, hnew]
  | clone kstack fcn stack => simp [Kin.familyAfter, hnew]
  | exec dir sz entry sp name =>
    cases dir with
    | none | bad d => rfl
    | ok d => exact if_neg (ha d sz entry sp name rfl)
  | exit | wait | join | kill | settickets | sleep | wakeup | yield | sched => rfl

theorem lastOfKin_of_idle (h : s.k.Idle c a) : LastOfKin s (c, a) := by
  cases a with
  | wait =>
    intro p hp
    exact absurd (by simpa using findSlot_some hp) (h p)
  | exec dir sz entry sp name =>
    cases dir with
    | none | bad d => trivial
    | ok d => exact absurd rfl (h d)
  | fork | clone | exit | join | kill | settickets | sleep | wakeup | yield | sched => trivial

theorem KinInv.of_kept (h : KinInv s) (ha : ∀ d sz entry sp name, a ≠ .exec (.ok d) sz entry sp name)
    (hold : ∀ {p}, (r.k.proc p).state ≠ UNUSED → Kept (s.k.proc p) (r.k.proc p))
    (hd : ∀ p, (r.k.proc p).state ≠ UNUSED → r.k.pgdirs (s.k.proc p).pgdir = s.k.pgdirs (s.k.proc p).pgdir) :
    KinInv ⟨r.k, s.familyAfter r.k (c, a), s.top + 1⟩ := by
  refine h.of_old rfl (fun p hp => ⟨(hold hp).used, (hold hp).pgdir, ?_⟩) hd
  exact familyAfter_of_used (hold hp).used fun d sz entry sp name he => absurd he (ha d sz entry sp name)

theorem KinInv.forked {d kstack : Nat} (h : KinInv s) (hfree : s.k.pgdirs d = false) (hb : s.k.Born c p d r)
    (hdirs : ∀ e, r.k.pgdirs e = if e = d then true else s.k.pgdirs e) :
    KinInv ⟨r.k, s.familyAfter r.k (c, .fork kstack (.ok d)), s.top + 1⟩ := by
  refine h.of_fresh (p := p) (d := d) rfl hfree ⟨hb.pgdir, ?_⟩ (fun q hq => ⟨hb.others q hq, ?_⟩) fun q hq => ?_
  · exact if_pos (by simp [isNew, hb.free, hb.state])
  · refine if_neg ?_
    simp [isNew, hb.others q hq]
  · show r.k.pgdirs _ = true
    rw [hdirs]
    split
    · rfl
    · next hne =>
      have hqp : q ≠ p := by rintro rfl; exact hne hb.pgdir
      dsimp only at hq ⊢
      rw [hb.others q hqp] at hq ⊢
      exact h.live q hq

theorem KinInv.cloned {kstack fcn stack : Nat} (h : KinInv s) (hc : (s.k.proc c).state = RUNNING)
    (hb : s.k.Born c p (s.k.proc c).pgdir r) (hdirs : r.k.pgdirs = s.k.pgdirs) :
    KinInv ⟨r.k, s.familyAfter r.k (c, .clone kstack fcn stack), s.top + 1⟩ := by
  have hcu : (s.k.proc c).state ≠ UNUSED := by rw [hc]; nofun
  -- the new slot stands for its parent, every other one for itself
  have hrep : ∀ q, (r.k.proc q).state ≠ UNUSED → ∃ q', (s.k.proc q').state ≠ UNUSED ∧
      (r.k.proc q).pgdir = (s.k.proc q').pgdir ∧
      s.familyAfter r.k (c, .clone kstack fcn stack) q = s.family q' := by
    intro q hq
    by_cases hqp : q = p
    · subst hqp
      exact ⟨c, hcu, hb.pgdir, if_pos (by simp [isNew, hb.free, hb.state])⟩
    · have hkept := kept_of_others hb.others hqp hq
      exact ⟨q, hkept.used, hkept.pgdir, familyAfter_of_used hkept.used fun _ _ _ _ _ he => by cases he⟩
  refine ⟨fun q hq => ?_, fun q₁ q₂ hq₁ hq₂ => ?_, fun q hq => ?_⟩
  · obtain ⟨q', hu, hg, -⟩ := hrep q hq
    show r.k.pgdirs _ = true
    rw [hdirs, hg]
    exact h.live q' hu
  · obtain ⟨q₁', hu₁, hg₁, hf₁⟩ := hrep q₁ hq₁
    obtain ⟨q₂', hu₂, hg₂, hf₂⟩ := hrep q₂ hq₂
    dsimp only
    rw [hf₁, hf₂, hg₁, hg₂]
    exact h.kin q₁' q₂' hu₁ hu₂
  · obtain ⟨q', hu, -, hf⟩ := hrep q hq
    dsimp only
    rw [hf]
    exact Nat.lt_succ_of_lt (h.bound q' hu)

theorem KinInv.waited (h : KinInv s) (hw : s.k.Waited c p r) (halone : s.Alone p) :
    KinInv ⟨r.k, s.familyAfter r.k (c, .wait), s.top + 1⟩ := by
  have hp : (s.k.proc p).state ≠ UNUSED := by rw [hw.zombie]; nofun
  refine h.of_kept (fun _ _ _ _ _ he => by cases he) hw.kept fun q hq => ?_
  have hqp : q ≠ p := by rintro rfl; rw [hw.proc] at hq; exact hq rfl
  rw [hw.pgdirs, if_neg]
  exact (h.alone_iff hp).1 halone q hqp (hw.kept hq).used

theorem KinInv.execed {d sz entry sp : Nat} {name : List UInt8} (h : KinInv s) (he : s.k.Execed c d sz r)
    (halone : s.Alone c) : KinInv ⟨r.k, s.familyAfter r.k (c, .exec (.ok d) sz entry sp name), s.top + 1⟩ := by
  have hc : (s.k.proc c).state ≠ UNUSED := by rw [he.running]; nofun
  refine h.of_fresh (p := c) (d := d) rfl he.fresh ⟨he.pgdir, if_pos rfl⟩ (fun q hq => ⟨he.others q hq, if_neg hq⟩)
    fun q hq => ?_
  show r.k.pgdirs (r.k.proc q).pgdir = true
  rw [he.pgdirs]
  by_cases hqc : q = c
  · subst hqc
    rw [he.pgdir, if_neg (fun hd => h.ne_of_free he.fresh hc hd.symm), if_pos rfl]
  · dsimp only at hq
    rw [he.others q hqc] at hq ⊢
    rw [if_neg ((h.alone_iff hc).1 halone q hqc hq), h.live q hq, ite_self]

theorem KinInv.did (h : KinInv s) (hd : s.k.Did c a r) (hlast : LastOfKin s (c, a)) :
    KinInv ⟨r.k, s.familyAfter r.k (c, a), s.top + 1⟩ := by
  cases hd with
  | idle ha hq =>
    refine h.of_kept (fun d _ _ _ _ he => ?_) (fun {p} hp => (hq.proc p).kept hp) fun p _ => hq.pgdirs _
    subst he
    exact ha d rfl
  | forkLost _ hl => exact h.of_kept (fun _ _ _ _ _ he => by cases he) hl.kept fun p _ => hl.pgdirs _
  | cloneLost hl => exact h.of_kept (fun _ _ _ _ _ he => by cases he) hl.kept fun p _ => hl.pgdirs _
  | forked _ hfree hb hdirs => exact h.forked hfree hb hdirs
  | cloned _ hc hb hdirs => exact h.cloned hc hb hdirs
  | exited he => exact h.of_kept (fun _ _ _ _ _ he => by cases he) he.kept fun p _ => by rw [he.pgdirs]
  | waited hw => exact h.waited hw (hlast _ hw.found)
  | joined _ hj => exact h.of_kept (fun _ _ _ _ _ he => by cases he) hj.kept fun p _ => by rw [hj.pgdirs]
  | killed hk => exact h.of_kept (fun _ _ _ _ _ he => by cases he) hk.kept fun p _ => by rw [hk.pgdirs]
  | execed he => exact h.execed he hlast

theorem KinInv.freed_ne (h : KinInv s) (hold : ∀ {p}, (r.k.proc p).state ≠ UNUSED → Kept (s.k.proc p) (r.k.proc p))
    {d : Nat} (hd : s.k.pgdirs d = false) {q : Slot} (hq : (r.k.proc q).state ≠ UNUSED) : (r.k.proc q).pgdir ≠ d := by
  rw [(hold hq).pgdir]
  exact h.ne_of_free hd (hold hq).used

/-- What a step frees is no longer used, exactly when it acts for the last of a family. -/
theorem KinInv.freed_iff (h : KinInv s) (hd : s.k.Did c a r) :
    (∀ d, r.freed = some d → ∀ q, (r.k.proc q).state ≠ UNUSED → (r.k.proc q).pgdir ≠ d) ↔ LastOfKin s (c, a) := by
  have hnone : r.freed = none →
      ∀ d, r.freed = some d → ∀ q, (r.k.proc q).state ≠ UNUSED → (r.k.proc q).pgdir ≠ d := by
    intro hn d hd
    rw [hn] at hd
    cases hd
  cases hd with
  | idle ha hq =>
    refine iff_of_true (fun d hd q hu => ?_) (lastOfKin_of_idle ha)
    exact h.freed_ne (fun {p} hp => (hq.proc p).kept hp) (hq.freed d hd) hu
  | forkLost _ hl => exact iff_of_true (fun d hd q hu => h.freed_ne hl.kept (hl.freed d hd) hu) trivial
  | cloneLost hl => exact iff_of_true (fun d hd q hu => h.freed_ne hl.kept (hl.freed d hd) hu) trivial
  | forked _ _ hb _ => exact iff_of_true (hnone hb.freed) trivial
  | cloned _ _ hb _ => exact iff_of_true (hnone hb.freed) trivial
  | exited he => exact iff_of_true (hnone he.freed) trivial
  | @waited p _ hw =>
    have hp : (s.k.proc p).state ≠ UNUSED := by rw [hw.zombie]; nofun
    constructor
    · intro hf p' hp'
      cases hw.found.symm.trans hp'
      refine (h.alone_iff hp).2 fun q hqp hq => ?_
      rw [← hw.others q hqp] at hq ⊢
      exact hf _ hw.freed q hq
    · intro hlast d hd q hq
      cases hw.freed.symm.trans hd
      have hqp : q ≠ p := by rintro rfl; rw [hw.proc] at hq; exact hq rfl
      rw [hw.others q hqp] at hq ⊢
      exact (h.alone_iff hp).1 (hlast p hw.found) q hqp hq
  | joined _ hj => exact iff_of_true (hnone hj.freed) trivial
  | killed hk => exact iff_of_true (hnone hk.freed) trivial
  | @execed d _ _ _ _ _ he =>
    have hc : (s.k.proc c).state ≠ UNUSED := by rw [he.running]; nofun
    constructor
    · intro hf
      refine (h.alone_iff hc).2 fun q hqc hq => ?_
      rw [← he.others q hqc] at hq ⊢
      exact hf _ he.freed q hq
    · intro hlast e hd q hq
      cases he.freed.symm.trans hd
      by_cases hqc : q = c
      · subst hqc; rw [he.pgdir]; exact (h.ne_of_free he.fresh hc).symm
      · rw [he.others q hqc] at hq ⊢
        exact (h.alone_iff hc).1 hlast q hqc hq

theorem Kin.next_did {s' : Kin} (h : s.next (c, a) = some s') :
    ∃ r, step s.k (c, a) = some r ∧ s.k.Did c a r ∧ s' = ⟨r.k, s.familyAfter r.k (c, a), s.top + 1⟩ := by
  obtain ⟨k', hk', rfl⟩ := Option.map_eq_some_iff.1 h
  obtain ⟨r, hr, rfl⟩ := Option.map_eq_some_iff.1 hk'
  exact ⟨r, hr, step_did hr, rfl⟩

theorem Started.kinInv {d : Nat} {k : Kernel} (h : Started d k) : KinInv (.first k) := by
  have h0 : ∀ p, (k.proc p).state ≠ UNUSED → p = 0 := by
    intro p hp
    by_contra hne
    rw [h.others p hne] at hp
    exact hp rfl
  refine ⟨fun p hp => ?_, fun p q hp hq => ?_, fun p _ => Nat.zero_lt_one⟩
  · cases h0 p hp
    simp [Kin.first, h.pgdirs, h.pgdir]
  · cases h0 p hp
    cases h0 q hq
    simp

end

/-- Along every run from the first process, no step frees a directory that a process still has exactly
when each `wait` that reaps and each successful `exec` acts for the last of a family; then the directory
of every process that can run is in use. -/
theorem freesUnused_along {kstack d : Nat} {k₀ k : Kernel} {l : List (Slot × Act)}
    (h₀ : userinit kstack d = some k₀) (hrun : run next k₀ l = some k) :
    (Along Kin.next LastOfKin (.first k₀) l ↔ Along next FreesUnused k₀ l) ∧
      (Along Kin.next LastOfKin (.first k₀) l → ∀ p,
        (k.proc p).state = RUNNABLE ∨ (k.proc p).state = RUNNING ∨ (k.proc p).state = SLEEPING →
          k.pgdirs (k.proc p).pgdir = true) := by
  have hinit := (userinit_started h₀).1.kinInv
  have hstep : ∀ s a s', KinInv s → LastOfKin s a → s.next a = some s' → KinInv s' := by
    rintro s ⟨c, a⟩ s' hs hlast hn
    obtain ⟨r, -, hd, rfl⟩ := Kin.next_did hn
    exact hs.did hd hlast
  obtain ⟨t, ht, rfl⟩ : ∃ t, run Kin.next (.first k₀) l = some t ∧ t.k = k := by
    rw [← Option.map_eq_some_iff, run_comap Kin.next_k]
    exact hrun
  refine ⟨?_, fun hl p hp => ?_⟩
  · refine (along_congr hstep ?_ hinit ht).trans (along_comap Kin.next_k (.first k₀) l).symm
    rintro s ⟨c, a⟩ s' hs hn
    obtain ⟨r, hr, hd, rfl⟩ := Kin.next_did hn
    rw [← hs.freed_iff hd, FreesUnused, hr]
    simp
  · refine (Along.inv hstep hinit hl ht).live p fun hu => ?_
    rw [hu] at hp
    rcases hp with hp | hp | hp <;> cases hp

theorem freesUnused_along_fork : ∃ k₀ k, userinit 1 2 = some k₀ ∧
    run next k₀ [(0, .sched), (0, .fork 5 (.ok 7)), (1, .sched), (1, .exit), (0, .wait)] = some k ∧
    (k.proc 0).state = RUNNING ∧ k.pgdirs (k.proc 0).pgdir = true := by
  obtain ⟨k₀, h₀⟩ : ∃ k₀, userinit 1 2 = some k₀ := ⟨_, rfl⟩
  have hrun : (run next k₀ [(0, .sched), (0, .fork 5 (.ok 7)), (1, .sched), (1, .exit), (0, .wait)]).map
      (fun k => (k.proc 0).state) = some RUNNING := by
    cases h₀
    decide +kernel
  obtain ⟨k, hk, hstate⟩ := Option.map_eq_some_iff.1 hrun
  refine ⟨k₀, k, h₀, hk, hstate, (freesUnused_along h₀ hk).2 ?_ 0 (.inr (.inl hstate))⟩
  cases h₀
  decide +kernel

/-- A thread exits and the process that made it calls `wait`, which frees the directory of its caller. -/
theorem not_freesUnused_clone : ∃ k₀ k r, userinit 1 2 = some k₀ ∧
    run next k₀ [(0, .sched), (0, .clone 5 0 0), (1, .sched), (1, .exit)] = some k ∧
    step k (0, .wait) = some r ∧ (r.k.proc 0).state = RUNNING ∧ r.k.pgdirs (r.k.proc 0).pgdir = false ∧
    ¬ FreesUnused k (0, .wait) := by
  obtain ⟨k₀, h₀⟩ : ∃ k₀, userinit 1 2 = some k₀ := ⟨_, rfl⟩
  have hrun : (run next k₀ [(0, .sched), (0, .clone 5 0 0), (1, .sched), (1, .exit)]).bind (fun k =>
      (step k (0, .wait)).map fun r => ((r.k.proc 0).state, (r.k.proc 0).pgdir, r.k.pgdirs 2, r.freed)) =
      some (RUNNING, 2, false, some 2) := by
    cases h₀
    decide +kernel
  obtain ⟨k, hk, hr⟩ := Option.bind_eq_some_iff.1 hrun
  obtain ⟨r, hr, he⟩ := Option.map_eq_some_iff.1 hr
  simp only [Prod.mk.injEq] at he
  obtain ⟨hstate, hdir, hfreed, hd⟩ := he
  refine ⟨k₀, k, r, h₀, hk, hr, hstate, by rw [hdir, hfreed], fun hf => ?_⟩
  exact hf r hr 2 hd 0 (by rw [hstate]; nofun) hdir

end Ostep.Xv6
