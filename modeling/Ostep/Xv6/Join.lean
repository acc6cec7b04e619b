import Ostep.Xv6.SlotClean

/-!
# The scan of `join`

`join` skips a slot when `p->parent != cp && p->parent->pgdir != p->pgdir`. `joinScan` is its inner `for`
loop, with a note of whether it has read `pgdir` through a null `parent`. Slot 0 holds the first process
from boot on, whose parent is null, so every scan does so.
-/

namespace Ostep.Xv6

open ProcState Kernel

/-- The outcome of a scan: a slot to reap, if any, and whether a null parent was dereferenced. -/
structure Scan where
  found : Option Slot
  nullRead : Bool
deriving DecidableEq

/-- The test on slot `p` reads `p->parent->pgdir` with `p->parent` null. -/
def readsNull (k : Kernel) (c p : Slot) : Bool := (k.proc p).parent ≠ some c ∧ (k.proc p).parent = none

/-- The `for` loop of `join` over the slots `ps`. -/
def joinScan (k : Kernel) (c : Slot) (word4 : Nat) : List Slot → Scan
  | [] => ⟨none, false⟩
  | p :: ps =>
    if k.joinTakes c word4 p ∧ (k.proc p).state = ZOMBIE then ⟨some p, readsNull k c p⟩
    else
      let s := joinScan k c word4 ps
      ⟨s.found, readsNull k c p || s.nullRead⟩

theorem joinScan_found (k : Kernel) (c : Slot) (word4 : Nat) (ps : List Slot) :
    (joinScan k c word4 ps).found = ps.find? fun p => k.joinTakes c word4 p ∧ (k.proc p).state = ZOMBIE := by
  induction ps with
  | nil => rfl
  | cons p ps ih =>
    rw [joinScan]
    by_cases hp : k.joinTakes c word4 p ∧ (k.proc p).state = ZOMBIE
    · rw [if_pos hp, List.find?_cons_of_pos (by simpa using hp)]
    · rw [if_neg hp, List.find?_cons_of_neg (by simpa using hp)]; exact ih

/-- `join` acts on what the scan of the whole table has found. -/
theorem join_eq_joinScan (k : Kernel) (c : Slot) (word4 : Nat) :
    k.join c word4 = match (joinScan k c word4 (List.finRange NPROC)).found with
      | some p => { k := k.set p fun q => { q with state := UNUSED }, ret := some (k.proc p).pid }
      | none => { k := k.sleep c (.proc c), ret := none } := by
  rw [joinScan_found]
  rfl

theorem joinScan_cons_nullRead {k : Kernel} {c p : Slot} {word4 : Nat} {ps : List Slot}
    (hz : (k.proc p).state ≠ ZOMBIE) (hn : readsNull k c p = true) :
    (joinScan k c word4 (p :: ps)).nullRead = true := by
  rw [joinScan, if_neg fun h => hz h.2]
  simp [hn]

def IsThread (k : Kernel) (c p : Slot) : Prop :=
  (k.proc p).state ≠ UNUSED ∧ (k.proc p).parent = some c ∧ (k.proc p).pgdir = (k.proc c).pgdir

/-- What a scan of `join` is for. -/
structure JoinOk (k : Kernel) (c : Slot) (word4 : Nat) : Prop where
  noNull : (joinScan k c word4 (List.finRange NPROC)).nullRead = false
  reaps : ∀ p, (joinScan k c word4 (List.finRange NPROC)).found = some p →
    (k.proc p).state = ZOMBIE ∧ IsThread k c p ∧ (k.join c word4).ret = some (k.proc p).pid
  fails : (joinScan k c word4 (List.finRange NPROC)).found = none →
    ((∀ p, ¬ IsThread k c p) ∨ (k.proc c).killed ≠ 0) → (k.join c word4).ret = some (-1)
  sleeps : (joinScan k c word4 (List.finRange NPROC)).found = none → (∃ p, IsThread k c p) →
    (k.proc c).killed = 0 → (k.join c word4).ret = none

/-- The first process stays in slot 0 and never has a parent. -/
structure InitAlive (k : Kernel) : Prop where
  initproc : k.initproc = 0
  parent : (k.proc 0).parent = none
  used : (k.proc 0).state ≠ UNUSED
  alive : (k.proc 0).state ≠ ZOMBIE

namespace InitAlive

variable {k : Kernel} {c : Slot} {a : Act} {r : Result}

theorem others (h : InitAlive k) {p : Slot} (hi : r.k.initproc = k.initproc) (ho : ∀ q, q ≠ p → r.k.proc q = k.proc q)
    (hp : (k.proc p).state = UNUSED ∨ (k.proc p).state = ZOMBIE) : InitAlive r.k := by
  have h0 : (0 : Slot) ≠ p := by
    rintro rfl
    exact hp.elim h.used h.alive
  exact ⟨hi.trans h.initproc, by rw [ho 0 h0, h.parent], by rw [ho 0 h0]; exact h.used, by rw [ho 0 h0]; exact h.alive⟩

theorem same (h : InitAlive k) (hi : r.k.initproc = k.initproc) (hs : Same (k.proc 0) (r.k.proc 0)) : InitAlive r.k :=
  ⟨hi.trans h.initproc, hs.parent.trans h.parent, fun hu => h.used (hs.unused.1 hu), fun hz => h.alive (hs.zombie.1 hz)⟩

theorem did (h : InitAlive k) (hd : k.Did c a r) : InitAlive r.k := by
  cases hd with
  | idle _ hq => exact h.same hq.initproc (hq.proc 0)
  | forkLost _ hl => exact h.others hl.initproc hl.others (.inl hl.free)
  | cloneLost hl => exact h.others hl.initproc hl.others (.inl hl.free)
  | forked _ _ hb _ => exact h.others hb.initproc hb.others (.inl hb.free)
  | cloned _ _ hb _ => exact h.others hb.initproc hb.others (.inl hb.free)
  | exited he =>
    have hc : (0 : Slot) ≠ c := fun hc => he.caller (hc ▸ h.initproc.symm)
    obtain ⟨s, hs, hp⟩ := he.proc 0
    refine ⟨he.initproc.trans h.initproc, ?_, ?_, ?_⟩
    · rw [hp]; simp [h.parent]
    · rw [hp]; simp only [if_neg hc]; exact fun hu => h.used (hs.unused_iff.1 hu)
    · rw [hp]; simp only [if_neg hc]; exact fun hz => h.alive (hs.zombie_iff.1 hz)
  | waited hw => exact h.others hw.initproc hw.others (.inr hw.zombie)
  | joined _ hj => exact h.others hj.initproc hj.others (.inr hj.zombie)
  | @killed pid p _ hk =>
    obtain ⟨s, hs, hp⟩ := hk.proc
    by_cases h0 : (0 : Slot) = p
    · subst h0
      refine ⟨hk.initproc.trans h.initproc, ?_, ?_, ?_⟩
      · rw [hp]; exact h.parent
      · rw [hp]; exact fun hu => h.used (hs.unused_iff.1 hu)
      · rw [hp]; exact fun hz => h.alive (hs.zombie_iff.1 hz)
    · exact h.same hk.initproc (hk.others 0 h0 ▸ .rfl)
  | execed he =>
    by_cases h0 : (0 : Slot) = c
    · subst h0
      exact ⟨he.initproc.trans h.initproc, he.caller.parent.trans h.parent, fun hu => h.used (he.caller.unused.1 hu),
        fun hz => h.alive (he.caller.zombie.1 hz)⟩
    · exact h.same he.initproc (he.others 0 h0 ▸ .rfl)

theorem run {kstack d : Nat} {k₀ : Kernel} {l : List (Slot × Act)} (h₀ : userinit kstack d = some k₀)
    (hrun : run next k₀ l = some k) : InitAlive k := by
  have hs := (userinit_started h₀).1
  refine run_inv (I := InitAlive) ?_ ⟨hs.initproc, hs.parent, ?_, ?_⟩ hrun
  · rintro s ⟨c, a⟩ s' hi hn
    obtain ⟨r, hd, rfl⟩ := next_did hn
    exact hi.did hd
  · rw [hs.state]; nofun
  · rw [hs.state]; nofun

/-- The first slot of every scan dereferences a null parent. -/
theorem nullRead (h : InitAlive k) (c : Slot) (word4 : Nat) :
    (joinScan k c word4 (List.finRange NPROC)).nullRead = true := by
  have h0 : readsNull k c 0 = true := by simp [readsNull, h.parent]
  have hl : List.finRange NPROC = 0 :: (List.finRange 63).map Fin.succ := List.finRange_succ
  rw [hl]
  exact joinScan_cons_nullRead h.alive h0

end InitAlive

theorem Pids.run {kstack d : Nat} {k₀ k : Kernel} {l : List (Slot × Act)} (h₀ : userinit kstack d = some k₀)
    (hrun : run next k₀ l = some k) : Pids k := by
  refine run_inv (I := Pids) ?_ (userinit_started h₀).1.pids hrun
  rintro s ⟨c, a⟩ s' hp hn
  obtain ⟨r, hd, rfl⟩ := next_did hn
  exact hp.did hd

theorem Pids.join_ret {k : Kernel} (h : Pids k) (c : Slot) (word4 : Nat) : (k.join c word4).ret ≠ some (-1) := by
  unfold join
  cases hf : findSlot fun p => k.joinTakes c word4 p ∧ (k.proc p).state = ZOMBIE with
  | none => nofun
  | some p =>
    have hp : k.joinTakes c word4 p ∧ (k.proc p).state = ZOMBIE := by simpa using findSlot_some hf
    have hpid := h.used p (by rw [hp.2]; nofun)
    intro hret
    have : (k.proc p).pid = -1 := Option.some.inj hret
    omega

/-- In every reachable table, every scan of `join` reads through a null parent and none returns -1, so
none does what it is for. -/
theorem not_joinOk {kstack d : Nat} {k₀ k : Kernel} {l : List (Slot × Act)} (h₀ : userinit kstack d = some k₀)
    (hrun : run next k₀ l = some k) (c : Slot) (word4 : Nat) :
    (joinScan k c word4 (List.finRange NPROC)).nullRead = true ∧ (k.join c word4).ret ≠ some (-1) ∧
      ¬ JoinOk k c word4 := by
  have hnull := (InitAlive.run h₀ hrun).nullRead c word4
  refine ⟨hnull, (Pids.run h₀ hrun).join_ret c word4, fun h => ?_⟩
  rw [h.noNull] at hnull
  cases hnull

theorem not_joinOk_first : ∃ k₀, userinit 1 2 = some k₀ ∧ run next k₀ [] = some k₀ ∧ ¬ JoinOk k₀ 0 0 := by
  obtain ⟨k₀, h₀⟩ : ∃ k₀, userinit 1 2 = some k₀ := ⟨_, rfl⟩
  exact ⟨k₀, h₀, rfl, (not_joinOk (l := []) h₀ rfl 0 0).2.2⟩

/-- The first process forks a child in slot 1, which exits; `join` then reads through the null parent of
slot 0 and reaps the child, which is not a thread. -/
theorem not_joinOk_forked_child : ∃ k₀ k, userinit 1 2 = some k₀ ∧
    run next k₀ [(0, .sched), (0, .fork 5 (.ok 7)), (1, .sched), (1, .exit)] = some k ∧
    joinScan k 0 0 (List.finRange NPROC) = ⟨some 1, true⟩ ∧ (k.join 0 0).ret = some 2 ∧
    (k.proc 1).pgdir ≠ (k.proc 0).pgdir ∧ ¬ JoinOk k 0 0 := by
  obtain ⟨k₀, h₀⟩ : ∃ k₀, userinit 1 2 = some k₀ := ⟨_, rfl⟩
  have hrun : (run next k₀ [(0, .sched), (0, .fork 5 (.ok 7)), (1, .sched), (1, .exit)]).map (fun k =>
      (joinScan k 0 0 (List.finRange NPROC), (k.join 0 0).ret, (k.proc 1).pgdir, (k.proc 0).pgdir)) =
      some (⟨some 1, true⟩, some 2, 7, 2) := by
    cases h₀
    decide +kernel
  obtain ⟨k, hk, he⟩ := Option.map_eq_some_iff.1 hrun
  simp only [Prod.mk.injEq] at he
  obtain ⟨hscan, hret, h1, h0⟩ := he
  refine ⟨k₀, k, h₀, hk, hscan, hret, by rw [h1, h0]; decide, fun h => ?_⟩
  have := h.noNull
  rw [hscan] at this
  cases this

end Ostep.Xv6
