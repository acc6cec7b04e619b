import Mathlib
import Ostep.Lib.Affine
import Ostep.Xv6.Scheduler

/-!
# What the lottery draws

The generator comes to each of its 134456 seeds, so a pass over `total` tickets can draw every `r ≤ total` below 134456. That is one
value more than there are tickets: it goes to the first RUNNABLE slot, and only one ticket vector hides it (`fair_iff`). Each pass
over a table with a RUNNABLE process starts exactly one (`pass_selects`).
-/

namespace Ostep.Xv6

open ProcState

def seedAfter : Nat → Except Stop Int
  | 0 => .ok 1234
  | n + 1 => seedAfter n >>= nextSeed

/-- The scheduler can draw `r` for `total` tickets. -/
def Drawable (total r : Int) : Prop := ∃ n seed, seedAfter (n + 1) = .ok seed ∧ draw seed total = .ok r

def selecting (k : Kernel) (p : Slot) : Set Int :=
  {r | Drawable (runnableTotal k) r ∧ pickFrom k r (List.finRange NPROC) 0 = .ok (some p)}

/-- Each RUNNABLE process is started by as many draws as it holds tickets. -/
def Fair (k : Kernel) : Prop := ∀ p, (k.proc p).state = RUNNABLE → ((selecting k p).ncard : Int) = (k.proc p).tickets

def FirstRunnable (k : Kernel) (p : Slot) : Prop := (k.proc p).state = RUNNABLE ∧ ∀ q < p, (k.proc q).state ≠ RUNNABLE

structure Pass where
  seed : Int
  selected : Option Slot
  k : Kernel

/-- One pass up to the context switch: the selected process gets the state RUNNING, and `ticks++`. -/
def pass (k : Kernel) (seed : Int) : Except Stop Pass := do
  let (seed, p) ← scheduler k seed
  match p with
  | none => return { seed := seed, selected := none, k := k }
  | some p => return {
      seed := seed
      selected := some p
      k := k.set p fun q => { q with state := RUNNING, ticks := toInt32 (toUint32 (q.ticks + 1)) } }

def seedFrom (seed : Int) (ks : List Kernel) : Except Stop Int :=
  ks.foldlM (fun seed k => Pass.seed <$> pass k seed) seed

/-- No RUNNABLE process holds a negative number of tickets, and one more than all of them fits in an `int`. -/
structure Countable (k : Kernel) : Prop where
  nonneg : ∀ p, (k.proc p).state = RUNNABLE → 0 ≤ (k.proc p).tickets
  total : runnableTotal k < INT_MAX

variable {k : Kernel} {seed total r : Int} {p : Slot}

/-! ## The generator -/

theorem nextSeed_eq (h : IsSeed seed) : nextSeed seed = .ok ((8121 * seed + 28411) % 134456) := by
  obtain ⟨hlo, hhi⟩ := h
  unfold nextSeed mulInt addInt modInt INT_MAX
  rw [if_pos (by omega), ok_bind, if_pos (by omega), ok_bind, if_neg (by omega), Int.tmod_eq_emod_of_nonneg (by omega)]

def affine (x : ZMod 134456) : ZMod 134456 := 8121 * x + 28411

theorem seedAfter_ok (n : Nat) : ∃ seed, seedAfter n = .ok seed ∧ IsSeed seed ∧ (seed : ZMod 134456) = affine^[n] 1234 := by
  induction n with
  | zero => exact ⟨1234, rfl, by unfold IsSeed; omega, rfl⟩
  | succ n ih =>
    obtain ⟨seed, hseed, hIs, hcast⟩ := ih
    refine ⟨(8121 * seed + 28411) % 134456, ?_, ⟨Int.emod_nonneg _ (by decide), Int.emod_lt_of_pos _ (by decide)⟩, ?_⟩
    · rw [seedAfter, hseed, ok_bind, nextSeed_eq hIs]
    · rw [Function.iterate_succ_apply', ← hcast, affine]
      have hmod := ZMod.intCast_mod (8121 * seed + 28411) 134456
      push_cast at hmod ⊢
      exact hmod

theorem eight_dvd_of_sum {n : Nat} (h : 8 ∣ ∑ i ∈ Finset.range n, 8121 ^ i) : 8 ∣ n := by
  have hmod : ∀ n, (∑ i ∈ Finset.range n, 8121 ^ i) % 8 = n % 8 := by
    intro n
    induction n with
    | zero => rfl
    | succ n ih =>
      have hpow : 8121 ^ n % 8 = 1 := by rw [Nat.pow_mod]; simp
      rw [Finset.sum_range_succ, Nat.add_mod, ih, hpow]
      omega
  have := hmod n
  omega

theorem seven_pow_dvd_of_sum {n : Nat} (h : 7 ^ 5 ∣ ∑ i ∈ Finset.range n, 8121 ^ i) : 7 ^ 5 ∣ n := by
  rcases Nat.eq_zero_or_pos n with rfl | hn
  · exact dvd_zero _
  have : Fact (Nat.Prime 7) := ⟨by norm_num⟩
  have hodd : Odd 7 := by decide
  -- The sum times `8121 - 1` is `8121 ^ n - 1`, and 7 divides `8121 - 1` once.
  have hgeom : (∑ i ∈ Finset.range n, 8121 ^ i) * (8121 - 1) = 8121 ^ n - 1 ^ n := by
    rw [one_pow]
    exact geom_sum_mul_of_one_le (by decide) n
  have hval : padicValNat 7 (8121 ^ n - 1 ^ n) = padicValNat 7 (8121 - 1) + padicValNat 7 n :=
    padicValNat.pow_sub_pow hodd (by decide) (by decide) (by decide) hn.ne'
  have hone : padicValNat 7 (8121 - 1) < 2 := by
    by_contra hge
    have := (padicValNat_dvd_iff_le (p := 7) (by decide)).2 (Nat.not_lt.1 hge)
    revert this
    decide
  have hsix : 7 ^ 6 ∣ 8121 ^ n - 1 ^ n := by
    rw [← hgeom]
    exact mul_dvd_mul h (by decide)
  have hpos : 8121 ^ n - 1 ^ n ≠ 0 := by
    have := Nat.one_lt_pow hn.ne' (show 1 < 8121 by decide)
    rw [one_pow]
    omega
  have hle := (padicValNat_dvd_iff_le hpos).1 hsix
  exact (padicValNat_dvd_iff_le hn.ne').2 (by omega)

theorem dvd_of_sum {n : Nat} (h : ∑ i ∈ Finset.range n, (8121 : ZMod 134456) ^ i = 0) : 134456 ∣ n := by
  have hdvd : 134456 ∣ ∑ i ∈ Finset.range n, 8121 ^ i := by
    rw [← ZMod.natCast_eq_zero_iff]
    push_cast
    exact h
  have hfactors : 134456 = 8 * 7 ^ 5 := by norm_num
  rw [hfactors] at hdvd ⊢
  exact Nat.Coprime.mul_dvd_of_dvd_of_dvd (by norm_num) (eight_dvd_of_sum (dvd_of_mul_right_dvd hdvd))
    (seven_pow_dvd_of_sum (dvd_of_mul_left_dvd hdvd))

theorem exists_seedAfter (h : IsSeed seed) : ∃ n, seedAfter (n + 1) = .ok seed := by
  have hunit : IsUnit (8121 : ZMod 134456) := (ZMod.isUnit_iff_coprime 8121 134456).2 (by norm_num)
  -- The orbit starts at the second seed: the first pass draws with that one.
  have hdiff : IsUnit ((8121 - 1) * (affine 1234) + 28411) := by
    have := (ZMod.isUnit_iff_coprime (8120 * (8121 * 1234 + 28411) + 28411) 134456).2 (by norm_num)
    unfold affine
    push_cast at this
    convert this using 3
    norm_num
  obtain ⟨n, hn⟩ := affine_surjective hunit hdiff (fun _ => dvd_of_sum) (seed : ZMod 134456)
  refine ⟨n, ?_⟩
  obtain ⟨seed', hseed', hIs, hcast⟩ := seedAfter_ok (n + 1)
  have heq : (seed' : ZMod 134456) = seed := by
    rw [hcast, Function.iterate_succ_apply]
    exact hn
  have hmod := (ZMod.intCast_eq_intCast_iff' _ _ _).1 heq
  obtain ⟨hlo, hhi⟩ := h
  obtain ⟨hlo', hhi'⟩ := hIs
  have : seed' = seed := by omega
  rw [hseed', this]

/-- What can be drawn: one value more than there are tickets. -/
theorem drawable_iff (htotal : 0 < total) (hmax : total < INT_MAX) : Drawable total r ↔ 0 ≤ r ∧ r ≤ total ∧ r < 134456 := by
  have hdraw : ∀ {seed}, IsSeed seed → draw seed total = .ok (seed % (total + 1)) := by
    intro seed hseed
    rw [draw, if_pos htotal.ne', incInt, if_pos hmax, ok_bind, modInt, if_neg (by omega), Int.tmod_eq_emod_of_nonneg hseed.1]
  constructor
  · rintro ⟨n, seed, hseed, hr⟩
    obtain ⟨seed', hseed', hIs, -⟩ := seedAfter_ok (n + 1)
    rw [hseed] at hseed'
    cases hseed'
    rw [hdraw hIs] at hr
    cases hr
    have hlo := Int.emod_nonneg seed (show total + 1 ≠ 0 by omega)
    have hhi := Int.emod_lt_of_pos seed (show 0 < total + 1 by omega)
    have hdiv := Int.mul_nonneg (show 0 ≤ total + 1 by omega) (Int.ediv_nonneg hIs.1 (show 0 ≤ total + 1 by omega))
    have heq := Int.mul_ediv_add_emod seed (total + 1)
    have := hIs.2
    exact ⟨hlo, by omega, by omega⟩
  · rintro ⟨hlo, hle, hhi⟩
    obtain ⟨n, hn⟩ := exists_seedAfter ⟨hlo, hhi⟩
    refine ⟨n, r, hn, ?_⟩
    rw [hdraw ⟨hlo, hhi⟩, Int.emod_eq_of_lt hlo (by omega)]

theorem not_drawable (hmax : INT_MAX ≤ total) : ¬ Drawable total r := by
  rintro ⟨n, seed, -, hr⟩
  rw [draw, if_pos (by unfold INT_MAX at hmax; omega), incInt, if_neg (by omega)] at hr
  cases hr

/-! ## The second loop -/

theorem finRange_split (p : Slot) : ∃ l l', List.finRange NPROC = l ++ p :: l' ∧ (∀ q ∈ l, q < p) ∧ ∀ q ∈ l', p < q := by
  obtain ⟨l, l', hl⟩ := List.append_of_mem (List.mem_finRange p)
  have hsorted := List.pairwise_lt_finRange NPROC
  rw [hl, List.pairwise_append, List.pairwise_cons] at hsorted
  obtain ⟨-, ⟨hafter, -⟩, hbefore⟩ := hsorted
  exact ⟨l, l', hl, fun q hq => hbefore q hq p List.mem_cons_self, hafter⟩

theorem pickFrom_skip {l l' : List Slot} {count : Int} (h : ∀ q ∈ l, (k.proc q).state ≠ RUNNABLE) :
    pickFrom k r (l ++ l') count = pickFrom k r l' count := by
  induction l with
  | nil => rfl
  | cons q l ih =>
    rw [List.cons_append, pickFrom, if_pos (h q List.mem_cons_self)]
    exact ih fun q hq => h q (List.mem_cons_of_mem _ hq)

theorem pickFrom_mem {ps : List Slot} {count : Int} (h : pickFrom k r ps count = .ok (some p)) : p ∈ ps ∧ (k.proc p).state = RUNNABLE := by
  induction ps generalizing count with
  | nil => cases h
  | cons q ps ih =>
    rw [pickFrom] at h
    split at h
    · exact ⟨List.mem_cons_of_mem _ (ih h).1, (ih h).2⟩
    · next hq =>
      obtain ⟨count', -, h⟩ := bind_ok h
      split at h
      · cases h
        exact ⟨List.mem_cons_self, not_not.1 hq⟩
      · exact ⟨List.mem_cons_of_mem _ (ih h).1, (ih h).2⟩

theorem pickFrom_first (hp : FirstRunnable k p) (hlo : 0 ≤ (k.proc p).tickets) (hhi : (k.proc p).tickets ≤ INT_MAX) :
    pickFrom k r (List.finRange NPROC) 0 = .ok (some p) ↔ r ≤ (k.proc p).tickets := by
  obtain ⟨l, l', hl, hbefore, hafter⟩ := finRange_split p
  rw [hl, pickFrom_skip fun q hq => hp.2 q (hbefore q hq), pickFrom, if_neg (not_not.2 hp.1), addInt, Int.zero_add,
    if_pos ⟨by unfold INT_MAX; omega, hhi⟩, ok_bind]
  split
  · next hle => exact iff_of_true rfl hle
  · next hlt =>
    refine iff_of_false (fun h => ?_) hlt
    exact lt_irrefl p (hafter p (pickFrom_mem h).1)

theorem pickFrom_some (h : ∀ p, (k.proc p).state = RUNNABLE → 0 ≤ (k.proc p).tickets) {ps : List Slot} {count : Int} (hcount : 0 ≤ count)
    (hr : r ≤ count + (ps.map fun p => runnableTickets (k.proc p)).sum)
    (hmax : count + (ps.map fun p => runnableTickets (k.proc p)).sum ≤ INT_MAX) (hps : ∃ p ∈ ps, (k.proc p).state = RUNNABLE) :
    ∃ p, pickFrom k r ps count = .ok (some p) := by
  obtain ⟨o, ho⟩ := pickFrom_ok h r ps hcount hmax
  cases o with
  | some p => exact ⟨p, ho⟩
  | none =>
    exfalso
    induction ps generalizing count with
    | nil =>
      obtain ⟨p, hp, -⟩ := hps
      cases hp
    | cons p ps ih =>
      have hrest := sum_runnableTickets_nonneg h ps
      rw [List.map_cons, List.sum_cons, ← Int.add_assoc] at hr hmax
      rw [pickFrom] at ho
      by_cases hp : (k.proc p).state = RUNNABLE
      · have htickets := h p hp
        rw [runnableTickets, if_pos hp] at hr hmax
        rw [if_neg (not_not.2 hp)] at ho
        obtain ⟨count', hcount', ho⟩ := bind_ok ho
        rw [addInt, if_pos ⟨by unfold INT_MAX; omega, by omega⟩] at hcount'
        cases hcount'
        split at ho
        · cases ho
        · -- Tickets are left behind `p`, so there is a RUNNABLE process behind it.
          next hlt =>
          refine ih (by omega) hr hmax ?_ ho
          by_contra hnone
          have hzero : (ps.map fun p => runnableTickets (k.proc p)).sum = 0 := by
            refine List.sum_eq_zero fun x hx => ?_
            obtain ⟨q, hq, rfl⟩ := List.mem_map.1 hx
            exact if_neg fun hs => hnone ⟨q, hq, hs⟩
          omega
      · rw [runnableTickets, if_neg hp, Int.add_zero] at hr hmax
        rw [if_pos hp] at ho
        obtain ⟨q, hq, hs⟩ := hps
        rcases List.mem_cons.1 hq with rfl | hq
        · exact hp hs
        · exact ih hcount hr hmax ⟨q, hq, hs⟩ ho

/-! ## Shares -/

theorem exists_firstRunnable (h : ∃ p, (k.proc p).state = RUNNABLE) : ∃ p, FirstRunnable k p := by
  obtain ⟨p, hp, hmin⟩ := WellFounded.has_min wellFounded_lt {p | (k.proc p).state = RUNNABLE} h
  exact ⟨p, hp, fun q hq hs => hmin q hs hq⟩

theorem exists_runnable (h : 0 < runnableTotal k) : ∃ p, (k.proc p).state = RUNNABLE := by
  by_contra hnone
  have : runnableTotal k = 0 := Finset.sum_eq_zero fun p _ => if_neg fun hs => hnone ⟨p, hs⟩
  omega

theorem tickets_le_total (h : ∀ p, (k.proc p).state = RUNNABLE → 0 ≤ (k.proc p).tickets) (hp : (k.proc p).state = RUNNABLE) :
    (k.proc p).tickets ≤ runnableTotal k := by
  have hle := Finset.single_le_sum (f := fun p => runnableTickets (k.proc p)) (fun q _ => runnableTickets_nonneg (h q)) (Finset.mem_univ p)
  simp only [runnableTickets, if_pos hp] at hle
  exact hle

section
variable (h : ∀ p, (k.proc p).state = RUNNABLE → 0 ≤ (k.proc p).tickets) (hpos : 0 < runnableTotal k) (hmax : runnableTotal k < INT_MAX)
  (hp : FirstRunnable k p)
include h hpos hmax hp

theorem selecting_first : selecting k p = Set.Icc 0 (min (k.proc p).tickets 134455) := by
  have hle := tickets_le_total h hp.1
  ext r
  rw [selecting, Set.mem_ofPred_eq, drawable_iff hpos hmax, pickFrom_first hp (h p hp.1) (by omega), Set.mem_Icc]
  omega

theorem ncard_selecting_first : ((selecting k p).ncard : Int) = min ((k.proc p).tickets + 1) 134456 := by
  have := h p hp.1
  rw [selecting_first h hpos hmax hp, ← Finset.coe_Icc, Set.ncard_coe_finset, Int.card_Icc]
  omega

theorem selecting_other {q : Slot} (hq : q ≠ p) (ht : 134455 ≤ (k.proc p).tickets) : selecting k q = ∅ := by
  have hle := tickets_le_total h hp.1
  refine Set.eq_empty_of_forall_notMem fun r hr => ?_
  obtain ⟨hdraw, hpick⟩ := hr
  rw [drawable_iff hpos hmax] at hdraw
  rw [(pickFrom_first hp (h p hp.1) (by omega)).2 (by omega)] at hpick
  cases hpick
  exact hq rfl

end

/-- The draws are as many as the tickets for one ticket vector only: as one value more is drawn than there are tickets, the first
RUNNABLE process gets one share too many, unless the 134456 values of the generator run out at its own last ticket. -/
theorem fair_iff (hpos : 0 < runnableTotal k) : Fair k ↔ ∃ p, FirstRunnable k p ∧ (k.proc p).tickets = 134456 ∧
    ∀ q, q ≠ p → (k.proc q).state = RUNNABLE → (k.proc q).tickets = 0 := by
  constructor
  · intro hfair
    have h : ∀ p, (k.proc p).state = RUNNABLE → 0 ≤ (k.proc p).tickets := by
      intro p hp
      rw [← hfair p hp]
      exact Int.natCast_nonneg _
    have hmax : runnableTotal k < INT_MAX := by
      by_contra hge
      have hzero : ∀ p, (k.proc p).state = RUNNABLE → (k.proc p).tickets = 0 := by
        intro p hp
        have hempty : selecting k p = ∅ := Set.eq_empty_of_forall_notMem fun r hr => not_drawable (Int.not_lt.1 hge) hr.1
        rw [← hfair p hp, hempty, Set.ncard_empty]
        rfl
      have : runnableTotal k = 0 := by
        refine Finset.sum_eq_zero fun p _ => ?_
        unfold runnableTickets
        split
        · next hp => exact hzero p hp
        · rfl
      omega
    obtain ⟨p, hp⟩ := exists_firstRunnable (exists_runnable hpos)
    have ht : (k.proc p).tickets = 134456 := by
      have := hfair p hp.1
      rw [ncard_selecting_first h hpos hmax hp] at this
      omega
    refine ⟨p, hp, ht, fun q hq hs => ?_⟩
    rw [← hfair q hs, selecting_other h hpos hmax hp hq (by omega), Set.ncard_empty]
    rfl
  · rintro ⟨p, hp, ht, hzero⟩
    have h : ∀ q, (k.proc q).state = RUNNABLE → 0 ≤ (k.proc q).tickets := by
      intro q hq
      by_cases hqp : q = p
      · rw [hqp, ht]
        decide
      · rw [hzero q hqp hq]
    have htotal : runnableTotal k = 134456 := by
      refine (Finset.sum_eq_single p (fun q _ hq => ?_) (fun hn => absurd (Finset.mem_univ p) hn)).trans ?_
      · unfold runnableTickets
        split
        · next hs => exact hzero q hq hs
        · rfl
      · rw [runnableTickets, if_pos hp.1, ht]
    have hmax : runnableTotal k < INT_MAX := by rw [htotal]; decide
    intro q hs
    by_cases hq : q = p
    · rw [hq, ncard_selecting_first h hpos hmax hp, ht]
      rfl
    · rw [selecting_other h hpos hmax hp hq (by omega), Set.ncard_empty, hzero q hq hs]
      rfl

def twoRunnable (m n : Int) : Kernel :=
  (boot.set 0 fun q => { q with state := RUNNABLE, tickets := m }).set 1 fun q => { q with state := RUNNABLE, tickets := n }

theorem firstRunnable_twoRunnable (m n : Int) : FirstRunnable (twoRunnable m n) 0 := ⟨rfl, fun q hq => absurd hq (Fin.not_lt_zero q)⟩

theorem fair_twoRunnable : 0 < runnableTotal (twoRunnable 134456 0) ∧ Fair (twoRunnable 134456 0) := by
  have hpos : 0 < runnableTotal (twoRunnable 134456 0) := by decide +kernel
  have hzero : ∀ q : Slot, q ≠ 0 → ((twoRunnable 134456 0).proc q).tickets = 0 := by decide +kernel
  exact ⟨hpos, (fair_iff hpos).2 ⟨0, firstRunnable_twoRunnable _ _, rfl, fun q hq _ => hzero q hq⟩⟩

/-- Slot 0 holds no ticket, and the draw 0 starts it. -/
theorem not_fair_twoRunnable : 0 < runnableTotal (twoRunnable 0 1) ∧ ¬ Fair (twoRunnable 0 1) := by
  have hpos : 0 < runnableTotal (twoRunnable 0 1) := by decide +kernel
  have hmax : runnableTotal (twoRunnable 0 1) < INT_MAX := by decide +kernel
  have hnonneg : ∀ p, 0 ≤ ((twoRunnable 0 1).proc p).tickets := by decide +kernel
  refine ⟨hpos, fun hfair => ?_⟩
  have hcard := ncard_selecting_first (fun p _ => hnonneg p) hpos hmax (firstRunnable_twoRunnable 0 1)
  rw [hfair 0 rfl] at hcard
  revert hcard
  decide +kernel

/-! ## Passes -/

theorem pass_ok {out : Pass} (h : pass k seed = .ok out) : ∃ o, scheduler k seed = .ok (out.seed, o) ∧ out.selected = o ∧
    out.k = match o with
      | none => k
      | some p => k.set p fun q => { q with state := RUNNING, ticks := toInt32 (toUint32 (q.ticks + 1)) } := by
  obtain ⟨⟨seed', o⟩, hs, h⟩ := bind_ok h
  cases o with
  | none =>
    cases h
    exact ⟨none, hs, rfl, rfl⟩
  | some p =>
    cases h
    exact ⟨some p, hs, rfl, rfl⟩

theorem pass_of_scheduler {o : Option Slot} {seed' : Int} (h : scheduler k seed = .ok (seed', o)) : ∃ out, pass k seed = .ok out := by
  unfold pass
  rw [h, ok_bind]
  cases o with
  | none => exact ⟨_, rfl⟩
  | some p => exact ⟨_, rfl⟩

theorem pass_seed (hk : Countable k) (hseed : IsSeed seed) : ∃ out, pass k seed = .ok out ∧ IsSeed out.seed := by
  obtain ⟨⟨seed', o⟩, hs⟩ := (scheduler_ok_iff hk.nonneg hseed).2 hk.total
  obtain ⟨out, hout⟩ := pass_of_scheduler hs
  obtain ⟨o', hs', -⟩ := pass_ok hout
  exact ⟨out, hout, scheduler_seed hseed hs'⟩

theorem seedFrom_ok {ks : List Kernel} (hks : ∀ k ∈ ks, Countable k) (hseed : IsSeed seed) :
    ∃ seed', seedFrom seed ks = .ok seed' ∧ IsSeed seed' := by
  induction ks generalizing seed with
  | nil => exact ⟨seed, rfl, hseed⟩
  | cons k ks ih =>
    obtain ⟨out, hout, hIs⟩ := pass_seed (hks k List.mem_cons_self) hseed
    obtain ⟨seed', hseed', hIs'⟩ := ih (fun k hk => hks k (List.mem_cons_of_mem _ hk)) hIs
    refine ⟨seed', ?_, hIs'⟩
    unfold seedFrom at hseed' ⊢
    rw [List.foldlM_cons, hout]
    exact hseed'

theorem draw_le (htotal : 0 ≤ total) (hr : draw seed total = .ok r) : r ≤ total := by
  unfold draw at hr
  split at hr
  · obtain ⟨m, hm, hr⟩ := bind_ok hr
    unfold incInt at hm
    split at hm
    · cases hm
      rw [modInt, if_neg (by omega)] at hr
      cases hr
      have := Int.tmod_lt_of_pos seed (show 0 < total + 1 by omega)
      omega
    · cases hm
  · cases hr
    exact htotal

theorem scheduler_some (hk : Countable k) {seed' : Int} {o : Option Slot} (hs : scheduler k seed = .ok (seed', o))
    (hrunnable : ∃ p, (k.proc p).state = RUNNABLE) : ∃ p, o = some p ∧ (k.proc p).state = RUNNABLE := by
  have hsum : runnableTotal k = ((List.finRange NPROC).map fun p => runnableTickets (k.proc p)).sum := Fin.sum_univ_def _
  have hnonneg : 0 ≤ runnableTotal k := Finset.sum_nonneg fun p _ => runnableTickets_nonneg (hk.nonneg p)
  have hmax := hk.total
  obtain ⟨count, hcount, hs⟩ := bind_ok hs
  obtain ⟨seed₁, -, hs⟩ := bind_ok hs
  obtain ⟨r, hr, hs⟩ := bind_ok hs
  obtain ⟨o', ho, hs⟩ := bind_ok hs
  cases hs
  rw [addTickets_eq hk.nonneg _ (Int.le_refl 0) (by decide), Int.zero_add, ← hsum, if_pos (by omega)] at hcount
  cases hcount
  have hle := draw_le hnonneg hr
  obtain ⟨q, hq⟩ := hrunnable
  obtain ⟨p, hp⟩ := pickFrom_some hk.nonneg (r := r) (Int.le_refl 0) (by rwa [Int.zero_add, ← hsum])
    (by rw [Int.zero_add, ← hsum]; omega) ⟨q, List.mem_finRange q, hq⟩
  rw [hp] at ho
  cases ho
  exact ⟨p, rfl, (pickFrom_mem hp).2⟩

theorem scheduler_runnable {seed' : Int} (hs : scheduler k seed = .ok (seed', some p)) : (k.proc p).state = RUNNABLE := by
  obtain ⟨count, -, hs⟩ := bind_ok hs
  obtain ⟨seed₁, -, hs⟩ := bind_ok hs
  obtain ⟨r, -, hs⟩ := bind_ok hs
  obtain ⟨o, ho, hs⟩ := bind_ok hs
  cases hs
  exact (pickFrom_mem ho).2

/-- After any passes from the first seed, a pass over a table with a RUNNABLE process selects one, and up to the context switch
changes that process's state and ticks only; without one it changes nothing. -/
theorem pass_selects (ks : List Kernel) (hks : ∀ k ∈ ks, Countable k) (hk : Countable k) :
    ∃ seed out, seedFrom 1234 ks = .ok seed ∧ pass k seed = .ok out ∧
      ((∃ p, (k.proc p).state = RUNNABLE) → ∃ p, out.selected = some p ∧ (k.proc p).state = RUNNABLE ∧
        out.k = k.set p (fun q => { q with state := RUNNING, ticks := toInt32 (toUint32 (q.ticks + 1)) }) ∧
        (-INT_MAX - 1 ≤ (k.proc p).ticks → (k.proc p).ticks < INT_MAX → (out.k.proc p).ticks = (k.proc p).ticks + 1)) ∧
      ((∀ p, (k.proc p).state ≠ RUNNABLE) → out.selected = none ∧ out.k = k) := by
  obtain ⟨seed, hseed, hIs⟩ := seedFrom_ok hks (show IsSeed 1234 by unfold IsSeed; omega)
  obtain ⟨out, hout, -⟩ := pass_seed hk hIs
  obtain ⟨o, hs, hsel, htable⟩ := pass_ok hout
  refine ⟨seed, out, hseed, hout, fun hrunnable => ?_, fun hnone => ?_⟩
  · obtain ⟨p, rfl, hp⟩ := scheduler_some hk hs hrunnable
    refine ⟨p, hsel, hp, htable, fun hlo hhi => ?_⟩
    rw [htable, Kernel.set_proc, if_pos rfl]
    unfold INT_MAX at hlo hhi
    exact toInt32_toUint32 (by omega) (by omega)
  · cases o with
    | none => exact ⟨hsel, htable⟩
    | some p => exact absurd (scheduler_runnable hs) (hnone p)

theorem countable_twoRunnable : Countable (twoRunnable 0 0) := by
  have hnonneg : ∀ p, 0 ≤ ((twoRunnable 0 0).proc p).tickets := by decide +kernel
  exact ⟨fun p _ => hnonneg p, by decide +kernel⟩

/-- Two processes without a ticket, and one of them runs. -/
theorem pass_selects_twoRunnable : ∃ seed out, seedFrom 1234 [twoRunnable 0 0] = .ok seed ∧ pass (twoRunnable 0 0) seed = .ok out ∧
    ∃ p, out.selected = some p := by
  obtain ⟨seed, out, hseed, hout, hsel, -⟩ := pass_selects [twoRunnable 0 0]
    (fun k hk => by rw [List.mem_singleton.1 hk]; exact countable_twoRunnable) countable_twoRunnable
  obtain ⟨p, hp, -⟩ := hsel ⟨0, rfl⟩
  exact ⟨seed, out, hseed, hout, p, hp⟩

end Ostep.Xv6
