import Mathlib.Algebra.BigOperators.Ring.List
import Ostep.MapReduce.Grouping

/-!
# Reducers that drain their keys

`Drains r D` says that `reduce(key, get_next, p)` calls `get_next(key, p)` until it returns NULL and then returns; `D`
are its local states before that. With such a reducer every run of `MR_Run` is finite, and when it returns, each
`reduce` has got all the values of its key.
-/

namespace Ostep.MapReduce

open Finset

section
variable {F Q : Type*}

structure Drains (r : Reducer Q) (D : CStr → Nat → Q → Prop) : Prop where
  start : ∀ key p, D key p (r.start key p)
  call : ∀ {key p q}, D key p q → r.call q = some (key, p)
  more : ∀ {key p q} (v : CStr), D key p q → D key p (r.recv q (some v))
  stop : ∀ {key p q}, D key p q → r.call (r.recv q none) = none

variable {job : Job F Q} {s s' : State F Q} {p : Nat}

/-! ### The keys that are reduced -/

theorem Inv.calling {a : Nat} {key : CStr} {q : Q} (h : Inv job s) (ht : s.reducer p = some (.calling a key q)) :
    job.part key = p ∧ key ∈ s.calls p := by
  obtain ⟨-, g, B, he, hr⟩ := h
  have hred := hr.reducing p
  unfold State.Reducing at hred
  rw [ht] at hred
  obtain ⟨l₁, x, l₂, hl, rfl, hcalls⟩ := hred
  obtain ⟨l, hl', -, hmem⟩ := he.rep.keys p
  cases Linked.unique hl hl'
  refine ⟨he.rep.part p x.key ((hmem _).1 ?_), by rw [hcalls]; simp⟩
  exact List.mem_map.2 ⟨(a, x), by simp, rfl⟩

theorem Inv.reduce_key {a : Nat} {x : Node} (h : Inv job s) (hat : AtHead job s p (some a)) (hx : s.store.nodes[a]? = some x) :
    job.part x.key = p ∧ x.key ∉ s.calls p ∧ ∃ value, (x.key, value) ∈ s.emits job := by
  obtain ⟨-, g, B, he, hr⟩ := h
  obtain ⟨l, hl, hasc, hmem⟩ := he.rep.keys p
  obtain ⟨l₁, l₂, hl', hcalls, hlink⟩ := hat.next_node (hr.reducing p) ⟨l, hl⟩
  cases Linked.unique hl hl'
  cases l₂ with
  | nil => cases hlink
  | cons b l₂ =>
    obtain ⟨a', x'⟩ := b
    obtain ⟨ha, hx', -⟩ := hlink
    cases ha
    cases hx.symm.trans hx'
    have hkey : x.key ∈ g.keys p := (hmem _).1 (List.mem_map.2 ⟨(a, x), by simp, rfl⟩)
    refine ⟨he.rep.part p _ hkey, fun hin => ?_, he.keysIn p _ hkey⟩
    rw [hcalls] at hin
    rw [keysOf_append] at hasc
    exact (List.nodup_append.1 hasc.nodup).2.2 _ hin _ (by simp [keysOf]) rfl

/-! ### Draining -/

variable (job) in
structure Drained (D : CStr → Nat → Q → Prop) (s : State F Q) : Prop where
  own : ∀ c ∈ s.getLog, c.reducing = c.key ∧ c.thread = job.part c.key
  fresh : ∀ key, key ∉ s.calls (job.part key) → s.answers key = []
  called : ∀ key ∈ s.calls (job.part key),
    (∃ a q, s.reducer (job.part key) = some (.calling a key q) ∧ D key (job.part key) q ∧ none ∉ s.answers key) ∨
    (∃ vs : List CStr, s.answers key = vs.map some ++ [none]) ∧
      ∀ a q, s.reducer (job.part key) = some (.calling a key q) → job.reduce.call q = none
  nodup : (s.reduceLog.map Prod.snd).Nodup
  reduced : ∀ c ∈ s.reduceLog, job.part c.2 = c.1 ∧ ∃ value, (c.2, value) ∈ s.emits job

variable {D : CStr → Nat → Q → Prop}

theorem mem_calls {key : CStr} : key ∈ s.calls p ↔ (p, key) ∈ s.reduceLog := by
  simp [State.calls]

theorem Drained.atHead (h : Drained job D s) (hD : Drains job.reduce D) {curr : Option Nat} (hat : AtHead job s p curr)
    {key : CStr} (hkey : key ∈ s.calls (job.part key)) (hp : job.part key = p) :
    ∃ vs : List CStr, s.answers key = vs.map some ++ [none] := by
  rcases h.called key hkey with ⟨a, q, ht, hq, -⟩ | ⟨hans, -⟩
  · rw [hp] at ht hq
    rcases hat with ⟨ht', -⟩ | ⟨a', key', q', x, ht', hc, -⟩
    · cases ht.symm.trans ht'
    · cases ht.symm.trans ht'
      rw [hD.call hq] at hc
      cases hc
  · exact hans

theorem Drained.finish (h : Drained job D s) (hD : Drains job.reduce D) (hat : AtHead job s p none) :
    Drained job D { s with reducer := Function.update s.reducer p (some .finished) } := by
  refine ⟨h.own, h.fresh, fun key hkey => ?_, h.nodup, h.reduced⟩
  show (∃ a q, Function.update s.reducer p _ _ = _ ∧ _) ∨ _ ∧ ∀ a q, Function.update s.reducer p _ _ = _ → _
  by_cases hp : job.part key = p
  · rw [hp, Function.update_self]
    exact .inr ⟨h.atHead hD hat hkey hp, nofun⟩
  · rw [Function.update_of_ne hp]
    exact h.called key hkey

theorem Drained.reduce {a : Nat} {x : Node} (h : Drained job D s) (hD : Drains job.reduce D) (hinv : Inv job s)
    (hat : AtHead job s p (some a)) (hx : s.store.nodes[a]? = some x) :
    Drained job D { s with
      reducer := Function.update s.reducer p (some (.calling a x.key (job.reduce.start x.key p)))
      reduceLog := s.reduceLog ++ [(p, x.key)] } := by
  obtain ⟨hp, hnew, hemit⟩ := hinv.reduce_key hat hx
  have hcalls : ∀ key, key ∈ State.calls { s with
      reducer := Function.update s.reducer p (some (.calling a x.key (job.reduce.start x.key p)))
      reduceLog := s.reduceLog ++ [(p, x.key)] } (job.part key) ↔ key ∈ s.calls (job.part key) ∨ key = x.key := by
    intro key
    rw [mem_calls, mem_calls, List.mem_append, List.mem_singleton, Prod.mk.injEq]
    refine or_congr_right ⟨fun hk => hk.2, fun hk => ⟨by rw [hk, hp], hk⟩⟩
  refine ⟨h.own, fun key hkey => ?_, fun key hkey => ?_, ?_, fun c hc => ?_⟩
  · rw [hcalls, not_or] at hkey
    exact h.fresh key hkey.1
  · show (∃ a q, Function.update s.reducer p _ _ = _ ∧ _) ∨ _ ∧ ∀ a q, Function.update s.reducer p _ _ = _ → _
    by_cases hkx : key = x.key
    · subst hkx
      have hans : s.answers x.key = [] := h.fresh x.key (by rw [hp]; exact hnew)
      left
      rw [hp, Function.update_self]
      refine ⟨a, _, rfl, hD.start x.key p, ?_⟩
      show none ∉ s.answers x.key
      rw [hans]
      nofun
    · have hold : key ∈ s.calls (job.part key) := ((hcalls key).1 hkey).resolve_right hkx
      by_cases hpk : job.part key = p
      · rw [hpk, Function.update_self]
        refine .inr ⟨h.atHead hD hat hold hpk, fun a' q' ht => ?_⟩
        cases ht
        exact absurd rfl hkx
      · rw [Function.update_of_ne hpk]
        exact h.called key hold
  · rw [List.map_append, List.nodup_append]
    refine ⟨h.nodup, List.nodup_singleton _, fun k hk k' hk' he => ?_⟩
    obtain ⟨⟨p', k'⟩, hc, rfl⟩ := List.mem_map.1 hk
    have hkx : k' = x.key := he.trans (List.mem_singleton.1 hk')
    have hp' : job.part k' = p' := (h.reduced _ hc).1
    refine hnew (mem_calls.2 ?_)
    rw [← hp, ← hkx, hp']
    exact hc
  · rcases List.mem_append.1 hc with hc | hc
    · exact h.reduced c hc
    · cases List.mem_singleton.1 hc
      exact ⟨hp, hemit⟩

theorem Drained.get_key {a n : Nat} {key k : CStr} {q : Q} (h : Drained job D s) (hD : Drains job.reduce D) (hinv : Inv job s)
    (ht : s.reducer p = some (.calling a key q)) (hc : job.reduce.call q = some (k, n)) :
    k = key ∧ job.part key = p ∧ D key p q ∧ none ∉ s.answers key := by
  obtain ⟨hp, hkey⟩ := hinv.calling ht
  rcases h.called key (by rw [hp]; exact hkey) with ⟨a', q', ht', hq, hnone⟩ | ⟨-, hret⟩
  · rw [hp] at ht' hq
    cases ht.symm.trans ht'
    rw [hD.call hq] at hc
    cases hc
    exact ⟨rfl, hp, hq, hnone⟩
  · rw [hp] at hret
    rw [hret a q ht] at hc
    cases hc

theorem Drained.get {a n : Nat} {key k : CStr} {q : Q} {store : Store} {answer : Option CStr} (h : Drained job D s)
    (hD : Drains job.reduce D) (hinv : Inv job s) (ht : s.reducer p = some (.calling a key q))
    (hc : job.reduce.call q = some (k, n)) :
    Drained job D { s with
      store := store
      reducer := Function.update s.reducer p (some (.calling a key (job.reduce.recv q answer)))
      getLog := s.getLog ++ [{ thread := p, reducing := key, key := k, answer := answer }] } := by
  obtain ⟨rfl, hp, hq, hnone⟩ := h.get_key hD hinv ht hc
  obtain ⟨-, hkey⟩ := hinv.calling ht
  have hself : State.answers { s with
      store := store
      reducer := Function.update s.reducer p (some (.calling a k (job.reduce.recv q answer)))
      getLog := s.getLog ++ [{ thread := p, reducing := k, key := k, answer := answer }] } k = s.answers k ++ [answer] := by
    simp [State.answers]
  have hother : ∀ key, key ≠ k → State.answers { s with
      store := store
      reducer := Function.update s.reducer p (some (.calling a k (job.reduce.recv q answer)))
      getLog := s.getLog ++ [{ thread := p, reducing := k, key := k, answer := answer }] } key = s.answers key := by
    intro key hk
    simp [State.answers, hk.symm]
  refine ⟨fun c hc => ?_, fun key hkey' => ?_, fun key hkey' => ?_, h.nodup, h.reduced⟩
  · rcases List.mem_append.1 hc with hc | hc
    · exact h.own c hc
    · cases List.mem_singleton.1 hc
      exact ⟨rfl, hp.symm⟩
  · have hne : key ≠ k := by
      rintro rfl
      rw [hp] at hkey'
      exact hkey' hkey
    rw [hother key hne]
    exact h.fresh key hkey'
  · by_cases hk : key = k
    · subst hk
      rw [hself, hp]
      show (∃ a q, Function.update s.reducer p _ _ = _ ∧ _) ∨ _ ∧ ∀ a q, Function.update s.reducer p _ _ = _ → _
      rw [Function.update_self]
      cases answer with
      | some v =>
        refine .inl ⟨a, _, rfl, hD.more v hq, ?_⟩
        simp [hnone]
      | none =>
        obtain ⟨vs, m, hans, -⟩ := hinv.answers key
        have hm : m = 0 := by
          by_contra hm
          refine hnone ?_
          rw [hans]
          exact List.mem_append_right _ (List.mem_replicate.2 ⟨hm, rfl⟩)
        rw [hm, List.replicate_zero, List.append_nil] at hans
        refine .inr ⟨⟨vs, by rw [hans]⟩, fun a' q' ht' => ?_⟩
        cases ht'
        exact hD.stop hq
    · rw [hother key hk]
      show (∃ a q, Function.update s.reducer p _ _ = _ ∧ _) ∨ _ ∧ ∀ a q, Function.update s.reducer p _ _ = _ → _
      by_cases hpk : job.part key = p
      · rw [hpk, Function.update_self]
        rcases h.called key hkey' with ⟨a', q', ht', -⟩ | ⟨hans, -⟩
        · rw [hpk] at ht'
          cases ht.symm.trans ht'
          exact absurd rfl hk
        · refine .inr ⟨hans, fun a' q' ht' => ?_⟩
          cases ht'
          exact absurd rfl hk
      · rw [Function.update_of_ne hpk]
        exact h.called key hkey'

theorem Drained.init : Drained job D (.init job .zeroed) :=
  ⟨nofun, fun _ _ => rfl, nofun, List.nodup_nil, nofun⟩

theorem Drained.step {act : Act} (h : Drained job D s) (hD : Drains job.reduce D) (hinv : Inv job s)
    (hd : Did job .zeroed s act s') : Drained job D s' := by
  cases hd with
  | @create base i f hm hf hj =>
    refine ⟨h.own, h.fresh, h.called, h.nodup, fun c hc => ⟨(h.reduced c hc).1, ?_⟩⟩
    obtain ⟨value, hv⟩ := (h.reduced c hc).2
    refine ⟨value, ?_⟩
    show _ ∈ (s.mapLog ++ [f]).flatMap job.map
    rw [List.flatMap_append]
    exact List.mem_append_left _ hv
  | full | join | joined | spawned | await | awaited | emitVal | emitSort =>
    exact ⟨h.own, h.fresh, h.called, h.nodup, h.reduced⟩
  | @spawn i hm hi =>
    have hnone : s.reducer i = none := hinv.phase.reducer_none (by rw [hm]; exact Nat.le_refl i)
    refine ⟨h.own, h.fresh, fun key hkey => ?_, h.nodup, h.reduced⟩
    show (∃ a q, Function.update s.reducer i _ _ = _ ∧ _) ∨ _ ∧ ∀ a q, Function.update s.reducer i _ _ = _ → _
    by_cases hp : job.part key = i
    · rw [hp, Function.update_self]
      rcases h.called key hkey with ⟨a, q, ht, -⟩ | ⟨hans, -⟩
      · rw [hp, hnone] at ht
        cases ht
      · exact .inr ⟨hans, nofun⟩
    · rw [Function.update_of_ne hp]
      exact h.called key hkey
  | finish hat => exact h.finish hD hat
  | reduce hat hx => exact h.reduce hD hinv hat hx
  | get ht hc he => exact h.get hD hinv ht hc

/-! ### Every run ends -/

variable (job) in
def Job.total : Nat := (job.files.flatMap job.map).length

variable (job) in
def mainLeft : Main → Nat
  | .create base i =>
    4 * (job.files.length - i) + (i - base) + (if base = i then 1 else 3) + (2 * job.numReducers + 1)
  | .join _ i j => 4 * (job.files.length - i) + j + 2 + (2 * job.numReducers + 1)
  | .spawn p => (job.numReducers - p) + (job.numReducers + 2)
  | .await p => (job.numReducers - p) + 1
  | .done => 0

variable (job) in
/-- The sections that the thread for file `i` still goes through. -/
def mapWork (s : State F Q) (i : Nat) : Nat :=
  match s.mapper i with
  | some t => 2 * t.todo.length + if t.midway.isSome then 1 else 0
  | none => match job.files[i]? with
    | some f => 2 * (job.map f).length
    | none => 0

variable (job) in
/-- The steps of a reducer up to the end of its current call, apart from those that return a value. -/
def threadWork : ReduceThread Q → Nat
  | .start => 1
  | .calling _ _ q => if (job.reduce.call q).isSome then 2 else 1
  | .finished => 0

variable (job) in
def reduceWork (s : State F Q) (p : Nat) : Nat :=
  match s.reducer p with
  | none => 1
  | some t => threadWork job t

variable (job) in
def work (s : State F Q) : Nat :=
  mainLeft job s.main + ∑ i ∈ range job.files.length, mapWork job s i + ∑ p ∈ range job.numReducers, reduceWork job s p +
    2 * (job.total - s.reduceLog.length) + (job.total - s.popped.card)

theorem Phase.emits_le (h : Phase job s) : (s.emits job).length ≤ job.total := by
  rw [State.emits, h.maps, Job.total]
  generalize s.main.made job.files.length = m
  rw [← List.take_append_drop m job.files, List.flatMap_append, List.length_append, List.take_append_drop]
  exact Nat.le_add_right _ _

theorem Inv.popped_le (h : Inv job s) : s.popped.card ≤ job.total := by
  obtain ⟨hphase, g, B, he, -⟩ := h
  have := congrArg Multiset.card he.account
  rw [Multiset.card_add, Multiset.card_add, Multiset.coe_card] at this
  have := hphase.emits_le
  omega

theorem Drained.reduceLog_le (h : Drained job D s) (hphase : Phase job s) : s.reduceLog.length ≤ job.total := by
  have hsub : s.reduceLog.map Prod.snd ⊆ (s.emits job).map Prod.fst := by
    intro key hkey
    obtain ⟨c, hc, rfl⟩ := List.mem_map.1 hkey
    obtain ⟨value, hv⟩ := (h.reduced c hc).2
    exact List.mem_map.2 ⟨_, hv, rfl⟩
  have := (h.nodup.subperm hsub).length_le
  rw [List.length_map, List.length_map] at this
  exact this.trans hphase.emits_le

theorem mainLeft_lt {blocks : Blocks} (hmappers : 1 ≤ job.numMappers ∨ job.files = []) (h : Phase job s) (hd : Did job blocks s .main s') :
    mainLeft job s'.main < mainLeft job s.main := by
  have hb := h.bounds
  cases hd with
  | @create base i f hm hf hj =>
    obtain ⟨hi, -⟩ := List.getElem?_eq_some_iff.1 hf
    rw [hm] at hb ⊢
    have := hb.1
    simp only [mainLeft]
    split <;> split <;> omega
  | @full base i hm hi =>
    rw [hm] at hb ⊢
    obtain ⟨hle, hin, hlt⟩ := hb
    have hmappers' : 1 ≤ job.numMappers ∨ job.files.length = 0 := hmappers.imp_right List.length_eq_zero_iff.2
    simp only [mainLeft]
    split <;> omega
  | @joined base i hm =>
    rw [hm] at hb ⊢
    have := hb.2
    rcases nextBatch_cases job i with ⟨hi, he⟩ | ⟨hi, he⟩
    all_goals rw [he]
    all_goals simp only [mainLeft, if_true]
    all_goals omega
  | join hm | spawn hm | spawned hm | await hm | awaited hm =>
    rw [hm]
    simp only [mainLeft]
    omega

theorem work_main {m : Main} (h : mainLeft job m < mainLeft job s.main) : work job { s with main := m } < work job s := by
  show mainLeft job m + ∑ i ∈ range job.files.length, mapWork job s i + ∑ p ∈ range job.numReducers, reduceWork job s p +
    2 * (job.total - s.reduceLog.length) + (job.total - s.popped.card) < work job s
  unfold work
  omega

theorem work_mapper {i : Nat} {t t' : MapThread} {store : Store} (hi : i < job.files.length) (ht : s.mapper i = some t)
    (hw : 2 * t.todo.length + (if t.midway.isSome then 1 else 0) = 1 + (2 * t'.todo.length + if t'.midway.isSome then 1 else 0)) :
    work job { s with store := store, mapper := Function.update s.mapper i (some t') } < work job s := by
  have hsum : ∑ j ∈ range job.files.length, mapWork job s j = 1 + ∑ j ∈ range job.files.length,
      mapWork job { s with store := store, mapper := Function.update s.mapper i (some t') } j := by
    refine sum_range_add hi ?_ fun j hj => ?_
    · simp only [mapWork, ht, Function.update_self]
      exact hw
    · simp only [mapWork, Function.update_of_ne hj]
  show mainLeft job s.main + ∑ j ∈ range job.files.length,
      mapWork job { s with store := store, mapper := Function.update s.mapper i (some t') } j +
    ∑ p ∈ range job.numReducers, reduceWork job s p + 2 * (job.total - s.reduceLog.length) + (job.total - s.popped.card) <
    work job s
  unfold work
  omega

theorem work_reducer {t t' : ReduceThread Q} {store : Store} {reduceLog : List (Nat × CStr)} {getLog : List GetCall}
    (hp : p < job.numReducers) (ht : s.reducer p = some t)
    (hw : threadWork job t' + 2 * (job.total - reduceLog.length) + (job.total - (poppedOf getLog).card) <
      threadWork job t + 2 * (job.total - s.reduceLog.length) + (job.total - s.popped.card)) :
    work job { s with
      store := store, reducer := Function.update s.reducer p (some t'), reduceLog := reduceLog, getLog := getLog } <
      work job s := by
  have hother : ∀ q, q ≠ p → reduceWork job s q = reduceWork job { s with
      store := store, reducer := Function.update s.reducer p (some t'), reduceLog := reduceLog, getLog := getLog } q := by
    intro q hq
    simp only [reduceWork, Function.update_of_ne hq]
  obtain ⟨e, hs, hs'⟩ := sum_range_split hp hother
  have hwt : reduceWork job s p = threadWork job t := by simp only [reduceWork, ht]
  have hwt' : reduceWork job { s with
      store := store, reducer := Function.update s.reducer p (some t'), reduceLog := reduceLog, getLog := getLog } p =
      threadWork job t' := by
    simp only [reduceWork, Function.update_self]
  show mainLeft job s.main + ∑ i ∈ range job.files.length, mapWork job s i + ∑ q ∈ range job.numReducers, reduceWork job { s with
      store := store, reducer := Function.update s.reducer p (some t'), reduceLog := reduceLog, getLog := getLog } q +
    2 * (job.total - reduceLog.length) + (job.total - (poppedOf getLog).card) < work job s
  unfold work
  omega

theorem AtHead.threadWork {curr : Option Nat} (hat : AtHead job s p curr) :
    ∃ t, s.reducer p = some t ∧ threadWork job t = 1 := by
  rcases hat with ⟨ht, -⟩ | ⟨a, key, q, x, ht, hc, -⟩
  · exact ⟨_, ht, rfl⟩
  · exact ⟨_, ht, by simp [MapReduce.threadWork, hc]⟩

theorem work_create {base i : Nat} {f : F} (h : Phase job s) (hm : s.main = .create base i) (hf : job.files[i]? = some f)
    (hmain : mainLeft job (.create base (i + 1)) < mainLeft job s.main) :
    work job { s with
      mapper := Function.update s.mapper i (some { todo := job.map f, midway := none })
      main := .create base (i + 1)
      mapLog := s.mapLog ++ [f] } < work job s := by
  have hnone : s.mapper i = none := h.mapper_none (by rw [hm]; exact Nat.le_refl i)
  have hsum : ∑ j ∈ range job.files.length, mapWork job s j = ∑ j ∈ range job.files.length, mapWork job { s with
      mapper := Function.update s.mapper i (some { todo := job.map f, midway := none })
      main := .create base (i + 1)
      mapLog := s.mapLog ++ [f] } j := by
    refine Finset.sum_congr rfl fun j _ => ?_
    by_cases hji : j = i
    · subst hji
      simp [mapWork, hnone, hf]
    · simp only [mapWork, Function.update_of_ne hji]
  show mainLeft job (.create base (i + 1)) + ∑ j ∈ range job.files.length, mapWork job { s with
      mapper := Function.update s.mapper i (some { todo := job.map f, midway := none })
      main := .create base (i + 1)
      mapLog := s.mapLog ++ [f] } j + ∑ p ∈ range job.numReducers, reduceWork job s p +
    2 * (job.total - s.reduceLog.length) + (job.total - s.popped.card) < work job s
  unfold work
  omega

theorem work_spawn {i : Nat} (h : Phase job s) (hm : s.main = .spawn i)
    (hmain : mainLeft job (.spawn (i + 1)) < mainLeft job s.main) :
    work job { s with reducer := Function.update s.reducer i (some .start), main := .spawn (i + 1) } < work job s := by
  have hnone : s.reducer i = none := h.reducer_none (by rw [hm]; exact Nat.le_refl i)
  have hsum : ∑ q ∈ range job.numReducers, reduceWork job s q = ∑ q ∈ range job.numReducers, reduceWork job { s with
      reducer := Function.update s.reducer i (some .start), main := .spawn (i + 1) } q := by
    refine Finset.sum_congr rfl fun q _ => ?_
    by_cases hq : q = i
    · subst hq
      simp [reduceWork, hnone, threadWork]
    · simp only [reduceWork, Function.update_of_ne hq]
  show mainLeft job (.spawn (i + 1)) + ∑ j ∈ range job.files.length, mapWork job s j +
    ∑ q ∈ range job.numReducers, reduceWork job { s with
      reducer := Function.update s.reducer i (some .start), main := .spawn (i + 1) } q +
    2 * (job.total - s.reduceLog.length) + (job.total - s.popped.card) < work job s
  unfold work
  omega

/-- A `get_next` that returns a value leaves one value less to get, and one that returns NULL is the last of its call. -/
theorem work_get {a n : Nat} {key k : CStr} {q : Q} {store : Store} {answer : Option CStr} (hD : Drains job.reduce D)
    (hp : p < job.numReducers) (ht : s.reducer p = some (.calling a key q)) (hc : job.reduce.call q = some (k, n))
    (hq : D key p q)
    (hpop : (poppedOf (s.getLog ++ [{ thread := p, reducing := key, key := k, answer := answer }])).card ≤ job.total) :
    work job { s with
      store := store
      reducer := Function.update s.reducer p (some (.calling a key (job.reduce.recv q answer)))
      getLog := s.getLog ++ [{ thread := p, reducing := key, key := k, answer := answer }] } < work job s := by
  refine work_reducer hp ht ?_
  have hw : threadWork job (.calling a key q) = 2 := by simp [threadWork, hc]
  rw [hw]
  rcases answer with _ | v
  · have hw' : threadWork job (.calling a key (job.reduce.recv q none)) = 1 := by simp [threadWork, hD.stop hq]
    rw [hw', poppedOf_concat_none _ rfl]
    show 1 + _ + (job.total - s.popped.card) < _
    omega
  · have hw' : threadWork job (.calling a key (job.reduce.recv q (some v))) = 2 := by
      simp [threadWork, hD.call (hD.more v hq)]
    rw [poppedOf_concat_some _ rfl, Multiset.card_add, Multiset.card_singleton] at hpop ⊢
    rw [hw']
    change s.popped.card + 1 ≤ _ at hpop
    show 2 + _ + (job.total - (s.popped.card + 1)) < _
    omega

theorem work_lt {act : Act} (hmappers : 1 ≤ job.numMappers) (hD : Drains job.reduce D) (hinv : Inv job s) (hdr : Drained job D s)
    (hd : Did job .zeroed s act s') : work job s' < work job s := by
  have hinv' := hinv.step hd
  have hpop := hinv'.popped_le
  have hlog := (hdr.step hD hinv hd).reduceLog_le hinv'.phase
  have hmain : ∀ t, Did job .zeroed s .main t → mainLeft job t.main < mainLeft job s.main := fun t ht =>
    mainLeft_lt (.inl hmappers) hinv.phase ht
  cases hd with
  | create hm hf hj => exact work_create hinv.phase hm hf (hmain _ (.create hm hf hj))
  | full hm hi => exact work_main (hmain _ (.full hm hi))
  | join hm hfin => exact work_main (hmain _ (.join hm hfin))
  | joined hm => exact work_main (hmain _ (.joined hm))
  | spawn hm hi => exact work_spawn hinv.phase hm (hmain _ (.spawn hm hi))
  | spawned hm hi => exact work_main (hmain _ (.spawned hm hi))
  | await hm hi hfin => exact work_main (hmain _ (.await hm hi hfin))
  | awaited hm hi => exact work_main (hmain _ (.awaited hm hi))
  | emitVal ht he =>
    refine work_mapper (hinv.phase.mapper_lt ht) ht ?_
    simp only [List.length_cons, Option.isSome_none, Option.isSome_some, if_true, Bool.false_eq_true, if_false]
    omega
  | emitSort ht he =>
    refine work_mapper (hinv.phase.mapper_lt ht) ht ?_
    simp only [Option.isSome_none, Option.isSome_some, if_true, Bool.false_eq_true, if_false]
    omega
  | finish hat =>
    obtain ⟨t, ht, hw⟩ := hat.threadWork
    refine work_reducer (hinv.phase.reducer_lt ht) ht ?_
    rw [hw]
    show 0 + _ + (job.total - s.popped.card) < _
    omega
  | @reduce p a x hat hx =>
    obtain ⟨t, ht, hw⟩ := hat.threadWork
    refine work_reducer (hinv.phase.reducer_lt ht) ht ?_
    have hstart : threadWork job (.calling a x.key (job.reduce.start x.key p)) = 2 := by
      simp [threadWork, hD.call (hD.start x.key p)]
    have hlen : (s.reduceLog ++ [(p, x.key)]).length = s.reduceLog.length + 1 := by simp
    change (s.reduceLog ++ [(p, x.key)]).length ≤ job.total at hlog
    rw [hw, hstart, hlen]
    rw [hlen] at hlog
    show 2 + _ + (job.total - s.popped.card) < _
    omega
  | get ht hc he => exact work_get hD (hinv.phase.reducer_lt ht) ht hc (hdr.get_key hD hinv ht hc).2.2.1 hpop

theorem sum_range_getElem? {α : Type*} (w : α → Nat) (l : List α) :
    ∑ i ∈ range l.length, (match l[i]? with | some x => w x | none => 0) = (l.map w).sum := by
  induction l with
  | nil => rfl
  | cons x l ih =>
    rw [List.length_cons, Finset.sum_range_succ', List.map_cons, List.sum_cons, ← ih, Nat.add_comm]
    rfl

theorem work_init (job : Job F Q) : work job (.init job .zeroed) ≤ 4 * job.files.length + 3 * job.numReducers + 5 * job.total + 2 := by
  have hmap : ∑ i ∈ range job.files.length, mapWork job (.init job .zeroed) i = 2 * job.total := by
    show ∑ i ∈ range job.files.length, (match job.files[i]? with | some f => 2 * (job.map f).length | none => 0) = _
    rw [sum_range_getElem? (fun f => 2 * (job.map f).length), List.sum_map_mul_left, Job.total, List.length_flatMap]
  have hreduce : ∑ p ∈ range job.numReducers, reduceWork job (.init job .zeroed) p = job.numReducers := by
    show ∑ p ∈ range job.numReducers, 1 = _
    simp
  have hmain : mainLeft job (nextBatch job 0) ≤ 4 * job.files.length + 2 * job.numReducers + 2 := by
    rcases nextBatch_cases job 0 with ⟨hi, he⟩ | ⟨hi, he⟩
    all_goals rw [he]
    all_goals simp only [mainLeft, if_true]
    all_goals omega
  show mainLeft job (nextBatch job 0) + _ + _ + 2 * (job.total - 0) + (job.total - 0) ≤ _
  rw [hmap, hreduce]
  omega

theorem drained_of_run {l : List Act} (hD : Drains job.reduce D)
    (h : run (next job .zeroed) (.init job .zeroed) l = some s) : Drained job D s := by
  refine (run_inv (I := fun s => Inv job s ∧ Drained job D s) (fun s a s' hi hn => ?_) ⟨.init, .init⟩ h).2
  have hd := next_did hn
  exact ⟨hi.1.step hd, hi.2.step hD hi.1 hd⟩

theorem length_le_of_run {l : List Act} (hmappers : 1 ≤ job.numMappers) (hD : Drains job.reduce D)
    (h : run (next job .zeroed) (.init job .zeroed) l = some s) :
    l.length ≤ 4 * job.files.length + 3 * job.numReducers + 5 * job.total + 2 := by
  have hlen := run_length_le (I := fun s => Inv job s ∧ Drained job D s) (m := work job) (fun s a s' hi hn => ?_)
    ⟨.init, .init⟩ h
  · have := work_init job
    omega
  · have hd := next_did hn
    exact ⟨⟨hi.1.step hd, hi.2.step hD hi.1 hd⟩, work_lt hmappers hD hi.1 hi.2 hd⟩

theorem Inv.answers_all {key : CStr} {vs : List CStr} (h : Inv job s) (hans : s.answers key = vs.map some ++ [none]) :
    vs.Perm (job.emitted key) := by
  obtain ⟨vs', n, hans', -, hperm⟩ := h.answers key
  have hn : 0 < n := by
    refine Nat.pos_of_ne_zero fun h0 => ?_
    have hmem : none ∈ s.answers key := by rw [hans]; simp
    rw [hans', h0] at hmem
    simp at hmem
  have hvs : vs = vs' := by
    rw [← values_of_answers vs 1, ← values_of_answers vs' n, ← hans', hans]
    rfl
  rw [hvs]
  exact hperm hn

end

section
variable {F Q : Type*}

/-- What `MR_Run` has done when it returns: `map` once for each file, and in each partition `reduce` once for each
emitted key that belongs there, in ascending order. -/
structure MapsReduces (job : Job F Q) (s : State F Q) : Prop where
  maps : s.mapLog = job.files
  ascending : ∀ p, Ascending (s.calls p)
  calls : ∀ p key, key ∈ s.calls p ↔ job.part key = p ∧ ∃ value, (key, value) ∈ job.files.flatMap job.map

/-- The answers to `get_next(key, ...)`: values emitted for `key`, each one once, and NULL only after all of them. -/
def AnswersOk (job : Job F Q) (s : State F Q) (key : CStr) : Prop :=
  ∃ (vs : List CStr) (n : Nat), s.answers key = vs.map some ++ List.replicate n none ∧ vs.Subperm (job.emitted key) ∧
    (0 < n → vs.Perm (job.emitted key))

/-- A reducer that drains has asked for its own keys only, and has got all values of every key and then NULL. -/
structure DrainsAll (job : Job F Q) (s : State F Q) : Prop where
  own : ∀ c ∈ s.getLog, c.reducing = c.key ∧ c.thread = job.part c.key
  answers : ∀ key value, (key, value) ∈ job.files.flatMap job.map →
    ∃ vs : List CStr, vs.Perm (job.emitted key) ∧ s.answers key = vs.map some ++ [none]

/-- `MR_Run` on any files, with any numbers of threads and under any schedule of them: when it returns, the calls of
`map` and `reduce` are as they should be; the answers of `get_next` are, at any time; a run that has stopped is at its
end, unless a probe is about to run past the table. With a reducer that drains its keys, no run is longer than the
bound, and when `MR_Run` returns, every `reduce` has got the values of its key. -/
theorem mrRun_correct {job : Job F Q} {s : State F Q} {l : List Act} (hmappers : 1 ≤ job.numMappers)
    (hpart : ∀ key, job.part key < job.numReducers) (hrun : run (next job .zeroed) (.init job .zeroed) l = some s) :
    (s.main = .done → MapsReduces job s) ∧ (∀ key, AnswersOk job s key) ∧
      (s.main = .done ∨ Overrun job s ∨ ∃ a s', next job .zeroed s a = some s') ∧
      ∀ D, Drains job.reduce D →
        l.length ≤ 4 * job.files.length + 3 * job.numReducers + 5 * job.total + 2 ∧ (s.main = .done → DrainsAll job s) := by
  have hinv := inv_of_run hrun
  refine ⟨fun hdone => ?_, hinv.answers, ?_, fun D hD => ⟨?_, fun hdone => ?_⟩⟩
  · have hcalls := hinv.calls hdone hpart
    exact ⟨(hinv.phase.over (by rw [hdone]; trivial)).1, fun p => (hcalls p).1, fun p => (hcalls p).2⟩
  · by_cases hdone : s.main = .done
    · exact .inl hdone
    · exact .inr (hinv.progress hdone)
  · exact length_le_of_run hmappers hD hrun
  · have hdr := drained_of_run hD hrun
    refine ⟨hdr.own, fun key value hv => ?_⟩
    have hkey := ((hinv.calls hdone hpart (job.part key)).2 key).2 ⟨rfl, value, hv⟩
    rcases hdr.called key hkey with ⟨a, q, ht, -⟩ | ⟨⟨vs, hans⟩, -⟩
    · rw [hinv.phase.awaited (job.part key) (by rw [hdone]; exact hpart key)] at ht
      cases ht
    · exact ⟨vs, hinv.answers_all hans, hans⟩

end

/-! ### `Reduce` of `P4a/wordcount.c` -/

structure Counting where
  key : CStr
  partitionNumber : Nat
  count : Nat
  finished : Bool

/-- The loop of `Reduce`: it counts the values of its key. -/
def wordcountReduce : Reducer Counting where
  start := fun key partitionNumber => { key := key, partitionNumber := partitionNumber, count := 0, finished := false }
  call := fun q => if q.finished then none else some (q.key, q.partitionNumber)
  recv := fun q value => match value with
    | some _ => { q with count := q.count + 1 }
    | none => { q with finished := true }

theorem drains_wordcountReduce :
    Drains wordcountReduce fun key p q => q.key = key ∧ q.partitionNumber = p ∧ q.finished = false := by
  refine ⟨fun key p => ⟨rfl, rfl, rfl⟩, ?_, ?_, ?_⟩
  · rintro key p q ⟨rfl, rfl, hq⟩
    simp [wordcountReduce, hq]
  · rintro key p q v ⟨rfl, rfl, hq⟩
    exact ⟨rfl, rfl, hq⟩
  · intro key p q _
    rfl

def threeWords : Job Unit Counting where
  files := [()]
  map := fun _ => [(⟨[98], by decide⟩, ⟨[49], by decide⟩), (⟨[97], by decide⟩, ⟨[49], by decide⟩),
    (⟨[98], by decide⟩, ⟨[49], by decide⟩)]
  numMappers := 2
  reduce := wordcountReduce
  numReducers := 2
  partition := mrDefaultHashPartition

def threeWordsRun : List Act :=
  [Act.main, .main] ++ List.replicate 6 (Act.mapper 0) ++ List.replicate 5 Act.main ++
    [Act.reducer 0, .reducer 1, .reducer 1, .reducer 0, .reducer 1, .reducer 0, .reducer 1, .reducer 0, .reducer 1] ++
    List.replicate 3 Act.main

theorem mrRun_correct_threeWords : ∃ l s, run (next threeWords .zeroed) (.init threeWords .zeroed) l = some s ∧
    s.main = .done ∧ MapsReduces threeWords s ∧ DrainsAll threeWords s := by
  have hrun : (run (next threeWords .zeroed) (.init threeWords .zeroed) threeWordsRun).map State.main = some .done := by
    decide +kernel
  obtain ⟨s, hs, hdone⟩ := Option.map_eq_some_iff.1 hrun
  obtain ⟨hcalls, -, -, hdrain⟩ := mrRun_correct (show 1 ≤ threeWords.numMappers by decide)
    (fun key => Nat.mod_lt _ (by decide)) hs
  exact ⟨_, s, hs, hdone, hcalls hdone, (hdrain _ drains_wordcountReduce).2 hdone⟩

end Ostep.MapReduce
