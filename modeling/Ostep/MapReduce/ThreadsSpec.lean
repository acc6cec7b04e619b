import Ostep.MapReduce.Threads
import Mathlib.Data.List.Basic

/-!
# What a step of `MR_Run` does

`Did` has one constructor for each kind of step, and `next_iff` says that these are all. `Phase` follows the main
thread: the files whose `map` has been started, the threads known to have finished, and that no reducer exists
before every mapper has.
-/

namespace Ostep.MapReduce

section
variable {F Q : Type*} (job : Job F Q) (blocks : Blocks)

/-- `reduce_thread` of partition `p` is at the head of its loop, with `curr` as given. -/
def AtHead (s : State F Q) (p : Nat) (curr : Option Nat) : Prop :=
  (s.reducer p = some .start ∧ curr = s.store.sorted p) ∨
    ∃ a key q x, s.reducer p = some (.calling a key q) ∧ job.reduce.call q = none ∧ s.store.nodes[a]? = some x ∧
      curr = x.next

inductive Did (s : State F Q) : Act → State F Q → Prop
  | create {base i f} (hm : s.main = .create base i) (hf : job.files[i]? = some f) (hj : i - base < job.numMappers) :
    Did s .main { s with
      mapper := Function.update s.mapper i (some { todo := job.map f, midway := none })
      main := .create base (i + 1)
      mapLog := s.mapLog ++ [f] }
  | full {base i} (hm : s.main = .create base i) (h : job.files.length ≤ i ∨ job.numMappers ≤ i - base) :
    Did s .main { s with main := .join base i (i - base) }
  | join {base i j} (hm : s.main = .join base i (j + 1)) (hfin : s.mapper (base + j) = some ⟨[], none⟩) :
    Did s .main { s with main := .join base i j }
  | joined {base i} (hm : s.main = .join base i 0) : Did s .main { s with main := nextBatch job i }
  | spawn {i} (hm : s.main = .spawn i) (hi : i < job.numReducers) :
    Did s .main { s with reducer := Function.update s.reducer i (some .start), main := .spawn (i + 1) }
  | spawned {i} (hm : s.main = .spawn i) (hi : job.numReducers ≤ i) : Did s .main { s with main := .await 0 }
  | await {i} (hm : s.main = .await i) (hi : i < job.numReducers) (hfin : s.reducer i = some .finished) :
    Did s .main { s with main := .await (i + 1) }
  | awaited {i} (hm : s.main = .await i) (hi : job.numReducers ≤ i) : Did s .main { s with main := .done }
  | emitVal {i key value todo store index} (ht : s.mapper i = some ⟨(key, value) :: todo, none⟩)
      (he : s.store.emitVal blocks key value = .ok (store, index)) :
    Did s (.mapper i) { s with
      store := store, mapper := Function.update s.mapper i (some { todo := todo, midway := some (key, index) }) }
  | emitSort {i key index todo store} (ht : s.mapper i = some ⟨todo, some (key, index)⟩)
      (he : s.store.emitSort (job.part key) key index = .ok store) :
    Did s (.mapper i) { s with
      store := store, mapper := Function.update s.mapper i (some { todo := todo, midway := none }) }
  | finish {p} (hat : AtHead job s p none) :
    Did s (.reducer p) { s with reducer := Function.update s.reducer p (some .finished) }
  | reduce {p a x} (hat : AtHead job s p (some a)) (hx : s.store.nodes[a]? = some x) :
    Did s (.reducer p) { s with
      reducer := Function.update s.reducer p (some (.calling a x.key (job.reduce.start x.key p)))
      reduceLog := s.reduceLog ++ [(p, x.key)] }
  | get {p a key q k n store answer} (ht : s.reducer p = some (.calling a key q)) (hc : job.reduce.call q = some (k, n))
      (he : s.store.getNext k n = .ok (store, answer)) :
    Did s (.reducer p) { s with
      store := store
      reducer := Function.update s.reducer p (some (.calling a key (job.reduce.recv q answer)))
      getLog := s.getLog ++ [{ thread := p, reducing := key, key := k, answer := answer }] }

variable {job blocks} {s s' : State F Q}

theorem stepMain_did (h : stepMain job s = some s') : Did job blocks s .main s' := by
  unfold stepMain at h
  split at h
  · next base i hm =>
    split at h
    · next f hf =>
      split at h
      · next hj => cases h; exact .create hm hf hj
      · next hj => cases h; exact .full hm (.inr (by omega))
    · next hf => cases h; exact .full hm (.inl (List.getElem?_eq_none_iff.1 hf))
  · next base i j hm =>
    split at h
    · next hfin => cases h; exact .join hm hfin
    · cases h
  · next base i hm => cases h; exact .joined hm
  · next i hm =>
    split at h
    · next hi => cases h; exact .spawn hm hi
    · next hi => cases h; exact .spawned hm (by omega)
  · next i hm =>
    split at h
    · next hi =>
      split at h
      · next hfin => cases h; exact .await hm hi hfin
      · cases h
    · next hi => cases h; exact .awaited hm (by omega)
  · cases h

theorem stepMapper_did {i : Nat} (h : stepMapper job blocks s i = some s') : Did job blocks s (.mapper i) s' := by
  unfold stepMapper at h
  split at h
  · next todo key index ht =>
    split at h
    · next store he => cases h; exact .emitSort ht he
    · cases h
  · next key value todo ht =>
    split at h
    · next store index he => cases h; exact .emitVal ht he
    · cases h
  · cases h
  · cases h

theorem enter_did {p : Nat} {curr : Option Nat} (hat : AtHead job s p curr) (h : enter job s p curr = some s') :
    Did job blocks s (.reducer p) s' := by
  cases curr with
  | none => cases h; exact .finish hat
  | some a =>
    rw [enter] at h
    split at h
    · next x hx => cases h; exact .reduce hat hx
    · cases h

theorem stepReducer_did {p : Nat} (h : stepReducer job s p = some s') : Did job blocks s (.reducer p) s' := by
  unfold stepReducer at h
  split at h
  · next ht => exact enter_did (.inl ⟨ht, rfl⟩) h
  · next curr key q ht =>
    split at h
    · next k n hc =>
      split at h
      · next store answer he => cases h; exact .get ht hc he
      · cases h
    · next hc =>
      split at h
      · next x hx => exact enter_did (.inr ⟨curr, key, q, x, ht, hc, hx, rfl⟩) h
      · cases h
  · cases h

theorem next_did {a : Act} (h : next job blocks s a = some s') : Did job blocks s a s' := by
  cases a with
  | main => exact stepMain_did h
  | mapper i => exact stepMapper_did h
  | reducer p => exact stepReducer_did h

theorem stepReducer_of_atHead {p : Nat} {curr : Option Nat} (hat : AtHead job s p curr) :
    stepReducer job s p = enter job s p curr := by
  unfold stepReducer
  rcases hat with ⟨ht, rfl⟩ | ⟨a, key, q, x, ht, hc, hx, rfl⟩
  · rw [ht]
  · simp only [ht, hc, hx]

end

/-! ### Phases -/

namespace Main

/-- The number of files whose `map` has been started, of `n`. -/
def made (n : Nat) : Main → Nat
  | .create _ i | .join _ i _ => i
  | _ => n

/-- The main thread has seen the thread for file `j` finish. -/
def Joined : Main → Nat → Prop
  | .create base _, j => j < base
  | .join base _ k, j => j < base ∨ base + k ≤ j
  | _, _ => True

/-- The number of reducers there are, of `r`. -/
def spawned (r : Nat) : Main → Nat
  | .create .. | .join .. => 0
  | .spawn p => p
  | _ => r

/-- The number of reducers seen to have finished, of `r`. -/
def awaited (r : Nat) : Main → Nat
  | .await p => p
  | .done => r
  | _ => 0

def Bounds (n r : Nat) : Main → Prop
  | .create base i => base ≤ i ∧ i ≤ n ∧ (base < i ∨ i < n)
  | .join base i j => base + j ≤ i ∧ i ≤ n
  | .spawn p | .await p => p ≤ r
  | .done => True

end Main

section
variable {F Q : Type*} {job : Job F Q} {blocks : Blocks} {s s' : State F Q}

variable (job) in
structure Phase (s : State F Q) : Prop where
  bounds : s.main.Bounds job.files.length job.numReducers
  maps : s.mapLog = job.files.take (s.main.made job.files.length)
  mappers : ∀ j, (s.mapper j).isSome ↔ j < s.main.made job.files.length
  joined : ∀ j < s.main.made job.files.length, s.main.Joined j → s.mapper j = some ⟨[], none⟩
  reducers : ∀ q, (s.reducer q).isSome ↔ q < s.main.spawned job.numReducers
  awaited : ∀ q < s.main.awaited job.numReducers, s.reducer q = some .finished

theorem nextBatch_cases (job : Job F Q) (i : Nat) :
    (i < job.files.length ∧ nextBatch job i = .create i i) ∨ (job.files.length ≤ i ∧ nextBatch job i = .spawn 0) := by
  unfold nextBatch
  split
  · next h => exact .inl ⟨h, rfl⟩
  · next h => exact .inr ⟨by omega, rfl⟩

theorem Phase.init : Phase job (.init job blocks) := by
  have hmain : (State.init job blocks).main = nextBatch job 0 := rfl
  rcases nextBatch_cases job 0 with ⟨h0, hb⟩ | ⟨h0, hb⟩
  all_goals rw [hb] at hmain
  all_goals refine ⟨?_, ?_, fun j => ?_, fun j hj hjo => ?_, fun q => ?_, fun q hq => ?_⟩
  all_goals rw [hmain] at *
  · exact ⟨Nat.le_refl _, by omega, .inr h0⟩
  · rfl
  · exact iff_of_false (by simp [State.init]) (by simp [Main.made])
  · exact absurd hj (by simp [Main.made])
  · exact iff_of_false (by simp [State.init]) (by simp [Main.spawned])
  · exact absurd hq (by simp [Main.awaited])
  · exact Nat.zero_le _
  · rw [List.eq_nil_of_length_eq_zero (Nat.le_zero.1 h0)]; rfl
  · exact iff_of_false (by simp [State.init]) (by simp only [Main.made]; omega)
  · simp only [Main.made] at hj; omega
  · exact iff_of_false (by simp [State.init]) (by simp [Main.spawned])
  · exact absurd hq (by simp [Main.awaited])

def Main.Reduces : Main → Prop
  | .create .. | .join .. => False
  | _ => True

theorem Phase.over (h : Phase job s) (hm : s.main.Reduces) :
    s.mapLog = job.files ∧ ∀ i t, s.mapper i = some t → t = ⟨[], none⟩ := by
  have hmade : s.main.made job.files.length = job.files.length ∧ ∀ j, s.main.Joined j := by
    cases hm' : s.main with
    | create | join => rw [hm'] at hm; exact hm.elim
    | spawn | await | done => exact ⟨rfl, fun _ => trivial⟩
  refine ⟨by rw [h.maps, hmade.1, List.take_length], fun i t ht => ?_⟩
  have hi := (h.mappers i).1 (by rw [ht]; rfl)
  cases ht.symm.trans (h.joined i hi (hmade.2 i))
  rfl

theorem Phase.reduces (h : Phase job s) {q : Nat} (hq : (s.reducer q).isSome) : s.main.Reduces := by
  have hlt := (h.reducers q).1 hq
  cases hm : s.main with
  | create | join => rw [hm] at hlt; simp [Main.spawned] at hlt
  | spawn | await | done => trivial

theorem Phase.mapper_lt (h : Phase job s) {i : Nat} {t : MapThread} (ht : s.mapper i = some t) : i < job.files.length := by
  have hi := (h.mappers i).1 (by rw [ht]; rfl)
  have hb := h.bounds
  cases hm : s.main with
  | create | join =>
    simp only [hm, Main.Bounds, Main.made] at hb hi
    omega
  | spawn | await | done =>
    rw [hm] at hi
    exact hi

theorem Phase.reducer_lt (h : Phase job s) {p : Nat} {t : ReduceThread Q} (ht : s.reducer p = some t) : p < job.numReducers := by
  have hp := (h.reducers p).1 (by rw [ht]; rfl)
  have hb := h.bounds
  cases hm : s.main with
  | create | join => simp [hm, Main.spawned] at hp
  | spawn =>
    simp only [hm, Main.Bounds, Main.spawned] at hb hp
    omega
  | await | done =>
    rw [hm] at hp
    exact hp

theorem Phase.mapper_none (h : Phase job s) {i : Nat} (hi : s.main.made job.files.length ≤ i) : s.mapper i = none := by
  by_contra hne
  have := (h.mappers i).1 (Option.isSome_iff_ne_none.2 hne)
  omega

theorem Phase.reducer_none (h : Phase job s) {p : Nat} (hp : s.main.spawned job.numReducers ≤ p) : s.reducer p = none := by
  by_contra hne
  have := (h.reducers p).1 (Option.isSome_iff_ne_none.2 hne)
  omega

theorem Phase.mapping (h : Phase job s) {i : Nat} {t : MapThread} (ht : s.mapper i = some t) (hne : t ≠ ⟨[], none⟩) (p : Nat) :
    s.reducer p = none := by
  by_contra hp
  exact hne ((h.over (h.reduces (Option.isSome_iff_ne_none.2 hp))).2 i t ht)

theorem Phase.mapper {i : Nat} {t t' : MapThread} {store : Store} (h : Phase job s) (ht : s.mapper i = some t)
    (hne : t ≠ ⟨[], none⟩) :
    Phase job { s with store := store, mapper := Function.update s.mapper i (some t') } := by
  refine ⟨h.bounds, h.maps, fun j => ?_, fun j hj hjo => ?_, h.reducers, h.awaited⟩
  · show (Function.update s.mapper i (some t') j).isSome ↔ _
    by_cases hji : j = i
    · subst hji
      rw [Function.update_self, ← h.mappers j, ht]
      simp
    · rw [Function.update_of_ne hji]
      exact h.mappers j
  · have hfin := h.joined j hj hjo
    show Function.update s.mapper i (some t') j = _
    rw [Function.update_of_ne, hfin]
    rintro rfl
    cases ht.symm.trans hfin
    exact hne rfl

theorem Phase.reducer {p : Nat} {t t' : ReduceThread Q} {store : Store} {reduceLog : List (Nat × CStr)}
    {getLog : List GetCall} (h : Phase job s) (ht : s.reducer p = some t) (hne : t ≠ .finished) :
    Phase job { s with
      store := store, reducer := Function.update s.reducer p (some t'), reduceLog := reduceLog, getLog := getLog } := by
  refine ⟨h.bounds, h.maps, h.mappers, h.joined, fun q => ?_, fun q hq => ?_⟩
  · show (Function.update s.reducer p (some t') q).isSome ↔ _
    by_cases hqp : q = p
    · subst hqp
      rw [Function.update_self, ← h.reducers q, ht]
      simp
    · rw [Function.update_of_ne hqp]
      exact h.reducers q
  · have hfin := h.awaited q hq
    show Function.update s.reducer p (some t') q = _
    rw [Function.update_of_ne, hfin]
    rintro rfl
    cases ht.symm.trans hfin
    exact hne rfl

theorem AtHead.unfinished {p : Nat} {curr : Option Nat} (h : AtHead job s p curr) :
    ∃ t, s.reducer p = some t ∧ t ≠ .finished := by
  rcases h with ⟨ht, -⟩ | ⟨a, key, q, x, ht, -⟩
  · exact ⟨_, ht, nofun⟩
  · exact ⟨_, ht, nofun⟩

theorem Phase.move {m : Main} (h : Phase job s) (hb : m.Bounds job.files.length job.numReducers)
    (hmade : m.made job.files.length = s.main.made job.files.length)
    (hjoined : ∀ j < m.made job.files.length, m.Joined j → s.mapper j = some ⟨[], none⟩)
    (hspawned : m.spawned job.numReducers = s.main.spawned job.numReducers)
    (hawaited : ∀ q < m.awaited job.numReducers, s.reducer q = some .finished) : Phase job { s with main := m } := by
  refine ⟨hb, ?_, fun j => ?_, hjoined, fun q => ?_, hawaited⟩
  · show s.mapLog = job.files.take (m.made _)
    rw [hmade]
    exact h.maps
  · show _ ↔ j < m.made _
    rw [hmade]
    exact h.mappers j
  · show _ ↔ q < m.spawned _
    rw [hspawned]
    exact h.reducers q

theorem Phase.joined_all (h : Phase job s) {base i : Nat} (hm : s.main = .join base i 0) :
    Phase job { s with main := nextBatch job i } := by
  have hb := h.bounds
  have hfin : ∀ j < i, s.mapper j = some ⟨[], none⟩ := by
    intro j hj
    refine h.joined j (by rw [hm]; exact hj) ?_
    rw [hm]
    show j < base ∨ base + 0 ≤ j
    omega
  rw [hm] at hb
  rcases nextBatch_cases job i with ⟨hi, he⟩ | ⟨hi, he⟩
  · rw [he]
    exact h.move ⟨Nat.le_refl i, hb.2, .inr hi⟩ (by rw [hm]; rfl) (fun j hj _ => hfin j hj) (by rw [hm]; rfl) nofun
  · have hin : i = job.files.length := Nat.le_antisymm hb.2 hi
    rw [he]
    exact h.move (Nat.zero_le _) (by rw [hm, hin]; rfl) (fun j hj _ => hfin j (by rw [hin]; exact hj)) (by rw [hm]; rfl) nofun

theorem Phase.create {base i : Nat} {f : F} (h : Phase job s) (hm : s.main = .create base i) (hf : job.files[i]? = some f) :
    Phase job { s with
      mapper := Function.update s.mapper i (some { todo := job.map f, midway := none })
      main := .create base (i + 1)
      mapLog := s.mapLog ++ [f] } := by
  obtain ⟨hlt, hf⟩ := List.getElem?_eq_some_iff.1 hf
  obtain ⟨hb, hmaps, hmappers, hjoined, hreducers, -⟩ := h
  rw [hm] at hb hmaps hjoined
  simp only [hm, Main.made] at hmaps hmappers hjoined
  refine ⟨⟨Nat.le_succ_of_le hb.1, hlt, .inl (Nat.lt_succ_of_le hb.1)⟩, ?_, fun j => ?_, fun j hj hjo => ?_, fun q => ?_, nofun⟩
  · show s.mapLog ++ [f] = job.files.take (i + 1)
    rw [hmaps, List.take_succ_eq_append_getElem hlt, hf]
  · show (Function.update s.mapper i _ j).isSome ↔ j < i + 1
    by_cases hji : j = i
    · subst hji
      simp
    · rw [Function.update_of_ne hji, hmappers j]
      omega
  · have hlt : j < base := hjo
    show Function.update s.mapper i _ j = _
    rw [Function.update_of_ne (by have := hb.1; omega)]
    exact hjoined j (by have := hb.1; omega) hlt
  · rw [hreducers q, hm]
    rfl

theorem Phase.spawn {i : Nat} (h : Phase job s) (hm : s.main = .spawn i) (hi : i < job.numReducers) :
    Phase job { s with reducer := Function.update s.reducer i (some .start), main := .spawn (i + 1) } := by
  obtain ⟨-, hmaps, hmappers, hjoined, hreducers, -⟩ := h
  rw [hm] at hmaps hjoined
  simp only [hm] at hmappers hreducers
  refine ⟨hi, hmaps, hmappers, hjoined, fun q => ?_, nofun⟩
  show (Function.update s.reducer i _ q).isSome ↔ q < i + 1
  by_cases hqi : q = i
  · subst hqi
    simp
  · rw [Function.update_of_ne hqi, hreducers q]
    show q < i ↔ _
    omega

theorem Phase.next {a : Act} (h : Phase job s) (hd : Did job blocks s a s') : Phase job s' := by
  have hb := h.bounds
  cases hd with
  | create hm hf hj => exact h.create hm hf
  | @full base i hm _ =>
    rw [hm] at hb
    obtain ⟨hle, hin, -⟩ := hb
    refine h.move ⟨by omega, hin⟩ (by rw [hm]; rfl) (fun j (hj : j < i) hjo => ?_) (by rw [hm]; rfl) nofun
    have hlt : j < base := by
      rcases hjo with hlt | hge
      · exact hlt
      · omega
    exact h.joined j (by rw [hm]; exact hj) (by rw [hm]; exact hlt)
  | @join base i k hm hfin =>
    rw [hm] at hb
    refine h.move ⟨by have := hb.1; omega, hb.2⟩ (by rw [hm]; rfl) (fun j (hj : j < i) hjo => ?_) (by rw [hm]; rfl) nofun
    by_cases hjk : j = base + k
    · rw [hjk]
      exact hfin
    · refine h.joined j (by rw [hm]; exact hj) ?_
      rw [hm]
      have hjo : j < base ∨ base + k ≤ j := hjo
      show j < base ∨ base + (k + 1) ≤ j
      omega
  | joined hm => exact h.joined_all hm
  | spawn hm hi => exact h.spawn hm hi
  | @spawned i hm hi =>
    rw [hm] at hb
    have hir : i = job.numReducers := Nat.le_antisymm hb hi
    exact h.move (Nat.zero_le _) (by rw [hm]; rfl) (fun j hj _ => h.joined j (by rw [hm]; exact hj) (by rw [hm]; trivial))
      (by rw [hm, hir]; rfl) nofun
  | @await i hm hi hfin =>
    refine h.move hi (by rw [hm]; rfl) (fun j hj _ => h.joined j (by rw [hm]; exact hj) (by rw [hm]; trivial))
      (by rw [hm]; rfl) fun q (hq : q < i + 1) => ?_
    by_cases hqi : q = i
    · rw [hqi]
      exact hfin
    · exact h.awaited q (by rw [hm]; show q < i; omega)
  | @awaited i hm hi =>
    refine h.move trivial (by rw [hm]; rfl) (fun j hj _ => h.joined j (by rw [hm]; exact hj) (by rw [hm]; trivial))
      (by rw [hm]; rfl) fun q (hq : q < job.numReducers) => ?_
    exact h.awaited q (by rw [hm]; show q < i; omega)
  | emitVal ht he => exact h.mapper ht nofun
  | emitSort ht he => exact h.mapper ht nofun
  | finish hat =>
    obtain ⟨t, ht, hne⟩ := hat.unfinished
    exact h.reducer ht hne
  | reduce hat hx =>
    obtain ⟨t, ht, hne⟩ := hat.unfinished
    exact h.reducer ht hne
  | get ht hc he => exact h.reducer ht nofun

end

end Ostep.MapReduce
