import Ostep.MapReduce.Drain
import Ostep.MapReduce.Probes

/-!
# What fresh blocks hold

`MR_Run` does not clear `sorted_data`, and `MR_Emit` does not write the link of the first value of a key. Two runs of the same schedule
that start from different contents of the blocks show the same calls of `reduce` and `get_next` only if no such link is read, and this
is so only for jobs that do nothing: they never get to a `map` and a `reduce`, or have neither something to emit nor a reducer.
-/

namespace Ostep.MapReduce

section
variable {F Q : Type*} (job : Job F Q)

/-- The keys that the reducers have been given and the answers of `get_next`. -/
def State.seen (s : State F Q) : List (Nat × CStr) × List GetCall := (s.reduceLog, s.getLog)

/-- Whatever the fresh blocks hold, a schedule is possible and shows the same. -/
def Independent : Prop := ∀ (b₁ b₂ : Blocks) (l : List Act),
  (run (next job b₁) (.init job b₁) l).map State.seen = (run (next job b₂) (.init job b₂) l).map State.seen

/-- With no mapper thread at a time the first file is never mapped; otherwise nothing is emitted and nothing reduced. -/
def Inert : Prop := (job.files ≠ [] ∧ job.numMappers = 0) ∨ (job.numReducers = 0 ∧ ∀ f ∈ job.files, job.map f = [])

variable {job} {s s' : State F Q} {b b₁ b₂ : Blocks}

/-! ### The main thread does not look at the store -/

theorem stepMain_store (s : State F Q) (store : Store) :
    stepMain job { s with store := store } = (stepMain job s).map fun s' => { s' with store := store } := by
  unfold stepMain
  dsimp only
  cases s.main with
  | create base i =>
    dsimp only
    cases job.files[i]? with
    | none => rfl
    | some f =>
      dsimp only
      split <;> rfl
  | join base i j =>
    cases j with
    | zero => rfl
    | succ j =>
      dsimp only
      split <;> rfl
  | spawn i =>
    dsimp only
    split <;> rfl
  | await i =>
    dsimp only
    split
    · split <;> rfl
    · rfl
  | done => rfl

variable (job b₁ b₂) in
theorem run_main_store (s : State F Q) (store : Store) (n : Nat) :
    run (next job b₂) { s with store := store } (List.replicate n .main) =
      (run (next job b₁) s (List.replicate n .main)).map fun s' => { s' with store := store } := by
  induction n generalizing s with
  | zero => rfl
  | succ n ih =>
    simp only [run, List.replicate_succ, List.foldlM_cons, next] at ih ⊢
    rw [stepMain_store]
    cases stepMain job s with
    | none => rfl
    | some s' => exact ih s'

/-! ### Jobs that do nothing -/

variable (job) in
structure Idle (s : State F Q) : Prop where
  mappers : ∀ i t, s.mapper i = some t → t = ⟨[], none⟩
  reducers : ∀ p, s.reducer p = none
  seen : s.seen = ([], [])
  main : job.files ≠ [] ∧ job.numMappers = 0 → s.main = .create 0 0 ∨ s.main = .join 0 0 0

theorem idle_init : Idle job (.init job b) := by
  refine ⟨nofun, fun _ => rfl, rfl, fun h => .inl ?_⟩
  show nextBatch job 0 = _
  rw [nextBatch, if_pos (List.length_pos_iff.2 h.1)]

theorem Idle.step (h : Idle job s) (hj : Inert job) (hs : stepMain job s = some s') : Idle job s' := by
  cases (show Did job .zeroed s .main s' from stepMain_did hs) with
  | @create base i f hm hf hlt =>
    refine ⟨fun j t ht => ?_, h.reducers, h.seen, fun hno => absurd hlt (by rw [hno.2]; exact Nat.not_lt_zero _)⟩
    obtain hno | hno := hj
    · exact absurd hlt (by rw [hno.2]; exact Nat.not_lt_zero _)
    by_cases hji : j = i
    · subst hji
      have ht : Function.update s.mapper j _ j = some t := ht
      rw [Function.update_self, hno.2 f (List.mem_of_getElem? hf)] at ht
      exact (Option.some.inj ht).symm
    · have ht : Function.update s.mapper i _ j = some t := ht
      rw [Function.update_of_ne hji] at ht
      exact h.mappers j t ht
  | @full base i hm _ =>
    refine ⟨h.mappers, h.reducers, h.seen, fun hno => .inr ?_⟩
    obtain he | he := h.main hno
    · obtain ⟨rfl, rfl⟩ := Main.create.inj (hm.symm.trans he)
      rfl
    · cases hm.symm.trans he
  | @join base i j hm _ =>
    refine ⟨h.mappers, h.reducers, h.seen, fun hno => ?_⟩
    obtain he | he := h.main hno
    · cases hm.symm.trans he
    · cases hm.symm.trans he
  | @joined base i hm =>
    refine ⟨h.mappers, h.reducers, h.seen, fun hno => .inl ?_⟩
    obtain he | he := h.main hno
    · cases hm.symm.trans he
    · obtain ⟨-, rfl, -⟩ := Main.join.inj (hm.symm.trans he)
      show nextBatch job 0 = _
      rw [nextBatch, if_pos (List.length_pos_iff.2 hno.1)]
  | @spawn i hm hlt =>
    obtain hno | hno := hj
    · obtain he | he := h.main hno <;> cases hm.symm.trans he
    · exact absurd hlt (by rw [hno.1]; exact Nat.not_lt_zero _)
  | spawned hm _ | await hm _ | awaited hm _ =>
    refine ⟨h.mappers, h.reducers, h.seen, fun hno => ?_⟩
    obtain he | he := h.main hno <;> cases hm.symm.trans he

theorem Idle.next_eq (h : Idle job s) (b : Blocks) (a : Act) : next job b s a = if a = .main then stepMain job s else none := by
  cases a with
  | main => rfl
  | mapper i =>
    show stepMapper job b s i = none
    unfold stepMapper
    cases ht : s.mapper i with
    | none => rfl
    | some t =>
      obtain rfl := h.mappers i t ht
      rfl
  | reducer p =>
    show stepReducer job s p = none
    unfold stepReducer
    rw [h.reducers p]

theorem Idle.withStore (h : Idle job s) (store : Store) : Idle job { s with store := store } := ⟨h.mappers, h.reducers, h.seen, h.main⟩

theorem Idle.run_seen (h : Idle job s) (hj : Inert job) (store : Store) (l : List Act) :
    (run (next job b₁) s l).map State.seen = (run (next job b₂) { s with store := store } l).map State.seen := by
  induction l generalizing s with
  | nil => rfl
  | cons a l ih =>
    simp only [run, List.foldlM_cons] at ih ⊢
    rw [h.next_eq, (h.withStore store).next_eq, stepMain_store s store]
    split
    · cases hs : stepMain job s with
      | none => rfl
      | some s' => exact ih (h.step hj hs)
    · rfl

/-! ### Jobs that do something -/

variable (job) in
/-- Threads have been started, but none has done anything. -/
structure Fresh (b : Blocks) (s : State F Q) : Prop where
  phase : Phase job s
  store : s.store = .init b
  mappers : ∀ i t, s.mapper i = some t → ∃ f, job.files[i]? = some f ∧ t = ⟨job.map f, none⟩
  reducers : ∀ p t, s.reducer p = some t → t = .start

theorem fresh_init : Fresh job b (.init job b) := ⟨Phase.init, rfl, nofun, nofun⟩

theorem Fresh.step (h : Fresh job b s) (hs : stepMain job s = some s') : Fresh job b s' := by
  have hd : Did job b s .main s' := stepMain_did hs
  have hphase := h.phase.next hd
  cases hd with
  | @create base i f hm hf hlt =>
    refine ⟨hphase, h.store, fun j t ht => ?_, h.reducers⟩
    have ht : Function.update s.mapper i _ j = some t := ht
    by_cases hji : j = i
    · subst hji
      rw [Function.update_self] at ht
      exact ⟨f, hf, (Option.some.inj ht).symm⟩
    · rw [Function.update_of_ne hji] at ht
      exact h.mappers j t ht
  | @spawn i hm hlt =>
    refine ⟨hphase, h.store, h.mappers, fun p t ht => ?_⟩
    have ht : Function.update s.reducer i _ p = some t := ht
    by_cases hpi : p = i
    · subst hpi
      rw [Function.update_self] at ht
      exact (Option.some.inj ht).symm
    · rw [Function.update_of_ne hpi] at ht
      exact h.reducers p t ht
  | full | join | joined | spawned | await | awaited => exact ⟨hphase, h.store, h.mappers, h.reducers⟩

/-- The main thread alone gets to a point at which it has to wait, or to its end. -/
theorem Fresh.main_stops (hmappers : 1 ≤ job.numMappers ∨ job.files = []) (h : Fresh job b s) :
    ∃ n s', run (next job b) s (List.replicate n .main) = some s' ∧ Fresh job b s' ∧ stepMain job s' = none := by
  induction hn : mainLeft job s.main using Nat.strong_induction_on generalizing s with
  | h m ih =>
    cases hs : stepMain job s with
    | none => exact ⟨0, s, rfl, h, hs⟩
    | some s₁ =>
      obtain ⟨n, s', hrun, h', hstop⟩ :=
        ih _ (hn ▸ mainLeft_lt hmappers h.phase (show Did job b s .main s₁ from stepMain_did hs)) (h.step hs) rfl
      refine ⟨n + 1, s', ?_, h', hstop⟩
      rw [run, List.replicate_succ, List.foldlM_cons]
      show (stepMain job s).bind _ = _
      rw [hs]
      exact hrun

theorem stepMain_eq_none (h : stepMain job s = none) :
    (∃ base i j, s.main = .join base i (j + 1) ∧ s.mapper (base + j) ≠ some ⟨[], none⟩) ∨
      (∃ i < job.numReducers, s.main = .await i ∧ s.reducer i ≠ some .finished) ∨ s.main = .done := by
  unfold stepMain at h
  split at h
  · split at h
    · split at h <;> cases h
    · cases h
  · next base i j hm =>
    split at h
    · cases h
    · next hne => exact .inl ⟨base, i, j, hm, fun he => hne he⟩
  · cases h
  · split at h <;> cases h
  · next i hm =>
    split at h
    · next hlt =>
      split at h
      · cases h
      · next hne => exact .inr (.inl ⟨i, hlt, hm, fun he => hne he⟩)
    · cases h
  · next hm => exact .inr (.inr hm)

def Blocks.wild : Blocks where
  dataNode := fun _ => none
  head := fun _ => some 0

theorem emitVal_init (b : Blocks) (key value : CStr) :
    ∃ store i, (Store.init b).emitVal b key value = .ok (store, i) ∧ store.nodes = [] ∧ store.sorted = b.head := by
  have hlt : Store.hash key < SIZE := Nat.mod_lt _ (by decide)
  have hprobe : (Store.init b).probe key = .ok (Store.hash key) := by
    obtain ⟨n, hn⟩ : ∃ n, SIZE - Store.hash key = n + 1 := ⟨SIZE - Store.hash key - 1, by omega⟩
    show (Store.init b).probeFrom key (SIZE - Store.hash key) (Store.hash key) = _
    rw [hn]
    rfl
  refine ⟨_, _, by rw [Store.emitVal, hprobe, ok_bind], ?_, ?_⟩
  · exact Store.claimSlot_nodes _
  · exact Store.claimSlot_sorted _

theorem emitSort_wild {store : Store} (hnodes : store.nodes = []) (p index : Nat) (key : CStr) (hhead : store.sorted p = some 0) :
    store.emitSort p key index = .error .wild := by
  unfold Store.emitSort
  rw [hnodes, hhead]
  show (store.place key (0 + 1) none (some 0) >>= _) = _
  rw [Store.place, hnodes]
  rfl

theorem emitSort_zeroed {store : Store} (p index : Nat) (key : CStr) (hhead : store.sorted p = none) :
    ∃ store', store.emitSort p key index = .ok store' := by
  unfold Store.emitSort
  rw [hhead]
  exact ⟨_, rfl⟩

/-- A thread of a fresh state that is about to read a link: with cleared blocks it goes on, with wild ones it does not. -/
def Tells (job : Job F Q) (s : State F Q) (l : List Act) : Prop :=
  (run (next job .zeroed) { s with store := .init .zeroed } l).isSome ∧ run (next job .wild) { s with store := .init .wild } l = none

theorem tells_mapper {i : Nat} {key value : CStr} {todo : List (CStr × CStr)} (ht : s.mapper i = some ⟨(key, value) :: todo, none⟩) :
    Tells job s [.mapper i, .mapper i] := by
  have hfirst : ∀ b : Blocks, ∃ s₁ : State F Q, next job b { s with store := .init b } (.mapper i) = some s₁ ∧
      (∃ index, s₁.mapper i = some ⟨todo, some (key, index)⟩) ∧ s₁.store.nodes = [] ∧ s₁.store.sorted = b.head := by
    intro b
    obtain ⟨store, index, he, hnodes, hsorted⟩ := emitVal_init b key value
    refine ⟨{ s with store := store, mapper := Function.update s.mapper i (some { todo := todo, midway := some (key, index) }) }, ?_,
      ⟨index, Function.update_self ..⟩, hnodes, hsorted⟩
    show stepMapper job b _ i = _
    unfold stepMapper
    dsimp only
    rw [ht]
    dsimp only
    rw [he]
  refine ⟨?_, ?_⟩
  · obtain ⟨s₁, hs₁, ⟨index, ht₁⟩, -, hsorted⟩ := hfirst .zeroed
    obtain ⟨store', he⟩ := emitSort_zeroed (job.part key) index key (show s₁.store.sorted _ = none by rw [hsorted]; rfl)
    rw [run, List.foldlM_cons, hs₁]
    show (stepMapper job .zeroed s₁ i >>= _).isSome
    unfold stepMapper
    rw [ht₁]
    dsimp only
    rw [he]
    rfl
  · obtain ⟨s₁, hs₁, ⟨index, ht₁⟩, hnodes, hsorted⟩ := hfirst .wild
    rw [run, List.foldlM_cons, hs₁]
    show (stepMapper job .wild s₁ i >>= _) = none
    unfold stepMapper
    rw [ht₁]
    dsimp only
    rw [emitSort_wild hnodes _ _ _ (by rw [hsorted]; rfl)]
    rfl

theorem tells_reducer {p : Nat} (ht : s.reducer p = some .start) : Tells job s [.reducer p] := by
  have hstep : ∀ b : Blocks, next job b { s with store := .init b } (.reducer p) =
      enter job { s with store := .init b } p (b.head p) := fun b => by
    show stepReducer job _ p = _
    unfold stepReducer
    dsimp only
    rw [ht]
    rfl
  refine ⟨?_, ?_⟩
  · rw [run, List.foldlM_cons, hstep]
    rfl
  · rw [run, List.foldlM_cons, hstep]
    rfl

theorem Fresh.tells (h : Fresh job b s) (hstop : stepMain job s = none) (hj : ¬ Inert job) : ∃ l, Tells job s l := by
  obtain ⟨base, i, j, hm, hne⟩ | ⟨i, hlt, hm, -⟩ | hdone := stepMain_eq_none hstop
  · have hb := h.phase.bounds
    have hmade : base + j < s.main.made job.files.length := by
      rw [hm] at hb ⊢
      have hle : base + (j + 1) ≤ i := hb.1
      show base + j < i
      omega
    obtain ⟨t, ht⟩ := Option.isSome_iff_exists.1 ((h.phase.mappers _).2 hmade)
    obtain ⟨f, -, rfl⟩ := h.mappers _ t ht
    cases hmap : job.map f with
    | nil =>
      rw [hmap] at ht
      exact absurd ht hne
    | cons kv todo =>
      rw [hmap] at ht
      exact ⟨_, tells_mapper ht⟩
  · obtain ⟨t, ht⟩ := Option.isSome_iff_exists.1 ((h.phase.reducers i).2 (by rw [hm]; exact hlt))
    obtain rfl := h.reducers i t ht
    exact ⟨_, tells_reducer ht⟩
  · -- at the end there is no reducer, and no thread has had anything to emit
    refine absurd (.inr ⟨?_, fun f hf => ?_⟩) hj
    · by_contra hpos
      have hfin := h.phase.awaited 0 (by rw [hdone]; exact Nat.pos_of_ne_zero hpos)
      cases h.reducers 0 _ hfin
    · obtain ⟨i, hi, rfl⟩ := List.mem_iff_getElem.1 hf
      obtain ⟨t, ht⟩ := Option.isSome_iff_exists.1 ((h.phase.mappers i).2 (by rw [hdone]; exact hi))
      obtain ⟨f, hf', rfl⟩ := h.mappers i t ht
      obtain rfl : job.files[i] = f := by rw [List.getElem?_eq_getElem hi] at hf'; exact Option.some.inj hf'
      exact congrArg MapThread.todo ((h.phase.over (by rw [hdone]; trivial)).2 i _ ht)

theorem inert_of_independent (h : Independent job) : Inert job := by
  by_contra hj
  have hmappers : 1 ≤ job.numMappers ∨ job.files = [] := by
    by_contra hno
    obtain ⟨h0, hne⟩ := not_or.1 hno
    exact hj (.inl ⟨hne, by omega⟩)
  obtain ⟨n, s, hrun, hfresh, hstop⟩ := fresh_init.main_stops (b := .zeroed) hmappers
  obtain ⟨l, hgoes, hsticks⟩ := hfresh.tells hstop hj
  have hsame := h .zeroed .wild (List.replicate n .main ++ l)
  have hwild : run (next job .wild) (.init job .wild) (List.replicate n .main) = some { s with store := .init .wild } := by
    have := run_main_store job .zeroed .wild (.init job .zeroed) (.init .wild) n
    rw [hrun] at this
    exact this
  have hs : { s with store := .init .zeroed } = s := by rw [← hfresh.store]
  rw [hs] at hgoes
  obtain ⟨s', hs'⟩ := Option.isSome_iff_exists.1 hgoes
  rw [run, List.foldlM_append, ← run, hrun, run, List.foldlM_append, ← run, hwild] at hsame
  change (run (next job .zeroed) s l).map State.seen = (run (next job .wild) { s with store := .init .wild } l).map State.seen at hsame
  rw [hs', hsticks] at hsame
  cases hsame

/-- What a run shows does not depend on the fresh blocks exactly for the jobs that do nothing. -/
theorem independent_iff_inert (job : Job F Q) : Independent job ↔ Inert job :=
  ⟨inert_of_independent, fun hj _ b₂ l => idle_init.run_seen hj (.init b₂) l⟩

end

theorem nul_notMem_a : 0 ∉ ([97] : List UInt8) := by decide

theorem nul_notMem_b : 0 ∉ ([98] : List UInt8) := by decide

theorem nul_notMem_one : 0 ∉ ([49] : List UInt8) := by decide

theorem nul_notMem_two : 0 ∉ ([50] : List UInt8) := by decide

def twoKeys : Job Unit Counting where
  files := [()]
  map := fun _ => [(⟨[97], nul_notMem_a⟩, ⟨[49], nul_notMem_one⟩), (⟨[98], nul_notMem_b⟩, ⟨[50], nul_notMem_two⟩)]
  numMappers := 1
  reduce := wordcountReduce
  numReducers := 1
  partition := mrDefaultHashPartition

/-- The link of the second value happens to lead to the first one. -/
def linked : Blocks where
  dataNode := fun n => if n = 1 then some 0 else none
  head := fun _ => none

def twoKeysRun : List Act :=
  [Act.main, .main] ++ List.replicate 4 (Act.mapper 0) ++ List.replicate 4 Act.main ++ List.replicate 8 (Act.reducer 0)

/-- The second `get_next` for `b` returns the value of `a` or NULL. -/
theorem not_independent_twoKeys : ¬ Independent twoKeys := by
  intro h
  have hsame := h .zeroed linked twoKeysRun
  have hlog : ((run (next twoKeys .zeroed) (.init twoKeys .zeroed) twoKeysRun).map State.seen).map (fun x => x.2.map GetCall.answer) ≠
      ((run (next twoKeys linked) (.init twoKeys linked) twoKeysRun).map State.seen).map fun x => x.2.map GetCall.answer := by
    decide +kernel
  exact hlog (congrArg _ hsame)

end Ostep.MapReduce
