import Mathlib.Algebra.BigOperators.Group.Finset.Basic
import Mathlib.Tactic.Abel
import Ostep.MapReduce.StoreSpec
import Ostep.MapReduce.ThreadsSpec

/-!
# No value is lost, no key is missed

`Emitted` counts pairs: those that `get_next` has returned, those in the store and those that a mapper still has to
emit are together what the mappers started so far emit. It also says where each emitted key is: in the list of its
partition, between the two sections of an `MR_Emit`, or still to come. `Reduced` follows the reducers along their
lists, which no longer change once a reducer exists.
-/

namespace Ostep.MapReduce

open Finset

theorem sum_range_split {M : Type*} [AddCommMonoid M] {n i : Nat} {f f' : Nat → M} (hi : i < n) (hne : ∀ j, j ≠ i → f j = f' j) :
    ∃ e, ∑ j ∈ range n, f j = f i + e ∧ ∑ j ∈ range n, f' j = f' i + e := by
  refine ⟨∑ j ∈ (range n).erase i, f' j, ?_, (Finset.add_sum_erase _ f' (mem_range.2 hi)).symm⟩
  rw [← Finset.add_sum_erase _ f (mem_range.2 hi), Finset.sum_congr rfl fun j hj => hne j (Finset.ne_of_mem_erase hj)]

theorem sum_range_add {M : Type*} [AddCommMonoid M] {n i : Nat} {f f' : Nat → M} {x : M} (hi : i < n)
    (hfi : f i = x + f' i) (hne : ∀ j, j ≠ i → f j = f' j) : ∑ j ∈ range n, f j = x + ∑ j ∈ range n, f' j := by
  obtain ⟨e, hf, hf'⟩ := sum_range_split hi hne
  rw [hf, hf', hfi, add_assoc]

def fibre (B : Multiset (CStr × CStr)) (key : CStr) : Multiset CStr := (B.filter fun x => x.1 = key).map Prod.snd

section
variable {B : Multiset (CStr × CStr)} {key k value : CStr}

theorem fibre_cons_self : fibre ((key, value) ::ₘ B) key = value ::ₘ fibre B key := by
  simp [fibre]

theorem fibre_cons_of_ne (h : k ≠ key) : fibre ((key, value) ::ₘ B) k = fibre B k := by
  simp [fibre, h.symm]

theorem fibre_add (B B' : Multiset (CStr × CStr)) (key : CStr) : fibre (B + B') key = fibre B key + fibre B' key := by
  rw [fibre, Multiset.filter_add, Multiset.map_add]
  rfl

theorem mem_fibre : value ∈ fibre B key ↔ (key, value) ∈ B := by
  unfold fibre
  simp only [Multiset.mem_map, Multiset.mem_filter]
  constructor
  · rintro ⟨⟨k, v⟩, ⟨hmem, rfl⟩, rfl⟩
    exact hmem
  · intro h
    exact ⟨(key, value), ⟨h, rfl⟩, rfl⟩

end

/-- The keys and values that calls of `get_next` have returned. -/
def poppedOf (log : List GetCall) : Multiset (CStr × CStr) :=
  Multiset.ofList (log.filterMap fun c => c.answer.map fun v => (c.key, v))

theorem poppedOf_concat_none (log : List GetCall) {c : GetCall} (h : c.answer = none) : poppedOf (log ++ [c]) = poppedOf log := by
  simp [poppedOf, List.filterMap_append, h]

theorem poppedOf_concat_some (log : List GetCall) {c : GetCall} {v : CStr} (h : c.answer = some v) :
    poppedOf (log ++ [c]) = poppedOf log + {(c.key, v)} := by
  rw [poppedOf, List.filterMap_append, ← Multiset.coe_add]
  simp [poppedOf, h]

section
variable {F Q : Type*}

namespace State

variable (s : State F Q)

def left (i : Nat) : Multiset (CStr × CStr) :=
  match s.mapper i with
  | some t => (t.todo : Multiset (CStr × CStr))
  | none => 0

def popped : Multiset (CStr × CStr) := poppedOf s.getLog

/-- What `get_next(key, ...)` has returned, in this order. -/
def answers (key : CStr) : List (Option CStr) := (s.getLog.filter fun c => c.key = key).map GetCall.answer

def calls (p : Nat) : List CStr := (s.reduceLog.filter fun c => c.1 = p).map Prod.snd

/-- The reducer `p` has called `reduce` for the keys of its list up to the node it is at. -/
def Reducing (p : Nat) : Prop :=
  match s.reducer p with
  | none | some .start => s.calls p = []
  | some (.calling a key _) => ∃ l₁ x l₂, s.store.Part p (l₁ ++ (a, x) :: l₂) ∧ x.key = key ∧ s.calls p = keysOf l₁ ++ [key]
  | some .finished => ∃ l, s.store.Part p l ∧ s.calls p = keysOf l

end State

variable (job : Job F Q)

/-- What the mappers started so far emit in the end. -/
def State.emits (s : State F Q) : List (CStr × CStr) := s.mapLog.flatMap job.map

structure Emitted (s : State F Q) (g : Groups) (B : Multiset (CStr × CStr)) : Prop where
  rep : Rep job.part s.store g
  fibres : ∀ key, fibre B key = g.vals key
  account : s.popped + B + ∑ i ∈ range job.files.length, s.left i = s.emits job
  midway : ∀ i t key index, s.mapper i = some t → t.midway = some (key, index) → ∃ value, (key, value) ∈ s.emits job
  keysIn : ∀ p, ∀ key ∈ g.keys p, ∃ value, (key, value) ∈ s.emits job
  keysOut : ∀ key value, (key, value) ∈ s.emits job → key ∈ g.keys (job.part key) ∨
    ∃ i t, s.mapper i = some t ∧ (t.midway.map Prod.fst = some key ∨ key ∈ t.todo.map Prod.fst)

structure Reduced (s : State F Q) (g : Groups) : Prop where
  reducing : ∀ p, s.Reducing p
  logged : ∀ c ∈ s.getLog, (s.reducer c.thread).isSome
  answers : ∀ key, ∃ (vs : List CStr) (n : Nat), s.answers key = vs.map some ++ List.replicate n none ∧ (0 < n → g.vals key = [])

variable {job} {s : State F Q} {g : Groups} {B : Multiset (CStr × CStr)}

theorem Emitted.congr {s' : State F Q} (h : Emitted job s g B) (hstore : s'.store = s.store) (hmapper : s'.mapper = s.mapper)
    (hmapLog : s'.mapLog = s.mapLog) (hgetLog : s'.getLog = s.getLog) : Emitted job s' g B := by
  have hemits : s'.emits job = s.emits job := by rw [State.emits, hmapLog, State.emits]
  have hleft : ∀ i, s'.left i = s.left i := fun i => by rw [State.left, hmapper, State.left]
  refine ⟨by rw [hstore]; exact h.rep, h.fibres, ?_, ?_, ?_, ?_⟩
  · simp only [hemits, hleft]
    rw [State.popped, hgetLog]
    exact h.account
  · rw [hmapper, hemits]
    exact h.midway
  · rw [hemits]
    exact h.keysIn
  · rw [hmapper, hemits]
    exact h.keysOut

/-! ### Steps of the main thread -/

theorem Emitted.create {base i : Nat} {f : F} (h : Emitted job s g B) (hi : i < job.files.length) (hnone : s.mapper i = none) :
    Emitted job { s with
      mapper := Function.update s.mapper i (some { todo := job.map f, midway := none })
      main := .create base (i + 1)
      mapLog := s.mapLog ++ [f] } g B := by
  have hemits : State.emits job { s with
      mapper := Function.update s.mapper i (some { todo := job.map f, midway := none })
      main := .create base (i + 1)
      mapLog := s.mapLog ++ [f] } = s.emits job ++ job.map f := by
    simp [State.emits]
  refine ⟨h.rep, h.fibres, ?_, fun j t key index ht hmid => ?_, fun p key hkey => ?_, fun key value hkv => ?_⟩
  · have hsum : ∑ j ∈ range job.files.length, State.left { s with
        mapper := Function.update s.mapper i (some { todo := job.map f, midway := none })
        main := .create base (i + 1)
        mapLog := s.mapLog ++ [f] } j = (job.map f : Multiset (CStr × CStr)) + ∑ j ∈ range job.files.length, s.left j := by
      refine sum_range_add hi ?_ fun j hj => ?_
      · simp [State.left, hnone]
      · simp [State.left, hj]
    rw [hemits, ← Multiset.coe_add, ← h.account, hsum]
    show s.popped + B + _ = _
    abel
  · rw [hemits]
    have ht : Function.update s.mapper i (some _) j = some t := ht
    by_cases hji : j = i
    · subst hji
      rw [Function.update_self] at ht
      cases ht
      cases hmid
    · rw [Function.update_of_ne hji] at ht
      obtain ⟨value, hv⟩ := h.midway j t key index ht hmid
      exact ⟨value, List.mem_append_left _ hv⟩
  · rw [hemits]
    obtain ⟨value, hv⟩ := h.keysIn p key hkey
    exact ⟨value, List.mem_append_left _ hv⟩
  · rw [hemits] at hkv
    show _ ∨ ∃ j t, Function.update s.mapper i (some _) j = some t ∧ _
    rcases List.mem_append.1 hkv with hold | hnew
    · refine (h.keysOut key value hold).imp_right ?_
      rintro ⟨j, t, ht, hk⟩
      have hji : j ≠ i := by rintro rfl; rw [hnone] at ht; cases ht
      exact ⟨j, t, by rw [Function.update_of_ne hji, ht], hk⟩
    · exact .inr ⟨i, _, Function.update_self .., .inr (List.mem_map_of_mem hnew)⟩

/-! ### Steps of the mappers -/

theorem Emitted.todo_mem {i : Nat} {t : MapThread} (h : Emitted job s g B) (hi : i < job.files.length)
    (ht : s.mapper i = some t) {x : CStr × CStr} (hx : x ∈ t.todo) : x ∈ s.emits job := by
  have hsum : x ∈ ∑ j ∈ range job.files.length, s.left j :=
    Multiset.mem_sum.2 ⟨i, mem_range.2 hi, by rw [State.left, ht]; exact hx⟩
  have := h.account ▸ Multiset.mem_add.2 (.inr hsum)
  exact this

theorem Emitted.emitVal {i index : Nat} {key value : CStr} {todo : List (CStr × CStr)} {store : Store} (h : Emitted job s g B)
    (hi : i < job.files.length) (ht : s.mapper i = some ⟨(key, value) :: todo, none⟩)
    (hrep : Rep job.part store (g.emitVal key value)) :
    Emitted job { s with
      store := store, mapper := Function.update s.mapper i (some { todo := todo, midway := some (key, index) }) }
      (g.emitVal key value) ((key, value) ::ₘ B) := by
  have hemit : (key, value) ∈ s.emits job := h.todo_mem hi ht (by simp)
  refine ⟨hrep, fun k => ?_, ?_, fun j t k n hj hmid => ?_, h.keysIn, fun k v hkv => ?_⟩
  · show _ = (Function.update g.vals key (value :: g.vals key) k : Multiset CStr)
    by_cases hk : k = key
    · subst hk
      rw [fibre_cons_self, h.fibres, Function.update_self]
      rfl
    · rw [fibre_cons_of_ne hk, h.fibres, Function.update_of_ne hk]
  · have hsum : ∑ j ∈ range job.files.length, s.left j = {(key, value)} + ∑ j ∈ range job.files.length,
        State.left { s with
          store := store, mapper := Function.update s.mapper i (some { todo := todo, midway := some (key, index) }) } j := by
      refine sum_range_add hi ?_ fun j hj => ?_
      · simp [State.left, ht]
      · simp [State.left, hj]
    show s.popped + ((key, value) ::ₘ B) + _ = s.emits job
    rw [← h.account, hsum, ← Multiset.singleton_add]
    abel
  · have hj : Function.update s.mapper i (some _) j = some t := hj
    by_cases hji : j = i
    · subst hji
      rw [Function.update_self] at hj
      cases hj
      cases hmid
      exact ⟨value, hemit⟩
    · rw [Function.update_of_ne hji] at hj
      exact h.midway j t k n hj hmid
  · show _ ∨ ∃ j t, Function.update s.mapper i (some _) j = some t ∧ _
    refine (h.keysOut k v hkv).imp_right ?_
    rintro ⟨j, t, hj, hk⟩
    by_cases hji : j = i
    · subst hji
      cases ht.symm.trans hj
      refine ⟨j, _, Function.update_self .., ?_⟩
      rcases hk with hk | hk
      · cases hk
      · rcases List.mem_cons.1 hk with rfl | hk
        · exact .inl rfl
        · exact .inr hk
    · exact ⟨j, t, by rw [Function.update_of_ne hji, hj], hk⟩

theorem Groups.mem_emitSort {p q : Nat} {key k : CStr} :
    k ∈ (g.emitSort p key).keys q ↔ k ∈ g.keys q ∨ q = p ∧ k = key := by
  show k ∈ Function.update g.keys p _ q ↔ _
  by_cases hq : q = p
  · subst hq
    rw [Function.update_self, mem_insert]
    simp [or_comm]
  · rw [Function.update_of_ne hq]
    simp [hq]

theorem Emitted.emitSort {i index : Nat} {key : CStr} {todo : List (CStr × CStr)} {store : Store} (h : Emitted job s g B)
    (hi : i < job.files.length) (ht : s.mapper i = some ⟨todo, some (key, index)⟩)
    (hrep : Rep job.part store (g.emitSort (job.part key) key)) :
    Emitted job { s with store := store, mapper := Function.update s.mapper i (some { todo := todo, midway := none }) }
      (g.emitSort (job.part key) key) B := by
  refine ⟨hrep, h.fibres, ?_, fun j t k n hj hmid => ?_, fun p k hk => ?_, fun k v hkv => ?_⟩
  · have hsum : ∑ j ∈ range job.files.length, s.left j = 0 + ∑ j ∈ range job.files.length,
        State.left { s with
          store := store, mapper := Function.update s.mapper i (some { todo := todo, midway := none }) } j := by
      refine sum_range_add hi ?_ fun j hj => ?_
      · simp [State.left, ht]
      · simp [State.left, hj]
    show s.popped + B + _ = s.emits job
    rw [← h.account, hsum, zero_add]
  · have hj : Function.update s.mapper i (some _) j = some t := hj
    by_cases hji : j = i
    · subst hji
      rw [Function.update_self] at hj
      cases hj
      cases hmid
    · rw [Function.update_of_ne hji] at hj
      exact h.midway j t k n hj hmid
  · rcases Groups.mem_emitSort.1 hk with hk | ⟨-, rfl⟩
    · exact h.keysIn p k hk
    · exact h.midway i _ k index ht rfl
  · show _ ∨ ∃ j t, Function.update s.mapper i (some _) j = some t ∧ _
    rcases h.keysOut k v hkv with hk | ⟨j, t, hj, hk⟩
    · exact .inl (Groups.mem_emitSort.2 (.inl hk))
    · by_cases hji : j = i
      · subst hji
        cases ht.symm.trans hj
        rcases hk with hk | hk
        · cases hk
          exact .inl (Groups.mem_emitSort.2 (.inr ⟨rfl, rfl⟩))
        · exact .inr ⟨j, _, Function.update_self .., .inr hk⟩
      · exact .inr ⟨j, t, by rw [Function.update_of_ne hji, hj], hk⟩

/-! ### Steps of the reducers -/

theorem Emitted.get {store : Store} {k : CStr} (h : Emitted job s g B) (p a n : Nat) (key : CStr) (q : Q)
    (hrep : Rep job.part store (g.getNext k)) :
    ∃ B', Emitted job { s with
      store := store
      reducer := Function.update s.reducer p (some (.calling a key q))
      getLog := s.getLog ++ [{ thread := n, reducing := key, key := k, answer := (g.vals k).head? }] } (g.getNext k) B' := by
  cases hv : g.vals k with
  | nil =>
    -- NULL: nothing leaves the store
    have hg : g.getNext k = g := by rw [Groups.getNext, hv, List.tail_nil, ← hv, Function.update_eq_self]
    rw [hg] at hrep ⊢
    refine ⟨B, hrep, h.fibres, ?_, h.midway, h.keysIn, h.keysOut⟩
    show poppedOf (s.getLog ++ [_]) + B + ∑ i ∈ range job.files.length, s.left i = s.emits job
    rw [poppedOf_concat_none _ rfl]
    exact h.account
  | cons v vs =>
    have hmem : (k, v) ∈ B := mem_fibre.1 (by rw [h.fibres, hv]; simp)
    obtain ⟨B', rfl⟩ := Multiset.exists_cons_of_mem hmem
    refine ⟨B', hrep, fun k' => ?_, ?_, h.midway, h.keysIn, h.keysOut⟩
    · have hf := h.fibres k'
      show _ = (Function.update g.vals k (g.vals k).tail k' : Multiset CStr)
      by_cases hk : k' = k
      · subst hk
        rw [fibre_cons_self, hv, ← Multiset.cons_coe] at hf
        rw [Function.update_self, hv]
        exact (Multiset.cons_inj_right v).1 hf
      · rw [fibre_cons_of_ne hk] at hf
        rw [Function.update_of_ne hk]
        exact hf
    · show poppedOf (s.getLog ++ [_]) + B' + ∑ i ∈ range job.files.length, s.left i = s.emits job
      rw [poppedOf_concat_some _ rfl, ← h.account, ← Multiset.singleton_add, State.popped]
      abel

section
variable {p : Nat} {s' : State F Q}

theorem Reducing.congr {q : Nat} (h : s.Reducing q) (hreducer : s'.reducer q = s.reducer q) (hcalls : s'.calls q = s.calls q)
    (hnodes : s'.store.nodes = s.store.nodes) (hsorted : s'.store.sorted = s.store.sorted) : s'.Reducing q := by
  unfold State.Reducing Store.Part at h ⊢
  rw [hreducer, hcalls, hnodes, hsorted]
  exact h

theorem calls_concat_of_ne {q : Nat} {key : CStr} (hq : q ≠ p) (h : s'.reduceLog = s.reduceLog ++ [(p, key)]) :
    s'.calls q = s.calls q := by
  simp [State.calls, h, hq.symm]

theorem calls_concat_self {key : CStr} (h : s'.reduceLog = s.reduceLog ++ [(p, key)]) : s'.calls p = s.calls p ++ [key] := by
  simp [State.calls, h]

theorem AtHead.next_node {curr : Option Nat} (hat : AtHead job s p curr) (h : s.Reducing p)
    (hpart : ∃ l, s.store.Part p l) :
    ∃ l₁ l₂, s.store.Part p (l₁ ++ l₂) ∧ s.calls p = keysOf l₁ ∧ Linked Node.next s.store.nodes curr l₂ := by
  unfold State.Reducing at h
  rcases hat with ⟨ht, rfl⟩ | ⟨a, key, q, x, ht, -, hx, rfl⟩
  · rw [ht] at h
    obtain ⟨l, hl⟩ := hpart
    exact ⟨[], l, hl, h, hl⟩
  · rw [ht] at h
    obtain ⟨l₁, x', l₂, hl, rfl, hcalls⟩ := h
    have hx' : s.store.nodes[a]? = some x' := Linked.get hl (by simp)
    cases hx.symm.trans hx'
    refine ⟨l₁ ++ [(a, x)], l₂, by rw [List.append_assoc]; exact hl, ?_, Linked.tail hl⟩
    rw [hcalls, keysOf_append]
    rfl

theorem Reduced.mapping {store : Store} {mapper : Nat → Option MapThread} (h : Reduced s g) (hnone : ∀ p, s.reducer p = none)
    (g' : Groups) : Reduced { s with store := store, mapper := mapper } g' := by
  have hget : s.getLog = [] := by
    refine List.eq_nil_iff_forall_not_mem.2 fun c hc => ?_
    have := h.logged c hc
    rw [hnone] at this
    cases this
  refine ⟨fun p => ?_, h.logged, fun key => ⟨[], 0, ?_, nofun⟩⟩
  · have := h.reducing p
    unfold State.Reducing at this ⊢
    simp only [hnone p] at this ⊢
    exact this
  · simp [State.answers, hget]

theorem Reduced.spawn {m : Main} (h : Reduced s g) (hnone : s.reducer p = none) :
    Reduced { s with reducer := Function.update s.reducer p (some .start), main := m } g := by
  refine ⟨fun q => ?_, fun c hc => ?_, h.answers⟩
  · by_cases hq : q = p
    · subst hq
      have := h.reducing q
      unfold State.Reducing at this ⊢
      simp only [hnone, Function.update_self] at this ⊢
      exact this
    · exact Reducing.congr (h.reducing q) (Function.update_of_ne hq _ _) rfl rfl rfl
  · show (Function.update s.reducer p _ c.thread).isSome
    by_cases hq : c.thread = p
    · rw [hq, Function.update_self]
      rfl
    · rw [Function.update_of_ne hq]
      exact h.logged c hc

theorem isSome_update_reducer {t : ReduceThread Q} {q : Nat} (h : (s.reducer q).isSome) :
    (Function.update s.reducer p (some t) q).isSome := by
  by_cases hq : q = p
  · rw [hq, Function.update_self]
    rfl
  · rw [Function.update_of_ne hq]
    exact h

theorem Reduced.finish (h : Reduced s g) (hat : AtHead job s p none) (hpart : ∃ l, s.store.Part p l) :
    Reduced { s with reducer := Function.update s.reducer p (some .finished) } g := by
  refine ⟨fun q => ?_, fun c hc => isSome_update_reducer (h.logged c hc), h.answers⟩
  by_cases hq : q = p
  · subst hq
    obtain ⟨l₁, l₂, hl, hcalls, hlink⟩ := hat.next_node (h.reducing q) hpart
    cases l₂ with
    | nil =>
      unfold State.Reducing
      simp only [Function.update_self]
      exact ⟨l₁, by rw [List.append_nil] at hl; exact hl, hcalls⟩
    | cons b l₂ => cases hlink.1
  · exact Reducing.congr (h.reducing q) (Function.update_of_ne hq _ _) rfl rfl rfl

theorem Reduced.reduce {a : Nat} {x : Node} {q₀ : Q} (h : Reduced s g) (hat : AtHead job s p (some a))
    (hx : s.store.nodes[a]? = some x) (hpart : ∃ l, s.store.Part p l) :
    Reduced { s with
      reducer := Function.update s.reducer p (some (.calling a x.key q₀)), reduceLog := s.reduceLog ++ [(p, x.key)] } g := by
  refine ⟨fun q => ?_, fun c hc => isSome_update_reducer (h.logged c hc), h.answers⟩
  by_cases hq : q = p
  · subst hq
    obtain ⟨l₁, l₂, hl, hcalls, hlink⟩ := hat.next_node (h.reducing q) hpart
    cases l₂ with
    | nil => cases hlink
    | cons b l₂ =>
      obtain ⟨a', x'⟩ := b
      obtain ⟨ha, hx', -⟩ := hlink
      cases ha
      cases hx.symm.trans hx'
      unfold State.Reducing
      simp only [Function.update_self]
      refine ⟨l₁, x, l₂, hl, rfl, ?_⟩
      rw [calls_concat_self (s := s) rfl, hcalls]
  · exact Reducing.congr (h.reducing q) (Function.update_of_ne hq _ _) (calls_concat_of_ne hq rfl) rfl rfl

theorem Reduced.get {a n : Nat} {key k : CStr} {q₀ q₁ : Q} {store : Store} (h : Reduced s g)
    (ht : s.reducer p = some (.calling a key q₀)) (hnodes : store.nodes = s.store.nodes)
    (hsorted : store.sorted = s.store.sorted) (hn : (s.reducer n).isSome) :
    Reduced { s with
      store := store
      reducer := Function.update s.reducer p (some (.calling a key q₁))
      getLog := s.getLog ++ [{ thread := n, reducing := key, key := k, answer := (g.vals k).head? }] } (g.getNext k) := by
  refine ⟨fun q => ?_, fun c hc => ?_, fun key' => ?_⟩
  · by_cases hq : q = p
    · subst hq
      have := h.reducing q
      unfold State.Reducing Store.Part at this ⊢
      simp only [ht, Function.update_self, hnodes, hsorted] at this ⊢
      exact this
    · exact Reducing.congr (h.reducing q) (Function.update_of_ne hq _ _) rfl hnodes hsorted
  · rcases List.mem_append.1 hc with hc | hc
    · exact isSome_update_reducer (h.logged c hc)
    · cases List.mem_singleton.1 hc
      exact isSome_update_reducer hn
  · obtain ⟨vs, m, hans, hzero⟩ := h.answers key'
    by_cases hk : key' = k
    · subst hk
      have hans' : State.answers { s with
          store := store
          reducer := Function.update s.reducer p (some (.calling a key q₁))
          getLog := s.getLog ++ [{ thread := n, reducing := key, key := key', answer := (g.vals key').head? }] } key' =
          vs.map some ++ List.replicate m none ++ [(g.vals key').head?] := by
        simp [State.answers, ← hans]
      have hvals : (g.getNext key').vals key' = (g.vals key').tail := Function.update_self ..
      rw [hans', hvals]
      cases hv : g.vals key' with
      | nil => exact ⟨vs, m + 1, by rw [List.replicate_succ', List.append_assoc]; rfl, fun _ => rfl⟩
      | cons v vs' =>
        -- a value comes out, so NULL has not been returned yet
        have hm : m = 0 := by
          by_contra hm
          rw [hzero (Nat.pos_of_ne_zero hm)] at hv
          cases hv
        subst hm
        exact ⟨vs ++ [v], 0, by simp, nofun⟩
    · refine ⟨vs, m, ?_, fun hm => ?_⟩
      · rw [← hans]
        simp [State.answers, Ne.symm hk]
      · rw [← hzero hm]
        exact Function.update_of_ne hk _ _

end

/-! ### Runs -/

variable (job) in
structure Inv (s : State F Q) : Prop where
  phase : Phase job s
  groups : ∃ g B, Emitted job s g B ∧ Reduced s g

theorem Inv.init : Inv job (.init job .zeroed) := by
  refine ⟨.init, .empty, 0, ?_, ?_⟩
  · refine ⟨Store.rep_init, fun _ => rfl, ?_, ?_, fun p key hkey => ?_, ?_⟩
    · simp [State.popped, poppedOf, State.left, State.emits, State.init]
    · rintro i t key index ⟨⟩
    · simp [Groups.empty] at hkey
    · rintro key value ⟨⟩
  · refine ⟨fun _ => rfl, ?_, fun _ => ⟨[], 0, rfl, fun h => absurd h (Nat.lt_irrefl 0)⟩⟩
    rintro c ⟨⟩

theorem Inv.step {s' : State F Q} {a : Act} (h : Inv job s) (hd : Did job .zeroed s a s') : Inv job s' := by
  obtain ⟨hphase, g, B, he, hr⟩ := h
  refine ⟨hphase.next hd, ?_⟩
  have hpart : ∀ p, ∃ l, s.store.Part p l := fun p => (he.rep.keys p).imp fun _ hl => hl.1
  cases hd with
  | @create base i f hm hf hj =>
    have hnone : s.mapper i = none := hphase.mapper_none (by rw [hm]; exact Nat.le_refl i)
    exact ⟨g, B, he.create (List.getElem?_eq_some_iff.1 hf).1 hnone, hr.reducing, hr.logged, hr.answers⟩
  | full | join | joined | spawned | await | awaited =>
    exact ⟨g, B, he.congr rfl rfl rfl rfl, hr.reducing, hr.logged, hr.answers⟩
  | @spawn i hm hi =>
    have hnone : s.reducer i = none := hphase.reducer_none (by rw [hm]; exact Nat.le_refl i)
    exact ⟨g, B, he.congr rfl rfl rfl rfl, hr.spawn hnone⟩
  | @emitVal i key value todo store index ht hemit =>
    rcases he.rep.emitVal key value with ⟨-, herr⟩ | ⟨store', index', hok, hrep⟩
    · cases herr.symm.trans hemit
    · cases hok.symm.trans hemit
      exact ⟨_, _, he.emitVal (hphase.mapper_lt ht) ht hrep, hr.mapping (hphase.mapping ht nofun) _⟩
  | @emitSort i key index todo store ht hemit =>
    obtain ⟨store', hok, hrep⟩ := he.rep.emitSort key rfl index
    cases hok.symm.trans hemit
    exact ⟨_, B, he.emitSort (hphase.mapper_lt ht) ht hrep, hr.mapping (hphase.mapping ht nofun) _⟩
  | finish hat =>
    exact ⟨g, B, he.congr rfl rfl rfl rfl, hr.finish hat (hpart _)⟩
  | reduce hat hx =>
    exact ⟨g, B, he.congr rfl rfl rfl rfl, hr.reduce hat hx (hpart _)⟩
  | @get p a key q k n store answer ht hc hget =>
    rcases he.rep.getNext k n with ⟨-, herr⟩ | ⟨store', hok, hrep, hnodes, hsorted⟩
    · cases herr.symm.trans hget
    · cases hok.symm.trans hget
      obtain ⟨B', he'⟩ := he.get p a p key (job.reduce.recv q (g.vals k).head?) hrep
      exact ⟨_, B', he', hr.get ht hnodes hsorted (by rw [ht]; rfl)⟩

theorem inv_of_run {l : List Act} (h : run (next job .zeroed) (.init job .zeroed) l = some s) : Inv job s :=
  run_inv (fun _ _ _ hi hn => hi.step (next_did hn)) .init h

/-! ### What the callers see -/

theorem fibre_coe (l : List (CStr × CStr)) (key : CStr) :
    fibre (l : Multiset (CStr × CStr)) key = ((l.filter fun x => x.1 = key).map Prod.snd : List CStr) := by
  simp [fibre]

theorem fibre_popped (s : State F Q) (key : CStr) : fibre s.popped key = ((s.answers key).filterMap id : List CStr) := by
  rw [State.popped, poppedOf, fibre_coe, State.answers]
  congr 1
  induction s.getLog with
  | nil => rfl
  | cons c l ih =>
    by_cases hk : c.key = key
    · cases hv : c.answer <;> simp [hk, hv, ih]
    · cases hv : c.answer <;> simp [hk, hv, ih]

variable (job) in
def Job.emitted (key : CStr) : List CStr := ((job.files.flatMap job.map).filter fun x => x.1 = key).map Prod.snd

theorem Emitted.over (h : Emitted job s g B) (hphase : Phase job s) (hm : s.main.Reduces) (key : CStr) :
    ((s.answers key).filterMap id ++ g.vals key).Perm (job.emitted key) := by
  obtain ⟨hlog, hfin⟩ := hphase.over hm
  have hleft : ∑ i ∈ range job.files.length, s.left i = 0 := by
    refine Finset.sum_eq_zero fun i _ => ?_
    unfold State.left
    cases ht : s.mapper i with
    | none => rfl
    | some t =>
      rw [hfin i t ht]
      rfl
  have := congrArg (fibre · key) h.account
  rw [hleft, add_zero, fibre_add, fibre_popped, h.fibres, State.emits, hlog, fibre_coe, Multiset.coe_add] at this
  exact Multiset.coe_eq_coe.1 this

theorem values_of_answers (vs : List CStr) (n : Nat) : (vs.map some ++ List.replicate n none).filterMap id = vs := by
  rw [List.filterMap_append, List.filterMap_map]
  simp [List.filterMap_replicate_of_none]

theorem Inv.answers (h : Inv job s) (key : CStr) :
    ∃ (vs : List CStr) (n : Nat), s.answers key = vs.map some ++ List.replicate n none ∧ vs.Subperm (job.emitted key) ∧
      (0 < n → vs.Perm (job.emitted key)) := by
  obtain ⟨hphase, g, B, he, hr⟩ := h
  obtain ⟨vs, n, hans, hzero⟩ := hr.answers key
  cases hlog : s.getLog with
  | nil =>
    refine ⟨[], 0, ?_, List.nil_subperm, nofun⟩
    simp [State.answers, hlog]
  | cons c l =>
    have hm : s.main.Reduces := hphase.reduces (hr.logged c (by rw [hlog]; simp))
    have hperm := he.over hphase hm key
    rw [hans, values_of_answers] at hperm
    refine ⟨vs, n, hans, ?_, fun hn => ?_⟩
    · exact (List.sublist_append_left vs _).subperm.trans hperm.subperm
    · rw [hzero hn, List.append_nil] at hperm
      exact hperm

/-- When `MR_Run` returns, each reducer has been called for the emitted keys of its partition, in ascending order. -/
theorem Inv.calls (h : Inv job s) (hdone : s.main = .done) (hpart : ∀ key, job.part key < job.numReducers) (p : Nat) :
    Ascending (s.calls p) ∧ ∀ key, key ∈ s.calls p ↔ job.part key = p ∧ ∃ value, (key, value) ∈ job.files.flatMap job.map := by
  obtain ⟨hphase, g, B, he, hr⟩ := h
  obtain ⟨hlog, hfin⟩ := hphase.over (by rw [hdone]; trivial)
  have hemits : s.emits job = job.files.flatMap job.map := by rw [State.emits, hlog]
  have hreducing := hr.reducing p
  unfold State.Reducing at hreducing
  by_cases hp : p < job.numReducers
  · rw [hphase.awaited p (by rw [hdone]; exact hp)] at hreducing
    obtain ⟨l, hl, hcalls⟩ := hreducing
    obtain ⟨l', hl', hasc, hmem⟩ := he.rep.keys p
    rw [Linked.unique hl hl'] at hcalls
    rw [hcalls]
    refine ⟨hasc, fun key => ?_⟩
    rw [hmem, ← hemits]
    constructor
    · exact fun hk => ⟨he.rep.part p key hk, he.keysIn p key hk⟩
    · rintro ⟨rfl, value, hv⟩
      rcases he.keysOut key value hv with hk | ⟨i, t, ht, hk⟩
      · exact hk
      · rw [hfin i t ht] at hk
        rcases hk with hk | hk
        · cases hk
        · cases hk
  · rw [hphase.reducer_none (by rw [hdone]; exact Nat.le_of_not_lt hp)] at hreducing
    rw [hreducing]
    refine ⟨.nil, fun key => iff_of_false nofun ?_⟩
    rintro ⟨rfl, -⟩
    exact hp (hpart key)

theorem Emitted.mapper_step {i : Nat} {t : MapThread} (he : Emitted job s g B) (ht : s.mapper i = some t)
    (hne : t ≠ ⟨[], none⟩) : Overrun job s ∨ ∃ s', stepMapper job .zeroed s i = some s' := by
  unfold stepMapper
  obtain ⟨todo, _ | ⟨key, index⟩⟩ := t
  · cases todo with
    | nil => exact absurd rfl hne
    | cons x todo =>
      obtain ⟨key, value⟩ := x
      rcases he.rep.emitVal key value with ⟨hover, -⟩ | ⟨store, index, hok, -⟩
      · exact .inl (.inl ⟨i, key, value, todo, ht, hover⟩)
      · exact .inr ⟨_, by simp only [ht, hok]; rfl⟩
  · obtain ⟨store, hok, -⟩ := he.rep.emitSort key rfl index
    exact .inr ⟨_, by simp only [ht, hok]; rfl⟩

theorem AtHead.step {p : Nat} {curr : Option Nat} (hat : AtHead job s p curr) (h : s.Reducing p)
    (hpart : ∃ l, s.store.Part p l) : ∃ s', stepReducer job s p = some s' := by
  obtain ⟨l₁, l₂, -, -, hlink⟩ := hat.next_node h hpart
  rw [stepReducer_of_atHead hat]
  cases l₂ with
  | nil =>
    cases hlink
    exact ⟨_, rfl⟩
  | cons b l₂ =>
    obtain ⟨rfl, hx, -⟩ := hlink
    exact ⟨_, by simp only [enter, hx]; rfl⟩

theorem Emitted.reducer_step {p : Nat} {t : ReduceThread Q} (he : Emitted job s g B) (hr : Reduced s g)
    (ht : s.reducer p = some t) (hne : t ≠ .finished) : Overrun job s ∨ ∃ s', stepReducer job s p = some s' := by
  have hpart : ∃ l, s.store.Part p l := (he.rep.keys p).imp fun _ hl => hl.1
  have hred := hr.reducing p
  cases t with
  | finished => exact absurd rfl hne
  | start => exact .inr (AtHead.step (.inl ⟨ht, rfl⟩) hred hpart)
  | calling a key q =>
    cases hc : job.reduce.call q with
    | none =>
      have hpos := hred
      unfold State.Reducing at hpos
      rw [ht] at hpos
      obtain ⟨l₁, x, l₂, hl, -, -⟩ := hpos
      exact .inr (AtHead.step (.inr ⟨a, key, q, x, ht, hc, Linked.get hl (by simp), rfl⟩) hred hpart)
    | some c =>
      obtain ⟨k, n⟩ := c
      rcases he.rep.getNext k n with ⟨hover, -⟩ | ⟨store, hok, -⟩
      · exact .inl (.inr ⟨p, a, key, q, k, n, ht, hc, hover⟩)
      · exact .inr ⟨_, by simp only [stepReducer, ht, hc, hok]; rfl⟩

/-- Until `MR_Run` returns some thread can take a step, unless a probe runs past the table. -/
theorem Inv.progress (h : Inv job s) (hne : s.main ≠ .done) : Overrun job s ∨ ∃ a s', next job .zeroed s a = some s' := by
  obtain ⟨hphase, g, B, he, hr⟩ := h
  have hmain : (∃ s', stepMain job s = some s') → Overrun job s ∨ ∃ a s', next job .zeroed s a = some s' :=
    fun ⟨s', hs⟩ => .inr ⟨.main, s', hs⟩
  cases hm : s.main with
  | done => exact absurd hm hne
  | create base i =>
    refine hmain ?_
    unfold stepMain
    simp only [hm]
    split
    · split
      · exact ⟨_, rfl⟩
      · exact ⟨_, rfl⟩
    · exact ⟨_, rfl⟩
  | join base i j =>
    cases j with
    | zero => exact hmain ⟨_, by simp only [stepMain, hm]; rfl⟩
    | succ j =>
      -- the main thread waits for a mapper that has not finished, or goes on
      have hb := hphase.bounds
      rw [hm] at hb
      have hsome : (s.mapper (base + j)).isSome := (hphase.mappers _).2 (by rw [hm]; have := hb.1; show base + j < i; omega)
      obtain ⟨t, ht⟩ := Option.isSome_iff_exists.1 hsome
      by_cases hfin : t = ⟨[], none⟩
      · rw [hfin] at ht
        exact hmain ⟨_, by simp only [stepMain, hm, ht]; rfl⟩
      · exact (he.mapper_step ht hfin).imp_right fun ⟨s', hs⟩ => ⟨.mapper _, s', hs⟩
  | spawn i =>
    refine hmain ?_
    unfold stepMain
    simp only [hm]
    split
    · exact ⟨_, rfl⟩
    · exact ⟨_, rfl⟩
  | await i =>
    by_cases hi : i < job.numReducers
    · have hsome : (s.reducer i).isSome := (hphase.reducers i).2 (by rw [hm]; exact hi)
      obtain ⟨t, ht⟩ := Option.isSome_iff_exists.1 hsome
      by_cases hfin : t = .finished
      · rw [hfin] at ht
        exact hmain ⟨_, by simp only [stepMain, hm, hi, ht, if_true]; rfl⟩
      · exact (he.reducer_step hr ht hfin).imp_right fun ⟨s', hs⟩ => ⟨.reducer _, s', hs⟩
    · exact hmain ⟨_, by simp only [stepMain, hm, hi, if_false]; rfl⟩

end

end Ostep.MapReduce
