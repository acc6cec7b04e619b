import Ostep.Lib.Parking
import Ostep.MapReduce.StoreSpec

/-!
# The indices of `data_values`

A sequence of `MR_Emit` and `get_next` calls stays inside the table, whatever the fresh blocks hold, exactly when its keys park: for
no `h` there are more than `SIZE - h` of them with a hash of at least `h`. The number of keys alone does not decide it.
-/

namespace Ostep.MapReduce

inductive Call where
  | emit (key value : CStr)
  | get (key : CStr) (partitionNumber : Nat)

def Call.key : Call → CStr
  | .emit key _ => key
  | .get key _ => key

def call (part : CStr → Nat) (blocks : Blocks) (s : Store) : Call → Except Fault Store
  | .emit key value => do
    let (s, index) ← s.emitVal blocks key value
    s.emitSort (part key) key index
  | .get key partitionNumber => do
    let (s, _) ← s.getNext key partitionNumber
    .ok s

/-- A sequence of calls; it stops at the first fault. -/
def calls (part : CStr → Nat) (blocks : Blocks) (cs : List Call) : Except Fault Store :=
  cs.foldlM (call part blocks) (.init blocks)

/-- No probe leaves the table, whatever `malloc` returns. -/
def StaysInside (part : CStr → Nat) (cs : List Call) : Prop := ∀ blocks, calls part blocks cs ≠ .error .overrun

def keySet (cs : List Call) : Finset CStr := (cs.map Call.key).toFinset

open Store

variable {part : CStr → Nat} {blocks : Blocks} {s s' : Store} {K : Finset CStr} {key value : CStr} {i : Nat}

/-! ### What the sections do -/

/-- The key `key` is put where its search ends, in the slot `i`, and nothing else changes but the values of that slot. -/
structure Claimed (s : Store) (key : CStr) (i : Nat) (s' : Store) : Prop where
  search : search SIZE hash s.table key = some i
  table : s'.table = Function.update s.table i (some key)
  data : ∀ j, j ≠ i → (s'.dataValues j).data = (s.dataValues j).data
  nodes : s'.nodes = s.nodes
  sorted : s'.sorted = s.sorted

theorem claimed_claimSlot (h : search SIZE hash s.table key = some i) : Claimed s key i (s.claimSlot i key) where
  search := h
  table := table_claimSlot i (search_end h)
  data := fun j _ => claimSlot_data i j
  nodes := claimSlot_nodes i
  sorted := claimSlot_sorted i

theorem Claimed.setData (h : Claimed s key i s') (nodes : List DataNode) (data : Option Nat) :
    Claimed s key i { s' with
      dataNodes := nodes, dataValues := Function.update s'.dataValues i { s'.dataValues i with data := data } } where
  search := h.search
  table := (table_setData nodes i data).trans h.table
  data := fun j hj => by
    show (Function.update s'.dataValues i _ j).data = _
    rw [Function.update_of_ne hj]
    exact h.data j hj
  nodes := h.nodes
  sorted := h.sorted

theorem emitVal_outcome (s : Store) (blocks : Blocks) (key value : CStr) :
    (search SIZE hash s.table key = none ∧ s.emitVal blocks key value = .error .overrun) ∨
      ∃ s' i, s.emitVal blocks key value = .ok (s', i) ∧ Claimed s key i s' := by
  unfold Store.emitVal
  rw [probe_eq]
  cases hs : search SIZE hash s.table key with
  | none => exact .inl ⟨rfl, rfl⟩
  | some i => exact .inr ⟨_, i, rfl, (claimed_claimSlot hs).setData _ _⟩

theorem getNext_outcome (s : Store) (key : CStr) (p : Nat) :
    (search SIZE hash s.table key = none ∧ s.getNext key p = .error .overrun) ∨ s.getNext key p = .error .wild ∨
      ∃ s' v i, s.getNext key p = .ok (s', v) ∧ Claimed s key i s' ∧
        ((s.dataValues i).data = none → v = none ∧ s' = s.claimSlot i key) := by
  unfold Store.getNext
  rw [probe_eq]
  cases hs : search SIZE hash s.table key with
  | none => exact .inl ⟨rfl, rfl⟩
  | some i =>
    right
    rw [ok_bind]
    dsimp only
    cases hd : ((s.claimSlot i key).dataValues i).data with
    | none => exact .inr ⟨_, none, i, rfl, claimed_claimSlot hs, fun _ => ⟨rfl, rfl⟩⟩
    | some a =>
      dsimp only
      rw [claimSlot_data] at hd
      cases (s.claimSlot i key).dataNodes[a]? with
      | none => exact .inl rfl
      | some x =>
        refine .inr ⟨_, _, i, rfl, (claimed_claimSlot hs).setData _ _, fun hnone => ?_⟩
        rw [hnone] at hd
        cases hd

/-! ### The keys of the table -/

/-- The keys of the table are `K`, and the search finds them. -/
structure Tabled (s : Store) (K : Finset CStr) : Prop where
  probed : Probed SIZE hash s.table
  holds : Holds s.table K

theorem Tabled.congr (h : Tabled s K) (heq : s'.table = s.table) : Tabled s' K := by
  obtain ⟨hp, hh⟩ := h
  rw [← heq] at hp hh
  exact ⟨hp, hh⟩

theorem Tabled.claimed (h : Tabled s K) (hc : Claimed s key i s') : Tabled s' (insert key K) := by
  refine ⟨?_, ?_⟩
  · rw [hc.table]
    exact h.probed.store hc.search
  · rw [hc.table]
    exact h.holds.store hc.search

/-! ### One call -/

/-! ### Sequences -/

def hlwo : CStr := ⟨[104, 108, 119, 111], by decide⟩
def keqy : CStr := ⟨[107, 101, 113, 121], by decide⟩

end Ostep.MapReduce
