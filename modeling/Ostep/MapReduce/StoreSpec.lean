import Mathlib.Data.Finset.Insert
import Mathlib.Data.List.Basic
import Ostep.Lib.CInt
import Ostep.Lib.Linked
import Ostep.Lib.Probe
import Ostep.MapReduce.Store

/-!
# What the store is for

`Groups` is the store as its callers see it: for each key a stack of values, and for each partition a set of
keys. `Rep` ties it to the pointers: the search finds each key, the links of its slot lead through its values, and
those of a partition through its keys in ascending order. Each of the three sections does to the store what the
operation of the same name does to the groups.
-/

namespace Ostep.MapReduce

structure Groups where
  vals : CStr → List CStr
  keys : Nat → Finset CStr

namespace Groups

def empty : Groups where
  vals := fun _ => []
  keys := fun _ => ∅

variable (g : Groups)

def emitVal (key value : CStr) : Groups := { g with vals := Function.update g.vals key (value :: g.vals key) }

def emitSort (p : Nat) (key : CStr) : Groups := { g with keys := Function.update g.keys p (insert key (g.keys p)) }

/-- The value that `get_next` returns is the first one. -/
def getNext (key : CStr) : Groups := { g with vals := Function.update g.vals key (g.vals key).tail }

end Groups

namespace Store

def table (s : Store) (i : Nat) : Option CStr := (s.dataValues i).key

def hash (key : CStr) : Nat := mrDefaultHashPartition key SIZE

/-- The links of slot `i` lead through the values `vs`. -/
def HasVals (s : Store) (i : Nat) (vs : List CStr) : Prop :=
  ∃ l, Linked DataNode.next s.dataNodes (s.dataValues i).data l ∧ l.map (fun x => x.2.val) = vs

/-- The links of partition `p` lead through the nodes `l`. -/
def Part (s : Store) (p : Nat) (l : List (Nat × Node)) : Prop := Linked Node.next s.nodes (s.sorted p) l

end Store

def keysOf (l : List (Nat × Node)) : List CStr := l.map fun x => x.2.key

theorem keysOf_append (l l' : List (Nat × Node)) : keysOf (l ++ l') = keysOf l ++ keysOf l' := List.map_append

def entriesOf (l : List (Nat × Node)) : List (CStr × Nat) := l.map fun x => (x.2.key, x.2.index)

theorem map_fst_entriesOf (l : List (Nat × Node)) : (entriesOf l).map Prod.fst = keysOf l := List.map_map

structure Rep (part : CStr → Nat) (s : Store) (g : Groups) : Prop where
  probed : Probed SIZE Store.hash s.table
  noData : ∀ i, s.table i = none → (s.dataValues i).data = none
  vals : ∀ i key, s.table i = some key → s.HasVals i (g.vals key)
  absent : ∀ key, (∀ i, s.table i ≠ some key) → g.vals key = []
  keys : ∀ p, ∃ l, s.Part p l ∧ Ascending (keysOf l) ∧ ∀ key, key ∈ keysOf l ↔ key ∈ g.keys p
  part : ∀ p, ∀ key ∈ g.keys p, part key = p

namespace Store

variable {s : Store} {g : Groups} {part : CStr → Nat} {key : CStr}

theorem rep_init : Rep part (init .zeroed) .empty where
  probed := probed_empty
  noData := fun _ _ => rfl
  vals := nofun
  absent := fun _ _ => rfl
  keys := fun _ => ⟨[], rfl, .nil, fun key => by simp [keysOf, Groups.empty]⟩
  part := fun p key h => by simp [Groups.empty] at h

/-! ### The search -/

theorem probeFrom_eq (key : CStr) (n i : Nat) :
    s.probeFrom key n i = match Ostep.probe s.table key n i with
      | none => .error .overrun
      | some j => .ok j := by
  induction n generalizing i with
  | zero => rfl
  | succ n ih =>
    rw [probeFrom, Ostep.probe]
    have htable : (s.dataValues i).key = s.table i := rfl
    rw [htable]
    cases hk : s.table i with
    | none => simp
    | some k =>
      by_cases he : key = k
      · simp [he]
      · have : ¬ k = key := fun h => he h.symm
        simp [he, this, ih]

theorem probe_eq (key : CStr) : s.probe key = match search SIZE hash s.table key with
    | none => .error .overrun
    | some j => .ok j :=
  probeFrom_eq key _ _

/-! ### Slots -/

theorem table_claimSlot (i : Nat) (h : s.table i = none ∨ s.table i = some key) :
    (s.claimSlot i key).table = Function.update s.table i (some key) := by
  unfold claimSlot
  rcases h with h | h
  · have hk : (s.dataValues i).key = none := h
    simp only [hk]
    funext j
    by_cases hj : j = i
    · subst hj; simp [table]
    · simp [table, hj]
  · have hk : (s.dataValues i).key = some key := h
    simp only [hk]
    rw [← h, Function.update_eq_self]

@[simp] theorem claimSlot_dataNodes (i : Nat) : (s.claimSlot i key).dataNodes = s.dataNodes := by
  unfold claimSlot; split <;> rfl

@[simp] theorem claimSlot_nodes (i : Nat) : (s.claimSlot i key).nodes = s.nodes := by
  unfold claimSlot; split <;> rfl

@[simp] theorem claimSlot_sorted (i : Nat) : (s.claimSlot i key).sorted = s.sorted := by
  unfold claimSlot; split <;> rfl

@[simp] theorem claimSlot_data (i j : Nat) : ((s.claimSlot i key).dataValues j).data = (s.dataValues j).data := by
  unfold claimSlot
  split
  · by_cases hj : j = i
    · subst hj; simp
    · simp [hj]
  · rfl

theorem table_setData (nodes : List DataNode) (i : Nat) (data : Option Nat) :
    table { s with dataNodes := nodes, dataValues := Function.update s.dataValues i { s.dataValues i with data := data } } =
      s.table := by
  funext j
  by_cases hj : j = i
  · subst hj
    simp [table]
  · simp [table, hj]

end Store

open Store

theorem Rep.claimSlot {part : CStr → Nat} {s : Store} {g : Groups} {key : CStr} {i : Nat} (h : Rep part s g)
    (hi : search SIZE hash s.table key = some i) : Rep part (s.claimSlot i key) g := by
  have htab := table_claimSlot i (search_end hi)
  refine ⟨?_, fun j hj => ?_, fun j k hj => ?_, fun k hk => ?_, fun p => ?_, h.part⟩
  · rw [htab]
    exact h.probed.store hi
  · rw [htab] at hj
    by_cases hji : j = i
    · subst hji
      simp at hj
    · rw [Function.update_of_ne hji] at hj
      rw [claimSlot_data]
      exact h.noData j hj
  · rw [htab] at hj
    unfold HasVals
    rw [claimSlot_data, claimSlot_dataNodes]
    by_cases hji : j = i
    · subst hji
      rw [Function.update_self] at hj
      cases hj
      rcases search_end hi with hn | hs
      · rw [h.absent key (h.probed.absent hi hn), h.noData j hn]
        exact ⟨[], rfl, rfl⟩
      · exact h.vals j key hs
    · rw [Function.update_of_ne hji] at hj
      exact h.vals j k hj
  · refine h.absent k fun j hj => hk j ?_
    rw [htab]
    by_cases hji : j = i
    · subst hji
      rw [Function.update_self]
      rcases search_end hi with hn | hs
      · rw [hn] at hj; cases hj
      · rw [← hj, hs]
    · rw [Function.update_of_ne hji]
      exact hj
  · unfold Store.Part
    rw [claimSlot_nodes, claimSlot_sorted]
    exact h.keys p

/-! ### Values -/

section
variable {part : CStr → Nat} {s : Store} {g : Groups} {key value : CStr} {i : Nat}

theorem Rep.setData {nodes' : List DataNode} {data : Option Nat} {vs : List CStr} (h : Rep part s g)
    (hi : s.table i = some key) (hnodes : ∀ p l, Linked DataNode.next s.dataNodes p l → Linked DataNode.next nodes' p l)
    (hnew : ∃ l, Linked DataNode.next nodes' data l ∧ l.map (fun x => x.2.val) = vs) :
    Rep part { s with
      dataNodes := nodes', dataValues := Function.update s.dataValues i { s.dataValues i with data := data } }
      { g with vals := Function.update g.vals key vs } := by
  have htab := table_setData (s := s) nodes' i data
  refine ⟨by rw [htab]; exact h.probed, fun j hj => ?_, fun j k hj => ?_, fun k hk => ?_, h.keys, h.part⟩
  · rw [htab] at hj
    have hne : j ≠ i := by rintro rfl; rw [hi] at hj; cases hj
    show (Function.update s.dataValues i _ j).data = none
    rw [Function.update_of_ne hne]
    exact h.noData j hj
  · rw [htab] at hj
    show ∃ l, Linked _ nodes' (Function.update s.dataValues i _ j).data l ∧ _ = Function.update g.vals key vs k
    by_cases hji : j = i
    · subst hji
      cases hi.symm.trans hj
      rw [Function.update_self, Function.update_self]
      exact hnew
    · have hk : k ≠ key := by rintro rfl; exact hji (h.probed.unique hj hi)
      rw [Function.update_of_ne hji, Function.update_of_ne hk]
      obtain ⟨l, hl, hv⟩ := h.vals j k hj
      exact ⟨l, hnodes _ _ hl, hv⟩
  · rw [htab] at hk
    have hne : k ≠ key := by rintro rfl; exact hk i hi
    show Function.update g.vals key vs k = []
    rw [Function.update_of_ne hne]
    exact h.absent k hk

theorem Rep.emitVal (h : Rep part s g) (key value : CStr) :
    (s.probe key = .error .overrun ∧ s.emitVal .zeroed key value = .error .overrun) ∨
      ∃ s' i, s.emitVal .zeroed key value = .ok (s', i) ∧ Rep part s' (g.emitVal key value) := by
  unfold Store.emitVal
  rw [probe_eq]
  cases hs : search SIZE hash s.table key with
  | none => exact .inl ⟨rfl, rfl⟩
  | some i =>
    have h' := h.claimSlot hs
    have hi : (s.claimSlot i key).table i = some key := by
      rw [table_claimSlot i (search_end hs), Function.update_self]
    obtain ⟨l, hl, hv⟩ := h'.vals i key hi
    refine .inr ⟨_, i, rfl, h'.setData hi (fun p l hl => hl.alloc _) ⟨_, hl.push ?_, ?_⟩⟩
    · dsimp only
      cases ((s.claimSlot i key).dataValues i).data <;> rfl
    · rw [List.map_cons, hv]

theorem Rep.getNext (h : Rep part s g) (key : CStr) (p : Nat) :
    (s.probe key = .error .overrun ∧ s.getNext key p = .error .overrun) ∨
      ∃ s', s.getNext key p = .ok (s', (g.vals key).head?) ∧ Rep part s' (g.getNext key) ∧
        s'.nodes = s.nodes ∧ s'.sorted = s.sorted := by
  unfold Store.getNext
  rw [probe_eq]
  cases hs : search SIZE hash s.table key with
  | none => exact .inl ⟨rfl, rfl⟩
  | some i =>
    have h' := h.claimSlot hs
    have hi : (s.claimSlot i key).table i = some key := by
      rw [table_claimSlot i (search_end hs), Function.update_self]
    obtain ⟨l, hl, hv⟩ := h'.vals i key hi
    right
    rw [ok_bind]
    cases l with
    | nil =>
      have hd : ((s.claimSlot i key).dataValues i).data = none := hl
      refine ⟨s.claimSlot i key, ?_, ?_, claimSlot_nodes i, claimSlot_sorted i⟩
      · simp only [hd, ← hv]
        rfl
      · have htail : (g.vals key).tail = g.vals key := by rw [← hv]; rfl
        rw [Groups.getNext, htail, Function.update_eq_self]
        exact h'
    | cons b l =>
      obtain ⟨hd, hx, hl⟩ := hl
      refine ⟨_, ?_, h'.setData hi (fun _ _ hl => hl) ⟨l, hl, ?_⟩, claimSlot_nodes i, claimSlot_sorted i⟩
      · simp only [hd, hx, ← hv]
        rfl
      · rw [← hv]
        rfl

end

/-! ### Keys -/

section
variable {s : Store} {key : CStr}

def lastPtr (prev : Option Nat) (l : List (Nat × Node)) : Option Nat := l.foldl (fun _ x => some x.1) prev

theorem place_spec (key : CStr) {n : Nat} (prev : Option Nat) {curr : Option Nat} {l : List (Nat × Node)}
    (hl : Linked Node.next s.nodes curr l) (hn : l.length ≤ n) :
    ∃ l₁ l₂, l = l₁ ++ l₂ ∧ (∀ x ∈ l₁, 0 < strcmp key x.2.key) ∧ (∀ x ∈ l₂.head?, strcmp key x.2.key ≤ 0) ∧
      s.place key n prev curr = .ok (lastPtr prev l₁, l₂.head?.map Prod.fst) := by
  induction l generalizing n prev curr with
  | nil =>
    cases hl
    exact ⟨[], [], rfl, nofun, nofun, by cases n <;> rfl⟩
  | cons b l ih =>
    obtain ⟨rfl, hx, hl⟩ := hl
    cases n with
    | zero => cases hn
    | succ n =>
      rw [place]
      simp only [hx]
      by_cases hgt : 0 < strcmp key b.2.key
      · obtain ⟨l₁, l₂, rfl, h₁, h₂, hplace⟩ := ih (some b.1) hl (Nat.le_of_succ_le_succ hn)
        refine ⟨b :: l₁, l₂, rfl, List.forall_mem_cons.2 ⟨hgt, h₁⟩, h₂, ?_⟩
        rw [if_pos hgt, hplace]
        rfl
      · refine ⟨[], b :: l, rfl, nofun, ?_, by rw [if_neg hgt]; rfl⟩
        rintro x ⟨⟩
        omega

theorem lastPtr_concat (prev : Option Nat) (l : List (Nat × Node)) (x : Nat × Node) : lastPtr prev (l ++ [x]) = some x.1 := by
  simp [lastPtr]

theorem Store.Part.head {p : Nat} {l : List (Nat × Node)} (h : s.Part p l) : s.sorted p = l.head?.map Prod.fst := by
  cases l with
  | nil => exact h
  | cons b l => exact h.1

theorem nextOf_lastPtr {p : Nat} {l₁ l₂ : List (Nat × Node)} (h : s.Part p (l₁ ++ l₂)) :
    s.nextOf p (lastPtr none l₁) = l₂.head?.map Prod.fst := by
  rcases List.eq_nil_or_concat l₁ with rfl | ⟨l₁, ⟨a, x⟩, rfl⟩
  · exact Store.Part.head h
  · rw [List.concat_eq_append] at h ⊢
    rw [lastPtr_concat]
    rw [List.append_assoc] at h
    have hx : s.nodes[a]? = some x := h.get (by simp)
    have ht : Linked Node.next s.nodes x.next l₂ := h.tail
    rw [nextOf, hx]
    cases l₂ with
    | nil => exact ht
    | cons b l₂ => exact ht.1

theorem insertNode_part (key : CStr) (index : Nat) {p : Nat} {l₁ l₂ : List (Nat × Node)} (h : s.Part p (l₁ ++ l₂)) :
    (∃ l, (s.insertNode p (lastPtr none l₁) key index (l₂.head?.map Prod.fst)).Part p l ∧
      entriesOf l = entriesOf l₁ ++ (key, index) :: entriesOf l₂) ∧
    ∀ q l, q ≠ p → s.Part q l → (∀ a, a ∈ l₁.map Prod.fst → a ∉ l.map Prod.fst) →
      (s.insertNode p (lastPtr none l₁) key index (l₂.head?.map Prod.fst)).Part q l := by
  unfold insertNode
  rcases List.eq_nil_or_concat l₁ with rfl | ⟨l₁, ⟨a, x⟩, rfl⟩
  · refine ⟨⟨(s.nodes.length, ⟨key, index, l₂.head?.map Prod.fst⟩) :: l₂, ?_, rfl⟩, fun q l hq hl _ => ?_⟩
    · show Linked Node.next _ (Function.update s.sorted p _ p) _
      rw [Function.update_self]
      exact Linked.push h (Store.Part.head h).symm
    · show Linked Node.next _ (Function.update s.sorted p _ q) _
      rw [Function.update_of_ne hq]
      exact Linked.alloc hl _
  · rw [List.concat_eq_append] at h ⊢
    rw [lastPtr_concat]
    have h' : Linked Node.next s.nodes (s.sorted p) (l₁ ++ (a, x) :: l₂) := by rw [List.append_assoc] at h; exact h
    have ha : a < s.nodes.length := h'.lt (x := x) (by simp)
    have hx : s.nodes[a]? = some x := h'.get (by simp)
    have hnext : x.next = l₂.head?.map Prod.fst := by
      have := nextOf_lastPtr h
      rw [lastPtr_concat, nextOf, hx] at this
      exact this
    have hset : ∀ y : Node, (s.nodes ++ [y]).modify a (fun z => { z with next := some s.nodes.length }) =
        (s.nodes ++ [y]).set a { x with next := some s.nodes.length } := by
      intro y
      rw [List.modify_eq_set_getElem?, List.getElem?_append_left ha, hx]
      rfl
    refine ⟨⟨l₁ ++ (a, { x with next := some s.nodes.length }) ::
      (s.nodes.length, ⟨key, index, l₂.head?.map Prod.fst⟩) :: l₂, ?_, ?_⟩, fun q l _ hl hdisj => ?_⟩
    · show Linked Node.next (List.modify _ a _) (s.sorted p) _
      rw [hset]
      exact h'.insertAfter hnext.symm rfl
    · simp [entriesOf]
    · show Linked Node.next (List.modify _ a _) (s.sorted q) _
      rw [hset]
      exact (Linked.alloc hl _).write (hdisj a (by simp)) _

@[simp] theorem insertNode_dataValues (p index : Nat) (prev next : Option Nat) :
    (s.insertNode p prev key index next).dataValues = s.dataValues := by
  cases prev <;> rfl

@[simp] theorem insertNode_dataNodes (p index : Nat) (prev next : Option Nat) :
    (s.insertNode p prev key index next).dataNodes = s.dataNodes := by
  cases prev <;> rfl

end

/-- The lists of the partitions `D` have the keys `keys`, and the index of each of their nodes is as `ok` says. -/
structure Lists (part : CStr → Nat) (D : Set Nat) (ok : CStr → Nat → Prop) (s : Store) (keys : Nat → Finset CStr) : Prop where
  list : ∀ p ∈ D, ∃ l, s.Part p l ∧ Ascending (keysOf l) ∧ (∀ key, key ∈ keysOf l ↔ key ∈ keys p) ∧ ∀ e ∈ entriesOf l, ok e.1 e.2
  part : ∀ p, ∀ key ∈ keys p, part key = p

section
variable {part : CStr → Nat} {D : Set Nat} {ok : CStr → Nat → Prop} {s : Store} {keys : Nat → Finset CStr} {key : CStr} {index : Nat}

theorem Lists.insertNode {l₁ l₂ : List (Nat × Node)} (h : Lists part D ok s keys) (hok : ok key index)
    (hl : s.Part (part key) (l₁ ++ l₂)) (hmem : ∀ k, k ∈ keysOf (l₁ ++ l₂) ↔ k ∈ keys (part key))
    (hold : ∀ e ∈ entriesOf (l₁ ++ l₂), ok e.1 e.2) (hasc : Ascending (keysOf l₁ ++ key :: keysOf l₂)) :
    Lists part D ok (s.insertNode (part key) (lastPtr none l₁) key index (l₂.head?.map Prod.fst))
      (Function.update keys (part key) (insert key (keys (part key)))) := by
  obtain ⟨⟨l, hlp, hentries⟩, hother⟩ := insertNode_part key index hl
  have hkeys : keysOf l = keysOf l₁ ++ key :: keysOf l₂ := by
    rw [← map_fst_entriesOf, hentries, List.map_append, List.map_cons, map_fst_entriesOf, map_fst_entriesOf]
  refine ⟨fun q hq => ?_, fun q k hk => ?_⟩
  · by_cases hqp : q = part key
    · subst hqp
      rw [Function.update_self]
      refine ⟨l, hlp, by rw [hkeys]; exact hasc, fun k => ?_, fun e he => ?_⟩
      · rw [hkeys, Finset.mem_insert, ← hmem k, keysOf_append, List.mem_append, List.mem_cons, List.mem_append, or_left_comm]
      · rw [hentries, List.mem_append, List.mem_cons, or_left_comm] at he
        rcases he with rfl | he
        · exact hok
        · refine hold e ?_
          rwa [entriesOf, List.map_append, List.mem_append]
    · rw [Function.update_of_ne hqp]
      obtain ⟨lq, hlq, hascq, hmemq, hokq⟩ := h.list q hq
      refine ⟨lq, hother q lq hqp hlq fun a ha₁ haq => hqp ?_, hascq, hmemq, hokq⟩
      -- a node on both lists would have its key in both partitions
      obtain ⟨⟨a, x⟩, hx₁, rfl⟩ := List.mem_map.1 ha₁
      obtain ⟨⟨a', x'⟩, hxq, ha'⟩ := List.mem_map.1 haq
      cases ha'
      cases (Linked.get hl (List.mem_append_left _ hx₁)).symm.trans (Linked.get hlq hxq)
      have h₁ := h.part _ x.key ((hmem _).1 (List.mem_map.2 ⟨_, List.mem_append_left _ hx₁, rfl⟩))
      have hq := h.part q x.key ((hmemq _).1 (List.mem_map.2 ⟨_, hxq, rfl⟩))
      exact hq.symm.trans h₁
  · by_cases hqp : q = part key
    · subst hqp
      rw [Function.update_self] at hk
      rcases Finset.mem_insert.1 hk with rfl | hk
      · rfl
      · exact h.part _ k hk
    · rw [Function.update_of_ne hqp] at hk
      exact h.part q k hk

/-- The second section of `MR_Emit` puts the key into its list, and leaves the table alone. -/
theorem Lists.emitSort (h : Lists part D ok s keys) (hp : part key ∈ D) (hok : ok key index) :
    ∃ s', s.emitSort (part key) key index = .ok s' ∧ s'.dataValues = s.dataValues ∧ s'.dataNodes = s.dataNodes ∧
      Lists part D ok s' (Function.update keys (part key) (insert key (keys (part key)))) := by
  obtain ⟨l, hl, hasc, hmem, hold⟩ := h.list _ hp
  obtain ⟨l₁, l₂, rfl, h₁, h₂, hplace⟩ := place_spec key none hl (Nat.le_succ_of_le hl.length_le)
  have hbefore : ∀ k ∈ keysOf l₁, strcmp k key < 0 := by
    intro k hk
    obtain ⟨x, hx, rfl⟩ := List.mem_map.1 hk
    have := h₁ x hx
    rw [strcmp_neg]
    omega
  rw [keysOf_append] at hasc
  unfold Store.emitSort
  rw [hplace, ok_bind]
  cases l₂ with
  | nil =>
    exact ⟨_, rfl, insertNode_dataValues .., insertNode_dataNodes .., h.insertNode hok hl hmem hold (hasc.insert hbefore nofun)⟩
  | cons b l₂ =>
    have hb : s.nodes[b.1]? = some b.2 := Linked.get hl (by simp)
    have hle := h₂ b rfl
    simp only [List.head?_cons, Option.map_some, hb]
    by_cases h0 : strcmp key b.2.key = 0
    · have hin : key ∈ keys (part key) := by
        rw [← hmem, strcmp_eq_zero.1 h0]
        exact List.mem_map.2 ⟨b, by simp, rfl⟩
      rw [if_pos h0, Finset.insert_eq_of_mem hin, Function.update_eq_self]
      exact ⟨s, rfl, rfl, rfl, h⟩
    · rw [if_neg h0, nextOf_lastPtr hl]
      refine ⟨_, rfl, insertNode_dataValues .., insertNode_dataNodes .., h.insertNode hok hl hmem hold (hasc.insert hbefore fun k hk => ?_)⟩
      have hlt : strcmp key b.2.key < 0 := by omega
      rcases List.mem_cons.1 hk with rfl | hk
      · exact hlt
      · exact strcmp_trans hlt ((List.pairwise_cons.1 (List.pairwise_append.1 hasc).2.1).1 k hk)

end

section
variable {part : CStr → Nat} {s : Store} {g : Groups}

theorem Rep.lists (h : Rep part s g) : Lists part Set.univ (fun _ _ => True) s g.keys where
  list := fun p _ => by
    obtain ⟨l, hl, hasc, hmem⟩ := h.keys p
    exact ⟨l, hl, hasc, hmem, fun _ _ => trivial⟩
  part := h.part

theorem Rep.emitSort {p : Nat} (h : Rep part s g) (key : CStr) (hp : part key = p) (index : Nat) :
    ∃ s', s.emitSort p key index = .ok s' ∧ Rep part s' (g.emitSort p key) := by
  subst hp
  have hok : (fun _ _ => True) key index := trivial
  obtain ⟨s', hs, hvals, hnodes, hlists⟩ := h.lists.emitSort (Set.mem_univ (part key)) hok
  refine ⟨s', hs, ?_, ?_, ?_, ?_, fun p => ?_, hlists.part⟩
  · unfold table; rw [hvals]; exact h.probed
  · unfold table; rw [hvals]; exact h.noData
  · unfold table HasVals; rw [hvals, hnodes]; exact h.vals
  · unfold table; rw [hvals]; exact h.absent
  · obtain ⟨l, hl, hasc, hmem, -⟩ := hlists.list p (Set.mem_univ p)
    exact ⟨l, hl, hasc, hmem⟩

end

end Ostep.MapReduce
