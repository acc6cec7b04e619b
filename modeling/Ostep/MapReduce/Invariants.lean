import Ostep.MapReduce.Probes

/-!
# The table and the lists after any calls

After calls of `MR_Emit` and `get_next` the search finds each key of the table, and the list of a partition has the
keys emitted for it in order, each with its slot. The values play no part, so what `malloc` leaves in their links
does not matter. The heads of the lists are not written by `MR_Run` either: a head that is not NULL leads to a
node that does not belong to the partition (`Strays`), now or when it will have been allocated, and no call ever
takes a node off a list.
-/

namespace Ostep.MapReduce

open Store

variable {part : CStr → Nat} {D : Set Nat} {blocks : Blocks} {s s' : Store} {E : Finset CStr} {key value : CStr} {v : Option CStr}
  {i p index R : Nat} {cs : List Call}

def Call.emits : Call → Option CStr
  | .emit key _ => some key
  | .get _ _ => none

def emitted (cs : List Call) : Finset CStr := (cs.filterMap Call.emits).toFinset

theorem emitted_cons_emit (key value : CStr) (cs : List Call) : emitted (.emit key value :: cs) = insert key (emitted cs) := by
  rw [emitted, List.filterMap_cons_some (show (Call.emit key value).emits = some key from rfl), List.toFinset_cons, ← emitted]

theorem emitted_cons_get (key : CStr) (p : Nat) (cs : List Call) : emitted (.get key p :: cs) = emitted cs := by
  rw [emitted, List.filterMap_cons_none (show (Call.get key p).emits = none from rfl), ← emitted]

/-! ### What the sections leave -/

theorem emitVal_ok (h : s.emitVal blocks key value = .ok (s', i)) : Claimed s key i s' := by
  obtain ⟨-, he⟩ | ⟨s₁, j, he, hc⟩ := emitVal_outcome s blocks key value
  · rw [he] at h
    cases h
  · rw [he] at h
    cases h
    exact hc

theorem getNext_ok (h : s.getNext key p = .ok (s', v)) :
    ∃ i, Claimed s key i s' ∧ ((s.dataValues i).data = none → v = none ∧ s' = s.claimSlot i key) := by
  obtain ⟨-, he⟩ | he | ⟨s₁, v₁, i, he, hc⟩ := getNext_outcome s key p
  · rw [he] at h
    cases h
  · rw [he] at h
    cases h
  · rw [he] at h
    cases h
    exact ⟨i, hc⟩

theorem Claimed.keeps (h : Claimed s key i s') {j : Nat} {k : CStr} (hj : s.table j = some k) : s'.table j = some k := by
  rw [h.table]
  by_cases hji : j = i
  · subst hji
    rw [Function.update_self]
    rcases search_end h.search with hn | hk
    · rw [hn] at hj
      cases hj
    · exact hk.symm.trans hj
  · rw [Function.update_of_ne hji]
    exact hj

theorem Claimed.at (h : Claimed s key i s') : s'.table i = some key := by rw [h.table, Function.update_self]

theorem Claimed.probed (h : Claimed s key i s') (hp : Probed SIZE hash s.table) : Probed SIZE hash s'.table := by
  rw [h.table]
  exact hp.store h.search

theorem Lists.claimed {keys : Nat → Finset CStr} (h : Lists part D (fun k i => s.table i = some k) s keys) (hc : Claimed s key i s') :
    Lists part D (fun k i => s'.table i = some k) s' keys where
  list := fun p hp => by
    obtain ⟨l, hl, hasc, hmem, hok⟩ := h.list p hp
    refine ⟨l, ?_, hasc, hmem, fun e he => hc.keeps (hok e he)⟩
    rw [Store.Part, hc.nodes, hc.sorted]
    exact hl
  part := h.part

/-! ### Cleared heads -/

/-- The keys `E` have been emitted, and others may have been looked for. -/
structure Kept (part : CStr → Nat) (D : Set Nat) (s : Store) (E : Finset CStr) : Prop where
  probed : Probed SIZE hash s.table
  noData : ∀ i, (∀ k ∈ E, s.table i ≠ some k) → (s.dataValues i).data = none
  lists : Lists part D (fun k i => s.table i = some k) s fun p => E.filter fun k => part k = p

theorem Kept.noData_claimed (h : Kept part D s E) (hc : Claimed s key i s') {E' : Finset CStr} (hE : E ⊆ E')
    (hi : key ∈ E' ∨ (s'.dataValues i).data = none) (j : Nat) (hj : ∀ k ∈ E', s'.table j ≠ some k) : (s'.dataValues j).data = none := by
  by_cases hji : j = i
  · subst hji
    rcases hi with hkey | hnone
    · exact absurd hc.at (hj key hkey)
    · exact hnone
  · rw [hc.data j hji]
    exact h.noData j fun k hk htab => hj k (hE hk) (hc.keeps htab)

theorem filter_insert_part (key : CStr) (E : Finset CStr) :
    (fun p => (insert key E).filter fun k => part k = p) =
      Function.update (fun p => E.filter fun k => part k = p) (part key) (insert key (E.filter fun k => part k = part key)) := by
  funext p
  by_cases hp : p = part key
  · subst hp
    rw [Function.update_self, Finset.filter_insert, if_pos rfl]
  · rw [Function.update_of_ne hp, Finset.filter_insert, if_neg (Ne.symm hp)]

theorem Kept.emit (h : Kept part D s E) (hD : part key ∈ D) (hs : call part blocks s (.emit key value) = .ok s') :
    Kept part D s' (insert key E) := by
  obtain ⟨⟨s₁, i⟩, hval, hsort⟩ := bind_ok hs
  have hc := emitVal_ok hval
  obtain ⟨s₂, hsort', hvals, -, hlists⟩ := (h.lists.claimed hc).emitSort hD hc.at
  cases hsort'.symm.trans hsort
  have htab : s'.table = s₁.table := by
    unfold Store.table
    rw [hvals]
  refine ⟨?_, fun j hj => ?_, ?_⟩
  · rw [htab]
    exact hc.probed h.probed
  · rw [htab] at hj
    rw [hvals]
    exact h.noData_claimed hc (Finset.subset_insert key E) (.inl (Finset.mem_insert_self key E)) j hj
  · rw [filter_insert_part, htab]
    exact hlists

theorem Kept.data_of_search (h : Kept part D s E) (hi : search SIZE hash s.table key = some i) (hkey : key ∉ E) :
    (s.dataValues i).data = none := by
  refine h.noData i fun k hk htab => ?_
  rcases search_end hi with hn | hs
  · rw [hn] at htab
    cases htab
  · cases hs.symm.trans htab
    exact hkey hk

theorem Kept.get (h : Kept part D s E) (hs : call part blocks s (.get key p) = .ok s') : Kept part D s' E := by
  obtain ⟨⟨s₁, v⟩, hget, hs⟩ := bind_ok hs
  cases hs
  obtain ⟨i, hc, hnull⟩ := getNext_ok hget
  refine ⟨hc.probed h.probed, h.noData_claimed hc (Finset.Subset.refl E) ?_, h.lists.claimed hc⟩
  by_cases hkey : key ∈ E
  · exact .inl hkey
  · have hd := h.data_of_search hc.search hkey
    rw [(hnull hd).2, claimSlot_data]
    exact .inr hd

theorem Kept.calls (h : Kept part D s E) (hD : ∀ k, part k ∈ D) (hs : cs.foldlM (call part blocks) s = .ok s') :
    Kept part D s' (E ∪ emitted cs) := by
  induction cs generalizing s E with
  | nil =>
    cases hs
    simpa [emitted] using h
  | cons c cs ih =>
    rw [List.foldlM_cons] at hs
    obtain ⟨s₁, hc, hrest⟩ := bind_ok hs
    cases c with
    | emit key value =>
      rw [emitted_cons_emit, Finset.union_insert, ← Finset.insert_union]
      exact ih (h.emit (hD key) hc) hrest
    | get key p =>
      rw [emitted_cons_get]
      exact ih (h.get hc) hrest

/-! ### Heads that were not cleared -/

/-- The list of `p` leads to a node of another partition, or begins where there is no node. -/
def Strays (part : CStr → Nat) (p : Nat) (s : Store) : Prop :=
  (∃ a, s.sorted p = some a ∧ s.nodes[a]? = none) ∨
    ∃ a x, Reach Node.next s.nodes (s.sorted p) a ∧ s.nodes[a]? = some x ∧ part x.key ≠ p

theorem Strays.congr (h : Strays part p s) (hnodes : s'.nodes = s.nodes) (hsorted : s'.sorted = s.sorted) : Strays part p s' := by
  rw [Strays, hnodes, hsorted]
  exact h

/-- Where the loop of `MR_Emit` stops, `prev` is a node or the head, and `curr` is what it links to. -/
theorem place_next {n : Nat} {prev curr prev' curr' : Option Nat} (h : s.place key n prev curr = .ok (prev', curr'))
    (hnext : s.nextOf p prev = curr) (hprev : ∀ b ∈ prev, ∃ x, s.nodes[b]? = some x) :
    s.nextOf p prev' = curr' ∧ ∀ b ∈ prev', ∃ x, s.nodes[b]? = some x := by
  fun_induction Store.place s key n prev curr with
  | case1 =>
    cases h
    exact ⟨hnext, hprev⟩
  | case2 => cases h
  | case3 => cases h
  | case4 n prev a x hx hgt ih =>
    refine ih h ?_ ?_
    · rw [nextOf, hx]
      rfl
    · rintro b ⟨⟩
      exact ⟨x, hx⟩
  | case5 =>
    cases h
    exact ⟨hnext, hprev⟩

theorem emitSort_ok (h : s.emitSort p key index = .ok s') :
    (∀ a, s.sorted p = some a → ∃ x, s.nodes[a]? = some x) ∧
      (s' = s ∨ ∃ prev, (∀ b ∈ prev, ∃ x, s.nodes[b]? = some x) ∧ s' = s.insertNode p prev key index (s.nextOf p prev)) := by
  obtain ⟨⟨prev, curr⟩, hplace, h⟩ := bind_ok h
  refine ⟨fun a ha => ?_, ?_⟩
  · rw [ha, Store.place] at hplace
    cases hx : s.nodes[a]? with
    | none =>
      rw [hx] at hplace
      cases hplace
    | some x => exact ⟨x, rfl⟩
  · obtain ⟨hnext, hprev⟩ := place_next hplace (p := p) rfl (by rintro b ⟨⟩)
    cases curr with
    | none =>
      cases h
      exact .inr ⟨prev, hprev, by rw [hnext]⟩
    | some a =>
      dsimp only at h
      cases hx : s.nodes[a]? with
      | none =>
        rw [hx] at h
        cases h
      | some x =>
        rw [hx] at h
        cases h
        split
        · exact .inl rfl
        · exact .inr ⟨prev, hprev, rfl⟩

section
variable {prev : Option Nat} {next : Option Nat} {a b : Nat} {x : Node}

theorem nodes_insertNode_some (hx : s.nodes[b]? = some x) : (s.insertNode p (some b) key index next).nodes =
    (s.nodes ++ [({ key := key, index := index, next := next } : Node)]).set b { x with next := some s.nodes.length } := by
  have hb : b < s.nodes.length := (List.getElem?_eq_some_iff.1 hx).1
  show List.modify _ b _ = _
  rw [List.modify_eq_set_getElem?, List.getElem?_append_left hb, hx]
  rfl

theorem key_insertNode (hprev : ∀ b ∈ prev, ∃ x, s.nodes[b]? = some x) (hx : s.nodes[a]? = some x) :
    ∃ y, (s.insertNode p prev key index next).nodes[a]? = some y ∧ y.key = x.key := by
  have ha : a < s.nodes.length := (List.getElem?_eq_some_iff.1 hx).1
  cases prev with
  | none => exact ⟨x, (List.getElem?_append_left ha).trans hx, rfl⟩
  | some b =>
    obtain ⟨z, hz⟩ := hprev b rfl
    rw [nodes_insertNode_some hz]
    by_cases hab : a = b
    · subst hab
      cases hx.symm.trans hz
      exact ⟨_, List.getElem?_set_self (by rw [List.length_append]; omega), rfl⟩
    · rw [List.getElem?_set_ne (Ne.symm hab), List.getElem?_append_left ha]
      exact ⟨x, hx, rfl⟩

theorem key_new (hprev : ∀ b ∈ prev, ∃ x, s.nodes[b]? = some x) (hnone : s.nodes[a]? = none)
    (hx : (s.insertNode p prev key index next).nodes[a]? = some x) : x.key = key := by
  have ha : s.nodes.length ≤ a := List.getElem?_eq_none_iff.1 hnone
  have hnew : (s.nodes ++ [({ key := key, index := index, next := next } : Node)])[a]? = some x := by
    cases prev with
    | none => exact hx
    | some b =>
      obtain ⟨z, hz⟩ := hprev b rfl
      have hb : b < s.nodes.length := (List.getElem?_eq_some_iff.1 hz).1
      rwa [nodes_insertNode_some hz, List.getElem?_set_ne (by omega)] at hx
  rw [List.getElem?_append_right ha, List.getElem?_singleton] at hnew
  split at hnew
  · cases hnew
    rfl
  · cases hnew

theorem sorted_insertNode_of_ne {q : Nat} (hq : q ≠ p) : (s.insertNode p prev key index next).sorted q = s.sorted q := by
  cases prev with
  | none => exact Function.update_of_ne hq _ _
  | some b => rfl

theorem reach_insertNode {q : Nat} (hprev : ∀ b ∈ prev, ∃ x, s.nodes[b]? = some x) (hr : Reach Node.next s.nodes (s.sorted q) a) :
    Reach Node.next (s.insertNode p prev key index (s.nextOf p prev)).nodes ((s.insertNode p prev key index (s.nextOf p prev)).sorted q) a := by
  cases prev with
  | none =>
    by_cases hq : q = p
    · subst hq
      show Reach Node.next (s.nodes ++ [⟨key, index, s.sorted q⟩]) (Function.update s.sorted q (some s.nodes.length) q) a
      rw [Function.update_self]
      have hnew : (s.nodes ++ [⟨key, index, s.sorted q⟩])[s.nodes.length]? = some ⟨key, index, s.sorted q⟩ := List.getElem?_concat_length
      exact .step hnew (hr.alloc _)
    · rw [sorted_insertNode_of_ne hq]
      exact hr.alloc _
  | some b =>
    obtain ⟨z, hz⟩ := hprev b rfl
    rw [nodes_insertNode_some hz]
    refine hr.insertAfter hz ?_ rfl
    show s.nextOf p (some b) = z.next
    rw [nextOf, hz]
    rfl

end

theorem Strays.emitSort (h : Strays part p s) (hs : s.emitSort (part key) key index = .ok s') : Strays part p s' := by
  obtain ⟨hhead, rfl | ⟨prev, hprev, rfl⟩⟩ := emitSort_ok hs
  · exact h
  rcases h with ⟨a, ha, hnone⟩ | ⟨a, x, hr, hx, hne⟩
  · -- the loop would have followed the head into nothing
    have hp : p ≠ part key := by
      rintro rfl
      obtain ⟨x, hx⟩ := hhead a ha
      rw [hnone] at hx
      cases hx
    have hsorted : (s.insertNode (part key) prev key index (s.nextOf (part key) prev)).sorted p = some a :=
      (sorted_insertNode_of_ne hp).trans ha
    cases hx : (s.insertNode (part key) prev key index (s.nextOf (part key) prev)).nodes[a]? with
    | none => exact .inl ⟨a, hsorted, hx⟩
    | some x =>
      refine .inr ⟨a, x, ?_, hx, ?_⟩
      · rw [hsorted]
        exact .here a
      · rw [key_new hprev hnone hx]
        exact hp.symm
  · obtain ⟨y, hy, hkey⟩ := key_insertNode hprev hx
    exact .inr ⟨a, y, reach_insertNode hprev hr, hy, by rwa [hkey]⟩

theorem Strays.calls (h : Strays part p s) (hs : cs.foldlM (call part blocks) s = .ok s') : Strays part p s' := by
  induction cs generalizing s with
  | nil =>
    cases hs
    exact h
  | cons c cs ih =>
    rw [List.foldlM_cons] at hs
    obtain ⟨s₁, hc, hrest⟩ := bind_ok hs
    refine ih ?_ hrest
    cases c with
    | emit key value =>
      obtain ⟨⟨s₂, i⟩, hval, hsort⟩ := bind_ok hc
      have hclaimed := emitVal_ok hval
      exact (h.congr hclaimed.nodes hclaimed.sorted).emitSort hsort
    | get key p =>
      obtain ⟨⟨s₂, v⟩, hget, hs₂⟩ := bind_ok hc
      cases hs₂
      obtain ⟨i, hclaimed, -⟩ := getNext_ok hget
      exact h.congr hclaimed.nodes hclaimed.sorted

/-! ### All calls -/

/-- The store after the calls `cs`, with `R` partitions. -/
structure Sound (part : CStr → Nat) (R : Nat) (cs : List Call) (s : Store) : Prop where
  distinct : ∀ i j k, s.table i = some k → s.table j = some k → i = j
  chain : ∀ i k, s.table i = some k → hash k ≤ i ∧ (∀ m, hash k ≤ m → m ≤ i → s.table m ≠ none) ∧ s.probe k = .ok i
  lists : ∀ p < R, ∃ l, s.Part p l ∧ Ascending (keysOf l) ∧ (∀ k, k ∈ keysOf l ↔ k ∈ emitted cs ∧ part k = p) ∧
    ∀ x ∈ l, s.table x.2.index = some x.2.key
  /-- `get_next` for a key that was not emitted returns NULL, and the others are found where they were with their values. -/
  absent : ∀ k ∉ emitted cs, ∀ p, s.probe k ≠ .error .overrun → ∃ s', s.getNext k p = .ok (s', none) ∧
    s'.nodes = s.nodes ∧ s'.sorted = s.sorted ∧ s'.dataNodes = s.dataNodes ∧
    ∀ j k', s.table j = some k' → s'.probe k' = .ok j ∧ (s'.dataValues j).data = (s.dataValues j).data

theorem probe_of_probed (h : Probed SIZE hash s.table) (hk : s.table i = some key) : s.probe key = .ok i := by
  rw [probe_eq, h i key hk]

theorem Kept.getNext_absent (h : Kept part D s E) (hkey : key ∉ E) (hprobe : s.probe key ≠ .error .overrun) (p : Nat) :
    ∃ s', s.getNext key p = .ok (s', none) ∧ s'.nodes = s.nodes ∧ s'.sorted = s.sorted ∧ s'.dataNodes = s.dataNodes ∧
      ∀ j k', s.table j = some k' → s'.probe k' = .ok j ∧ (s'.dataValues j).data = (s.dataValues j).data := by
  cases hs : search SIZE hash s.table key with
  | none => exact absurd (by rw [probe_eq, hs]) hprobe
  | some i =>
    have hd : ((s.claimSlot i key).dataValues i).data = none := by
      rw [claimSlot_data]
      exact h.data_of_search hs hkey
    have hc := claimed_claimSlot hs
    refine ⟨s.claimSlot i key, ?_, hc.nodes, hc.sorted, claimSlot_dataNodes i, fun j k' hj => ⟨?_, claimSlot_data i j⟩⟩
    · rw [Store.getNext, probe_eq, hs, ok_bind]
      dsimp only
      rw [hd]
    · exact probe_of_probed (hc.probed h.probed) (hc.keeps hj)

theorem Kept.sound (h : Kept part {p | p < R} s (emitted cs)) : Sound part R cs s where
  distinct := fun _ _ _ hi hj => h.probed.unique hi hj
  chain := fun i k hi => by
    obtain ⟨hle, -, -, hbefore⟩ := probe_eq_some_iff.1 (h.probed i k hi)
    refine ⟨hle, fun m hm hmi => ?_, probe_of_probed h.probed hi⟩
    rcases Nat.lt_or_eq_of_le hmi with hlt | rfl
    · exact (hbefore m hm hlt).1
    · rw [hi]
      nofun
  lists := fun p hp => by
    obtain ⟨l, hl, hasc, hmem, hok⟩ := h.lists.list p hp
    refine ⟨l, hl, hasc, fun k => ?_, fun x hx => hok _ (List.mem_map.2 ⟨x, hx, rfl⟩)⟩
    rw [hmem, Finset.mem_filter]
  absent := fun _ hk p hprobe => h.getNext_absent hk hprobe p

/-- The head of the second list happens to be the address of the node that is allocated first. -/
def strayHead : Blocks where
  dataNode := fun _ => none
  head := fun p => if p = 1 then some 0 else none

end Ostep.MapReduce
