import Mathlib.Data.List.Perm.Subperm

/-!
# Linked lists in a heap

A heap is a list of nodes, the address of a node is its position, and `link` reads the pointer to the next
node. `Linked h p l` says that from `p` the links lead through the nodes `l`, each with its address, to a null
pointer. Allocation puts a node at the end of the heap, so it leaves every linked list alone; writing a node
leaves alone the lists that it is not on.
-/

namespace Ostep

variable {α : Type*} (link : α → Option Nat)

def Linked (h : List α) : Option Nat → List (Nat × α) → Prop
  | p, [] => p = none
  | p, (a, x) :: l => p = some a ∧ h[a]? = some x ∧ Linked h (link x) l

namespace Linked

variable {link} {h : List α} {p : Option Nat} {l l' l₁ l₂ : List (Nat × α)} {a : Nat} {x y : α}

theorem unique (hl : Linked link h p l) (hl' : Linked link h p l') : l = l' := by
  induction l generalizing p l' with
  | nil =>
    cases hl
    cases l' with
    | nil => rfl
    | cons b l' => cases hl'.1
  | cons b l ih =>
    obtain ⟨hp, hx, hl⟩ := hl
    cases l' with
    | nil => rw [hl'] at hp; cases hp
    | cons b' l' =>
      obtain ⟨hp', hx', hl'⟩ := hl'
      have ha : b.1 = b'.1 := Option.some.inj (hp.symm.trans hp')
      have hb : b = b' := Prod.ext ha (Option.some.inj (hx.symm.trans (ha ▸ hx')))
      rw [hb] at hl ⊢
      rw [ih hl hl']

theorem get (hl : Linked link h p l) (hmem : (a, x) ∈ l) : h[a]? = some x := by
  induction l generalizing p with
  | nil => cases hmem
  | cons b l ih =>
    obtain ⟨-, hx, hl⟩ := hl
    rcases List.mem_cons.1 hmem with rfl | hmem
    · exact hx
    · exact ih hl hmem

theorem lt (hl : Linked link h p l) (hmem : (a, x) ∈ l) : a < h.length :=
  (List.getElem?_eq_some_iff.1 (hl.get hmem)).1

theorem tail (hl : Linked link h p (l₁ ++ (a, x) :: l₂)) : Linked link h (link x) l₂ := by
  induction l₁ generalizing p with
  | nil => exact hl.2.2
  | cons b l₁ ih => exact ih hl.2.2

theorem middle (hl : Linked link h p (l₁ ++ (a, x) :: l₂)) : Linked link h (some a) ((a, x) :: l₂) :=
  ⟨rfl, hl.get (by simp), hl.tail⟩

/-- No address comes twice: the two occurrences would have the same, finite, list behind them. -/
theorem nodup (hl : Linked link h p l) : (l.map Prod.fst).Nodup := by
  induction l generalizing p with
  | nil => exact List.nodup_nil
  | cons b l ih =>
    obtain ⟨a, x⟩ := b
    have hl' : Linked link h (link x) l := hl.2.2
    refine List.nodup_cons.2 ⟨fun ha => ?_, ih hl'⟩
    obtain ⟨⟨a', x'⟩, hmem, ha'⟩ := List.mem_map.1 ha
    cases ha'
    obtain ⟨l₁, l₂, rfl⟩ := List.append_of_mem hmem
    have hp : p = some a := hl.1
    have := congrArg List.length (unique (hp ▸ hl) hl'.middle)
    simp only [List.length_cons, List.length_append] at this
    omega

theorem length_le (hl : Linked link h p l) : l.length ≤ h.length := by
  have hsub : l.map Prod.fst ⊆ List.range h.length := by
    intro a ha
    obtain ⟨⟨a, x⟩, hmem, rfl⟩ := List.mem_map.1 ha
    exact List.mem_range.2 (hl.lt hmem)
  simpa using (hl.nodup.subperm hsub).length_le

/-! ### Allocation and writing -/

theorem alloc (hl : Linked link h p l) (y : α) : Linked link (h ++ [y]) p l := by
  induction l generalizing p with
  | nil => exact hl
  | cons b l ih =>
    obtain ⟨hp, hx, hl⟩ := hl
    exact ⟨hp, by rw [List.getElem?_append_left (List.getElem?_eq_some_iff.1 hx).1, hx], ih hl⟩

theorem push (hl : Linked link h p l) (hy : link y = p) : Linked link (h ++ [y]) (some h.length) ((h.length, y) :: l) :=
  ⟨rfl, by simp, hy ▸ hl.alloc y⟩

theorem write (hl : Linked link h p l) (ha : a ∉ l.map Prod.fst) (y : α) : Linked link (h.set a y) p l := by
  induction l generalizing p with
  | nil => exact hl
  | cons b l ih =>
    obtain ⟨hp, hx, hl⟩ := hl
    rw [List.map_cons, List.mem_cons, not_or] at ha
    exact ⟨hp, by rw [List.getElem?_set_ne ha.1, hx], ih hl ha.2⟩

theorem insertAfter {x' : α} (hl : Linked link h p (l₁ ++ (a, x) :: l₂)) (hy : link y = link x) (hx' : link x' = some h.length) :
    Linked link ((h ++ [y]).set a x') p (l₁ ++ (a, x') :: (h.length, y) :: l₂) := by
  have ha : a < h.length := hl.lt (x := x) (by simp)
  have hnodup := hl.nodup
  rw [List.map_append, List.map_cons, List.nodup_append, List.nodup_cons] at hnodup
  obtain ⟨-, ⟨ha₂, -⟩, hdisj⟩ := hnodup
  have ha₁ : a ∉ l₁.map Prod.fst := fun hmem => hdisj a hmem a (by simp) rfl
  clear hdisj
  induction l₁ generalizing p with
  | nil =>
    refine ⟨hl.1, ?_, hx', ?_, ?_⟩
    · rw [List.getElem?_set_self (by rw [List.length_append]; omega)]
    · rw [List.getElem?_set_ne (by omega)]
      simp
    · rw [hy]
      exact (hl.2.2.alloc y).write ha₂ x'
  | cons b l₁ ih =>
    obtain ⟨hp, hx, hl⟩ := hl
    rw [List.map_cons, List.mem_cons, not_or] at ha₁
    refine ⟨hp, ?_, ih hl ha₁.2⟩
    rw [List.getElem?_set_ne ha₁.1, List.getElem?_append_left (List.getElem?_eq_some_iff.1 hx).1, hx]

end Linked

/-! ### Paths -/

/-- From `p` the links lead to the address `b`, perhaps past it, and whether or not there is a node. -/
inductive Reach (h : List α) : Option Nat → Nat → Prop
  | here (b : Nat) : Reach h (some b) b
  | step {a b : Nat} {x : α} (hx : h[a]? = some x) (hr : Reach h (link x) b) : Reach h (some a) b

namespace Reach

variable {link} {h : List α} {p : Option Nat} {l : List (Nat × α)} {a b : Nat} {x x' y : α}

theorem mem (hr : Reach link h p b) (hl : Linked link h p l) : ∃ x, (b, x) ∈ l := by
  induction hr generalizing l with
  | here b =>
    cases l with
    | nil => cases hl
    | cons c l =>
      obtain ⟨hp, -, -⟩ := hl
      cases hp
      exact ⟨c.2, by simp⟩
  | step hx hr ih =>
    cases l with
    | nil => cases hl
    | cons c l =>
      obtain ⟨hp, hc, hl⟩ := hl
      cases hp
      cases hx.symm.trans hc
      obtain ⟨x, hmem⟩ := ih hl
      exact ⟨x, List.mem_cons_of_mem _ hmem⟩

theorem alloc (hr : Reach link h p b) (y : α) : Reach link (h ++ [y]) p b := by
  induction hr with
  | here b => exact .here b
  | step hx hr ih => exact .step (by rw [List.getElem?_append_left (List.getElem?_eq_some_iff.1 hx).1, hx]) ih

theorem insertAfter (hr : Reach link h p b) (hx : h[a]? = some x) (hy : link y = link x) (hx' : link x' = some h.length) :
    Reach link ((h ++ [y]).set a x') p b := by
  have ha : a < h.length := (List.getElem?_eq_some_iff.1 hx).1
  induction hr with
  | here b => exact .here b
  | @step c b z hz hr ih =>
    by_cases hc : c = a
    · subst hc
      cases hx.symm.trans hz
      have hself : ((h ++ [y]).set c x')[c]? = some x' := List.getElem?_set_self (by rw [List.length_append]; omega)
      have hnew : ((h ++ [y]).set c x')[h.length]? = some y := by
        rw [List.getElem?_set_ne (by omega)]
        simp
      refine .step hself ?_
      rw [hx']
      refine .step hnew ?_
      rwa [hy]
    · refine .step ?_ ih
      rw [List.getElem?_set_ne (Ne.symm hc), List.getElem?_append_left (List.getElem?_eq_some_iff.1 hz).1, hz]

end Reach

end Ostep
