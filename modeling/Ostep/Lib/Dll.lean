import Mathlib.Data.List.Chain
import Mathlib.Data.List.Nodup
import Mathlib.Logic.Function.Basic

/-!
# Circular doubly linked lists

`Links` holds the two pointers of every node. `Circular k h l` says that the pointers `next` lead from the head `h` through the
distinct nodes `l` back to `h`, and that the pointers `prev` lead the same way backwards. A node is put right behind the head by
`linkFront` and taken out by `unlink`; `scan` follows one of the pointers until it finds a node or is back at the head, and in a
circular list it does not take more steps than there are nodes.
-/

namespace Ostep

structure Links (α : Type*) where
  next : α → α
  prev : α → α

namespace Links

variable {α : Type*} {k : Links α} {h x : α} {l l₁ l₂ : List α}

def swap (k : Links α) : Links α := ⟨k.prev, k.next⟩

def Joined (k : Links α) (a b : α) : Prop := k.next a = b ∧ k.prev b = a

structure Circular (k : Links α) (h : α) (l : List α) : Prop where
  chain : (h :: (l ++ [h])).IsChain k.Joined
  nodup : (h :: l).Nodup

theorem circular_nil (h : k.Joined x x) : k.Circular x [] := ⟨List.isChain_pair.2 h, List.nodup_singleton x⟩

theorem Circular.swap (hk : k.Circular h l) : k.swap.Circular h l.reverse where
  chain := by
    have hrev : h :: (l.reverse ++ [h]) = (h :: (l ++ [h])).reverse := by simp
    rw [hrev, List.isChain_reverse]
    exact hk.chain.imp fun a b hab => ⟨hab.2, hab.1⟩
  nodup := by
    rw [List.nodup_cons, List.mem_reverse, List.nodup_reverse]
    exact List.nodup_cons.1 hk.nodup

theorem Circular.head_notMem (hk : k.Circular h l) : h ∉ l := (List.nodup_cons.1 hk.nodup).1

variable [DecidableEq α]

/-- `x->next = h->next; x->prev = h; h->next->prev = x; h->next = x` -/
def linkFront (k : Links α) (h x : α) : Links α where
  next := Function.update (Function.update k.next x (k.next h)) h x
  prev := Function.update (Function.update k.prev x h) (k.next h) x

/-- `x->next->prev = x->prev; x->prev->next = x->next` -/
def unlink (k : Links α) (x : α) : Links α where
  next := Function.update k.next (k.prev x) (k.next x)
  prev := Function.update k.prev (k.next x) (k.prev x)

theorem Circular.linkFront (hk : k.Circular h l) (hx : x ∉ h :: l) : (k.linkFront h x).Circular h (x :: l) := by
  have hxh := List.ne_of_not_mem_cons hx
  have hxl := List.not_mem_of_not_mem_cons hx
  obtain ⟨hhl, hl⟩ := List.nodup_cons.1 hk.nodup
  -- so the write to `h->next->prev` does not hit `x->prev`
  have hnx : k.next h ≠ x := by
    intro hn
    cases l with
    | nil => exact hxh (hn.symm.trans (List.isChain_pair.1 hk.chain).1)
    | cons y l => exact hxl (List.mem_cons.2 (.inl (hn.symm.trans (List.isChain_cons_cons.1 hk.chain).1.1)))
  have hfirst : (k.linkFront h x).Joined h x := by
    refine ⟨Function.update_self _ _ _, ?_⟩
    show Function.update (Function.update k.prev x h) (k.next h) x x = h
    rw [Function.update_of_ne hnx.symm, Function.update_self]
  have hsecond : (k.linkFront h x).Joined x (k.next h) := by
    refine ⟨?_, Function.update_self _ _ _⟩
    show Function.update (Function.update k.next x (k.next h)) h x x = k.next h
    rw [Function.update_of_ne hxh, Function.update_self]
  refine ⟨?_, List.nodup_cons.2 ⟨?_, List.nodup_cons.2 ⟨hxl, hl⟩⟩⟩
  · cases l with
    | nil =>
      rw [(List.isChain_pair.1 hk.chain).1] at hsecond
      exact List.isChain_cons_cons.2 ⟨hfirst, List.isChain_pair.2 hsecond⟩
    | cons y l =>
      obtain ⟨hy, hrest⟩ := List.isChain_cons_cons.1 hk.chain
      rw [hy.1] at hsecond
      refine List.isChain_cons_cons.2 ⟨hfirst, List.isChain_cons_cons.2 ⟨hsecond, ?_⟩⟩
      refine hrest.imp_of_mem_tail_imp fun a b ha hb hab => ?_
      have hbl : b ∈ l ++ [h] := hb
      -- the pointers that change are those of `x`, `h->next` and `y->prev`
      have hby : b ≠ y := by
        rintro rfl
        rcases List.mem_append.1 hbl with hbl | hbl
        · exact (List.nodup_cons.1 hl).1 hbl
        · exact hhl (List.mem_cons.2 (.inl (List.mem_singleton.1 hbl).symm))
      have hah : a ≠ h := fun hah => hby (hab.1.symm.trans (hah ▸ hy.1))
      have hne : ∀ c ∈ y :: l ++ [h], c ≠ x := by
        rintro c hc rfl
        rcases List.mem_append.1 hc with hc | hc
        · exact hxl hc
        · exact hxh (List.mem_singleton.1 hc)
      constructor
      · show Function.update (Function.update k.next x (k.next h)) h x a = b
        rw [Function.update_of_ne hah, Function.update_of_ne (hne a ha)]
        exact hab.1
      · show Function.update (Function.update k.prev x h) (k.next h) x b = a
        rw [Function.update_of_ne (hy.1 ▸ hby), Function.update_of_ne (hne b (List.mem_cons_of_mem y hbl))]
        exact hab.2
  · intro hmem
    rcases List.mem_cons.1 hmem with hmem | hmem
    · exact hxh hmem.symm
    · exact hhl hmem

theorem chain_unlink (hprev : k.Joined (k.prev x) x) (hnext : k.Joined x (k.next x)) (hx : x ∉ l) (hl : l.IsChain k.Joined) :
    l.IsChain (k.unlink x).Joined := by
  refine hl.imp_of_mem_imp fun a b ha hb hab => ⟨?_, ?_⟩
  · have hne : a ≠ k.prev x := fun he => hx (hprev.1 ▸ he ▸ hab.1 ▸ hb)
    exact (Function.update_of_ne hne _ _).trans hab.1
  · have hne : b ≠ k.next x := fun he => hx (hnext.2 ▸ he ▸ hab.2 ▸ ha)
    exact (Function.update_of_ne hne _ _).trans hab.2

theorem Circular.unlink (hk : k.Circular h (l₁ ++ x :: l₂)) : (k.unlink x).Circular h (l₁ ++ l₂) := by
  have hperm : (h :: l₁ ++ x :: l₂).Perm (x :: (h :: l₁ ++ l₂)) := List.perm_middle
  have hnodup : (x :: (h :: (l₁ ++ l₂))).Nodup := hperm.nodup_iff.1 hk.nodup
  obtain ⟨hx, hrest⟩ := List.nodup_cons.1 hnodup
  -- `a` comes before `x`, and `b` after it
  obtain ⟨u, a, hua⟩ := List.eq_nil_or_concat (h :: l₁) |>.resolve_left (List.cons_ne_nil h l₁)
  obtain ⟨b, v, hbv⟩ := List.exists_cons_of_ne_nil (List.append_ne_nil_of_right_ne_nil l₂ (List.cons_ne_nil h []))
  have hsplit : h :: (l₁ ++ x :: l₂ ++ [h]) = u ++ a :: x :: b :: v := by
    rw [← hbv, List.append_assoc, List.cons_append, ← List.cons_append, hua]
    simp
  have hgoal : h :: (l₁ ++ l₂ ++ [h]) = u ++ a :: b :: v := by
    rw [← hbv, List.append_assoc, ← List.cons_append, hua]
    simp
  have hxu : x ∉ u ++ [a] := by
    intro hmem
    have : x ∈ h :: l₁ := by rw [hua]; simpa using hmem
    exact hx (List.mem_append_left l₂ this)
  have hxv : x ∉ b :: v := by
    rw [← hbv]
    intro hmem
    rcases List.mem_append.1 hmem with hmem | hmem
    · exact hx (List.mem_cons_of_mem h (List.mem_append_right l₁ hmem))
    · exact hx (List.mem_cons.2 (.inl (List.mem_singleton.1 hmem)))
  have hchain := hk.chain
  rw [hsplit, List.isChain_append_cons_cons] at hchain
  obtain ⟨hleft, hax, hright⟩ := hchain
  obtain ⟨hxb, hright⟩ := List.isChain_cons_cons.1 hright
  have hprev : k.Joined (k.prev x) x := by rwa [hax.2]
  have hnext : k.Joined x (k.next x) := by rwa [hxb.1]
  refine ⟨?_, hrest⟩
  rw [hgoal, List.isChain_append_cons_cons]
  refine ⟨chain_unlink hprev hnext hxu hleft, ⟨?_, ?_⟩, chain_unlink hprev hnext hxv hright⟩
  · show Function.update k.next (k.prev x) (k.next x) a = b
    rw [hax.2, hxb.1, Function.update_self]
  · show Function.update k.prev (k.next x) (k.prev x) b = a
    rw [hax.2, hxb.1, Function.update_self]

end Links

/-! ### Scans -/

section
variable {α : Type*} [DecidableEq α] {k : Links α} {h : α} {l : List α} {q : α → Bool} {n : Nat}

/-- `for (a = …; a != h; a = step a) if (q a) return a`, for at most `n` nodes; the outer `none` is a loop that is still going. -/
def scan (step : α → α) (h : α) (q : α → Bool) : Nat → α → Option (Option α)
  | 0, _ => none
  | n + 1, a => if a = h then some none else if q a then some (some a) else scan step h q n (step a)

theorem scan_found {step : α → α} {a : α} (hx : scan step h q n a = some (some x)) : q x = true := by
  induction n generalizing a with
  | zero => cases hx
  | succ n ih =>
    rw [scan] at hx
    split at hx
    · cases hx
    · split at hx
      · next hq =>
        cases hx
        exact hq
      · exact ih hx

theorem scan_of_chain {a : α} (hchain : (a :: (l ++ [h])).IsChain k.Joined) (hh : h ∉ l) (hn : l.length < n) :
    scan k.next h q n (k.next a) = some (l.find? q) := by
  induction l generalizing a n with
  | nil =>
    obtain ⟨n, rfl⟩ : ∃ m, n = m + 1 := ⟨n - 1, by simp at hn; omega⟩
    rw [scan, if_pos (List.isChain_pair.1 hchain).1]
    rfl
  | cons y l ih =>
    obtain ⟨n, rfl⟩ : ∃ m, n = m + 1 := ⟨n - 1, by simp at hn; omega⟩
    obtain ⟨hay, hrest⟩ := List.isChain_cons_cons.1 hchain
    rw [scan, hay.1, if_neg (List.ne_of_not_mem_cons hh).symm, List.find?_cons]
    cases hq : q y with
    | true => rfl
    | false => exact ih hrest (List.not_mem_of_not_mem_cons hh) (Nat.lt_of_succ_lt_succ hn)

theorem Links.Circular.scan_next (hk : k.Circular h l) (q : α → Bool) (hn : l.length < n) :
    scan k.next h q n (k.next h) = some (l.find? q) :=
  scan_of_chain hk.chain hk.head_notMem hn

theorem Links.Circular.scan_prev (hk : k.Circular h l) (q : α → Bool) (hn : l.length < n) :
    scan k.prev h q n (k.prev h) = some (l.reverse.find? q) :=
  hk.swap.scan_next q (by rwa [List.length_reverse])

end

end Ostep
