import Mathlib.Logic.Function.Basic
import Mathlib.Tactic.Common

/-!
# A finite map in a list of slots

Slots are free or hold a key and its value. A key is looked up in all slots from the first on, a new one goes into the first free
slot or behind the last one, and a slot is cleared in place. As long as no key stands in two slots the list is a finite map, `get`,
and these are its updates: `get_put`, `get_clear`.
-/

namespace Ostep.SlotMap

variable {κ ν : Type*} {l l' : List (Option (κ × ν))} {i k n : Nat} {a : κ} {v : ν} {e : Option (κ × ν)}

/-- The number of the first free slot, or of the one behind the last; `k` is the number of the first slot. -/
def free : Nat → List (Option (κ × ν)) → Nat
  | k, [] => k
  | k, none :: _ => k
  | k, some _ :: l => free (k + 1) l

/-- No key stands in two slots. -/
def OneEach (l : List (Option (κ × ν))) : Prop := ∀ (i j : Nat) a v w, l[i]? = some (some (a, v)) → l[j]? = some (some (a, w)) → i = j

/-- Slot `i` holds `e`, and the others are as in `l`. -/
def Stored (l : List (Option (κ × ν))) (i : Nat) (e : Option (κ × ν)) (l' : List (Option (κ × ν))) : Prop :=
  ∀ j, l'[j]? = if j = i then some e else l[j]?

theorem free_spec (k : Nat) (l : List (Option (κ × ν))) :
    ∃ i ≤ l.length, free k l = k + i ∧ (∀ e, l[i]? ≠ some (some e)) ∧ ∀ j < i, l[j]? ≠ some none := by
  induction l generalizing k with
  | nil => exact ⟨0, Nat.le_refl _, rfl, fun e => by simp, nofun⟩
  | cons x l ih =>
    cases x with
    | none => exact ⟨0, Nat.zero_le _, rfl, fun e => by simp, nofun⟩
    | some y =>
      obtain ⟨i, hi, heq, hfree, hused⟩ := ih (k + 1)
      refine ⟨i + 1, Nat.succ_le_succ hi, heq.trans (by omega), fun e => by simpa using hfree e, fun j hj => ?_⟩
      cases j with
      | zero => simp
      | succ j => simpa using hused j (by omega)

theorem oneEach_put (h : OneEach l) (hs : Stored l i (some (a, v)) l') (ha : ∀ (j : Nat) w, l[j]? ≠ some (some (a, w))) : OneEach l' := by
  intro j j' b w w' hj hj'
  rw [hs] at hj hj'
  by_cases hji : j = i
  · rw [if_pos hji] at hj
    cases hj
    by_cases hji' : j' = i
    · rw [hji, hji']
    · rw [if_neg hji'] at hj'
      exact absurd hj' (ha j' w')
  · rw [if_neg hji] at hj
    by_cases hji' : j' = i
    · rw [if_pos hji'] at hj'
      cases hj'
      exact absurd hj (ha j w)
    · rw [if_neg hji'] at hj'
      exact h j j' b w w' hj hj'

theorem oneEach_clear (h : OneEach l) (hs : Stored l i none l') : OneEach l' := by
  have hold : ∀ {j : Nat} {b w}, l'[j]? = some (some (b, w)) → l[j]? = some (some (b, w)) := by
    intro j b w hj
    rw [hs] at hj
    split at hj
    · cases hj
    · exact hj
  exact fun j j' b w w' hj hj' => h j j' b w w' (hold hj) (hold hj')

theorem Stored.eq (hs : Stored l i e l') (hi : i ≤ l.length) : l' = l.take i ++ e :: l.drop (i + 1) := by
  have htake : (l.take i).length = i := List.length_take_of_le hi
  refine List.ext_getElem? fun j => ?_
  rw [hs]
  rcases Nat.lt_trichotomy j i with hlt | rfl | hgt
  · rw [if_neg (Nat.ne_of_lt hlt), List.getElem?_append_left (by omega), List.getElem?_take, if_pos hlt]
  · rw [if_pos rfl, List.getElem?_append_right (by omega), htake, Nat.sub_self]
    rfl
  · obtain ⟨m, rfl⟩ : ∃ m, j = i + (m + 1) := ⟨j - i - 1, by omega⟩
    rw [if_neg (by omega), List.getElem?_append_right (by omega), htake, Nat.add_sub_cancel_left, List.getElem?_cons_succ,
      List.getElem?_drop]
    congr 1
    omega

theorem Stored.drop (hs : Stored l i e l') (hn : n ≤ i) : Stored (l.drop n) (i - n) e (l'.drop n) := by
  intro j
  rw [List.getElem?_drop, List.getElem?_drop, hs]
  exact if_congr (by omega) rfl rfl

theorem Stored.countP (hs : Stored l i e l') (hi : i ≤ l.length) (p : Option (κ × ν) → Bool) :
    l'.countP p + (l[i]?.toList).countP p = l.countP p + [e].countP p := by
  have hl : l = l.take i ++ (l[i]?.toList ++ l.drop (i + 1)) := by
    rcases Nat.lt_or_eq_of_le hi with hlt | rfl
    · rw [List.getElem?_eq_getElem hlt, Option.toList_some, List.singleton_append, ← List.drop_eq_getElem_cons hlt, List.take_append_drop]
    · simp
  have hcount := congrArg (List.countP p) hl
  rw [List.countP_append, List.countP_append] at hcount
  rw [hs.eq hi, ← List.singleton_append, List.countP_append, List.countP_append]
  omega

variable [DecidableEq κ]

/-- The first slot with the key: the value in it, and its number. -/
def find (a : κ) : Nat → List (Option (κ × ν)) → Option (ν × Nat)
  | _, [] => none
  | k, none :: l => find a (k + 1) l
  | k, some (b, v) :: l => if a = b then some (v, k) else find a (k + 1) l

def get (l : List (Option (κ × ν))) (a : κ) : Option ν := (find a 0 l).map Prod.fst

theorem find_spec (h : find a k l = some (v, n)) : ∃ i : Nat, n = k + i ∧ l[i]? = some (some (a, v)) := by
  induction l generalizing k with
  | nil => cases h
  | cons x l ih =>
    have hlater : find a (k + 1) l = some (v, n) → ∃ i : Nat, n = k + i ∧ (x :: l)[i]? = some (some (a, v)) := by
      intro h
      obtain ⟨i, rfl, hi⟩ := ih h
      exact ⟨i + 1, by omega, by simpa using hi⟩
    cases x with
    | none => exact hlater h
    | some y =>
      obtain ⟨b, w⟩ := y
      rw [find] at h
      split at h
      · next hab =>
        cases h
        exact ⟨0, rfl, by rw [hab]; rfl⟩
      · exact hlater h

theorem find_eq_none_iff : find a k l = none ↔ ∀ (i : Nat) v, l[i]? ≠ some (some (a, v)) := by
  induction l generalizing k with
  | nil => simp [find]
  | cons x l ih =>
    have hcons : (∀ (i : Nat) v, (x :: l)[i]? ≠ some (some (a, v))) ↔ (∀ v, x ≠ some (a, v)) ∧ ∀ (i : Nat) v, l[i]? ≠ some (some (a, v)) := by
      constructor
      · intro h
        exact ⟨fun v hx => h 0 v (by rw [hx]; rfl), fun i v hi => h (i + 1) v (by simpa using hi)⟩
      · rintro ⟨hx, hl⟩ i v hi
        cases i with
        | zero => exact hx v (Option.some.inj hi)
        | succ i => exact hl i v (by simpa using hi)
    rw [hcons]
    cases x with
    | none => simpa [find] using ih
    | some y =>
      obtain ⟨b, w⟩ := y
      rw [find]
      split
      · next hab => simp [hab]
      · next hab =>
        rw [ih]
        simp [Ne.symm hab]

theorem get_eq_none_iff : get l a = none ↔ ∀ (i : Nat) v, l[i]? ≠ some (some (a, v)) := by
  rw [get, Option.map_eq_none_iff, find_eq_none_iff]

theorem get_eq_some_iff (h : OneEach l) : get l a = some v ↔ ∃ i : Nat, l[i]? = some (some (a, v)) := by
  constructor
  · intro hget
    obtain ⟨⟨w, n⟩, hfind, rfl⟩ := Option.map_eq_some_iff.1 hget
    obtain ⟨i, -, hi⟩ := find_spec hfind
    exact ⟨i, hi⟩
  · rintro ⟨i, hi⟩
    cases hget : get l a with
    | none => exact absurd hi (get_eq_none_iff.1 hget i v)
    | some w =>
      obtain ⟨⟨w', n⟩, hfind, rfl⟩ := Option.map_eq_some_iff.1 hget
      obtain ⟨j, -, hj⟩ := find_spec hfind
      obtain rfl := h i j a v w' hi hj
      rw [hi] at hj
      cases hj
      rfl

theorem get_stored_of_ne {b : κ} (h : OneEach l) (h' : OneEach l') (hs : Stored l i e l')
    (hold : ∀ w, l[i]? ≠ some (some (b, w))) (hnew : ∀ w, e ≠ some (b, w)) : get l' b = get l b := by
  refine Option.ext fun w => ?_
  rw [get_eq_some_iff h', get_eq_some_iff h]
  refine exists_congr fun j => ?_
  rw [hs]
  split
  · next hji =>
    subst hji
    exact iff_of_false (fun heq => hnew w (Option.some.inj heq)) (hold w)
  · rfl

/-- A new key in a slot that is free or behind the last one. -/
theorem get_put (h : OneEach l) (hs : Stored l i (some (a, v)) l') (ha : get l a = none) (hfree : ∀ e, l[i]? ≠ some (some e)) :
    OneEach l' ∧ get l' = Function.update (get l) a (some v) := by
  have h' := oneEach_put h hs (get_eq_none_iff.1 ha)
  refine ⟨h', funext fun b => ?_⟩
  rcases eq_or_ne b a with rfl | hb
  · rw [Function.update_self, get_eq_some_iff h']
    exact ⟨i, by rw [hs, if_pos rfl]⟩
  · rw [Function.update_of_ne hb]
    refine get_stored_of_ne h h' hs (fun w => hfree (b, w)) fun w heq => ?_
    cases heq
    exact hb rfl

theorem get_clear (h : OneEach l) (hs : Stored l i none l') (hi : l[i]? = some (some (a, v))) :
    OneEach l' ∧ get l' = Function.update (get l) a none := by
  have h' := oneEach_clear h hs
  refine ⟨h', funext fun b => ?_⟩
  rcases eq_or_ne b a with rfl | hb
  · rw [Function.update_self, get_eq_none_iff]
    intro j w hj
    rw [hs] at hj
    split at hj
    · cases hj
    · next hji => exact hji (h j i b w v hj hi)
  · rw [Function.update_of_ne hb]
    refine get_stored_of_ne h h' hs (fun w heq => ?_) nofun
    rw [hi] at heq
    cases heq
    exact hb rfl

end Ostep.SlotMap
