import Mathlib.Data.List.Nodup

/-!
# Lists read with a default

`l.getD j a` behaves as an infinite list that ends in `a`s, which is how a zeroed array holds a list: `getD_append_lt` and
`getD_append_ge` for more data at the end, `getD_flatMap` for records of one length.
-/

namespace Ostep

variable {α : Type*} {l l' : List α} {x a : α} {j : Nat}

theorem getD_append_lt (hj : j < l.length) : (l ++ l').getD j a = l.getD j a := by
  rw [List.getD_eq_getElem?_getD, List.getD_eq_getElem?_getD, List.getElem?_append_left hj]

theorem getD_append_ge (hj : l.length ≤ j) : (l ++ l').getD j a = l'.getD (j - l.length) a := by
  rw [List.getD_eq_getElem?_getD, List.getD_eq_getElem?_getD, List.getElem?_append_right hj]

theorem getD_of_le (hj : l.length ≤ j) : l.getD j a = a := by
  rw [List.getD_eq_getElem?_getD, List.getElem?_eq_none hj]
  rfl

theorem getD_inj {l : List Nat} (hl : l.Nodup) {j k : Nat} (hj : j < l.length) (hk : k < l.length) (h : l.getD j 0 = l.getD k 0) : j = k := by
  rw [List.getD_eq_getElem?_getD, List.getD_eq_getElem?_getD, List.getElem?_eq_getElem hj, List.getElem?_eq_getElem hk] at h
  exact (hl.getElem_inj_iff).1 h

theorem getD_concat_self : (l ++ [x]).getD l.length a = x := by
  rw [List.getD_eq_getElem?_getD, List.getElem?_concat_length]
  rfl

theorem getD_concat_of_ne (hj : j ≠ l.length) : (l ++ [x]).getD j a = l.getD j a := by
  rcases Nat.lt_or_gt_of_ne hj with hlt | hgt
  · exact getD_append_lt hlt
  · rw [getD_of_le (by rw [List.length_append, List.length_singleton]; omega), getD_of_le (by omega)]

theorem getD_append_replicate (l : List α) (n j : Nat) (a : α) : (l ++ List.replicate n a).getD j a = l.getD j a := by
  rcases Nat.lt_or_ge j l.length with hlt | hge
  · exact getD_append_lt hlt
  · rw [getD_append_ge hge, getD_of_le hge, List.getD_eq_getElem?_getD, List.getElem?_replicate]
    split <;> rfl

theorem getD_flatMap {β : Type*} {g : β → List α} {b : Nat} (hg : ∀ e, (g e).length = b) {es : List β} {k : Nat} {e : β} (hk : es[k]? = some e)
    (hj : j < b) : (es.flatMap g).getD (b * k + j) a = (g e).getD j a := by
  induction es generalizing k with
  | nil => cases hk
  | cons e' es ih =>
    rw [List.flatMap_cons]
    rcases k with _ | k
    · cases hk
      rw [getD_append_lt (by rw [hg]; omega), Nat.mul_zero, Nat.zero_add]
    · have hsub : b * (k + 1) + j - b = b * k + j := by
        rw [Nat.mul_succ]
        omega
      rw [getD_append_ge (by rw [hg, Nat.mul_succ]; omega), hg, hsub]
      exact ih hk

end Ostep
