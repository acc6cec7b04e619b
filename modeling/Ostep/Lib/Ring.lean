import Mathlib.Algebra.Order.Ring.Int
import Mathlib.Data.Nat.ModEq
import Mathlib.Logic.Function.Basic

/-!
# Ring buffers with counters that wrap

`nread` and `nwrite` count what has been taken from a ring of `N` cells and what has been put into it, modulo `2 ^ w`; cell
`c % N` is the one for count `c`. `Ring N data nread nwrite q` says that the ring holds the queue `q`. The counters may wrap at any
time, as long as `N` divides `2 ^ w` and is smaller.
-/

namespace Ostep

variable {α : Type*} {w N : Nat} {data : Nat → α} {nread nwrite : BitVec w} {q : List α} {x : α}

structure Ring (N : Nat) (data : Nat → α) (nread nwrite : BitVec w) (q : List α) : Prop where
  count : nwrite = nread + BitVec.ofNat w q.length
  le : q.length ≤ N
  cell : ∀ k x, q[k]? = some x → data ((nread.toNat + k) % N) = x

theorem ring_nil (N : Nat) (data : Nat → α) (c : BitVec w) : Ring N data c c [] where
  count := (BitVec.add_zero c).symm
  le := Nat.zero_le N
  cell := fun k x h => by simp at h

theorem mod_toNat_add (hN : N ∣ 2 ^ w) (c : BitVec w) (k : Nat) : (c + BitVec.ofNat w k).toNat % N = (c.toNat + k) % N := by
  rw [BitVec.toNat_add, BitVec.toNat_ofNat, Nat.mod_mod_of_dvd _ hN, Nat.add_mod, Nat.mod_mod_of_dvd _ hN, ← Nat.add_mod]

theorem add_mod_ne {c i n : Nat} (hi : i < n) (hn : n < N) : (c + i) % N ≠ (c + n) % N := fun h =>
  hi.ne ((Nat.ModEq.add_left_cancel' c h).eq_of_lt_of_lt (hi.trans hn) hn)

namespace Ring

theorem toNat_sub (h : Ring N data nread nwrite q) (hN : N < 2 ^ w) : (nwrite - nread).toNat = q.length := by
  have hle := h.le
  rw [h.count, BitVec.add_comm, BitVec.add_sub_cancel, BitVec.toNat_ofNat, Nat.mod_eq_of_lt (by omega)]

theorem empty_iff (h : Ring N data nread nwrite q) (hN : N < 2 ^ w) : nread = nwrite ↔ q = [] := by
  rw [← List.length_eq_zero_iff, ← h.toNat_sub hN]
  constructor
  · rintro rfl
    rw [BitVec.sub_self, BitVec.toNat_zero]
  · intro h0
    exact (BitVec.sub_eq_iff_eq_add.1 (BitVec.eq_of_toNat_eq (h0.trans BitVec.toNat_zero.symm))).trans (BitVec.zero_add _) |>.symm

theorem full_iff (h : Ring N data nread nwrite q) (hN : N < 2 ^ w) : nwrite = nread + BitVec.ofNat w N ↔ q.length = N := by
  have hle := h.le
  constructor
  · intro hfull
    have heq := h.toNat_sub hN
    rw [hfull, BitVec.add_comm, BitVec.add_sub_cancel, BitVec.toNat_ofNat, Nat.mod_eq_of_lt hN] at heq
    exact heq.symm
  · intro hlen
    rw [h.count, hlen]

theorem push (h : Ring N data nread nwrite q) (hN : N ∣ 2 ^ w) (hlt : q.length < N) (x : α) :
    Ring N (Function.update data (nwrite.toNat % N) x) nread (nwrite + 1) (q ++ [x]) := by
  have hcell : nwrite.toNat % N = (nread.toNat + q.length) % N := by rw [h.count, mod_toNat_add hN]
  refine ⟨?_, by rw [List.length_append]; exact hlt, fun k y hk => ?_⟩
  · have hone : (1 : BitVec w) = BitVec.ofNat w 1 := rfl
    rw [h.count, List.length_append, List.length_singleton, BitVec.ofNat_add, BitVec.add_assoc, hone]
  · rcases Nat.lt_trichotomy k q.length with hlt' | rfl | hgt
    · rw [List.getElem?_append_left hlt'] at hk
      rw [Function.update_of_ne (by rw [hcell]; exact add_mod_ne hlt' hlt)]
      exact h.cell k y hk
    · rw [← hcell, Function.update_self]
      simpa using hk
    · rw [List.getElem?_eq_none (by rw [List.length_append, List.length_singleton]; omega)] at hk
      cases hk

theorem pop (h : Ring N data nread nwrite (x :: q)) (hN : N ∣ 2 ^ w) : data (nread.toNat % N) = x ∧ Ring N data (nread + 1) nwrite q := by
  have hone : (1 : BitVec w) = BitVec.ofNat w 1 := rfl
  refine ⟨h.cell 0 x rfl, ?_, Nat.le_of_succ_le h.le, fun k y hk => ?_⟩
  · rw [h.count, List.length_cons, Nat.add_comm, BitVec.ofNat_add, BitVec.add_assoc, hone]
  · rw [← h.cell (k + 1) y hk, Nat.add_mod, hone, mod_toNat_add hN, ← Nat.add_mod, Nat.add_assoc, Nat.add_comm 1]

theorem unpush (h : Ring N data nread nwrite (q ++ [x])) (hN : N ∣ 2 ^ w) :
    data ((nwrite - 1).toNat % N) = x ∧ Ring N data nread (nwrite - 1) q := by
  have hone : (1 : BitVec w) = BitVec.ofNat w 1 := rfl
  have hcount : nwrite - 1 = nread + BitVec.ofNat w q.length := by
    rw [h.count, List.length_append, List.length_singleton, BitVec.ofNat_add, ← BitVec.add_assoc, hone, BitVec.add_sub_cancel]
  have hle := h.le
  rw [List.length_append, List.length_singleton] at hle
  refine ⟨?_, hcount, by omega, fun k y hk => ?_⟩
  · rw [hcount, mod_toNat_add hN]
    exact h.cell _ x List.getElem?_concat_length
  · exact h.cell k y (by rw [List.getElem?_append_left (List.getElem?_eq_some_iff.1 hk).1, hk])

theorem contents (h : Ring N data nread nwrite q) (hN : N < 2 ^ w) :
    (List.range (nwrite - nread).toNat).map (fun j => data ((nread.toNat + j) % N)) = q := by
  rw [h.toNat_sub hN]
  refine List.ext_getElem? fun k => ?_
  rw [List.getElem?_map]
  rcases Nat.lt_or_ge k q.length with hk | hk
  · rw [List.getElem?_range hk, List.getElem?_eq_getElem hk]
    exact congrArg some (h.cell k _ (List.getElem?_eq_getElem hk))
  · rw [List.getElem?_eq_none (by rw [List.length_range]; exact hk), List.getElem?_eq_none hk]
    rfl

theorem split {q' : List α} (h : Ring N data nread nwrite (q ++ q')) (hN : N ∣ 2 ^ w) :
    Ring N data nread (nread + BitVec.ofNat w q.length) q ∧ Ring N data (nread + BitVec.ofNat w q.length) nwrite q' := by
  have hle := h.le
  rw [List.length_append] at hle
  refine ⟨⟨rfl, by omega, fun k x hk => ?_⟩, ?_, by omega, fun k x hk => ?_⟩
  · exact h.cell k x (by rw [List.getElem?_append_left (List.getElem?_eq_some_iff.1 hk).1, hk])
  · rw [h.count, List.length_append, BitVec.ofNat_add, BitVec.add_assoc]
  · rw [Nat.add_mod, mod_toNat_add hN, ← Nat.add_mod, Nat.add_assoc]
    exact h.cell (q.length + k) x (by rw [List.getElem?_append_right (Nat.le_add_right _ _), Nat.add_sub_cancel_left, hk])

end Ring

end Ostep
