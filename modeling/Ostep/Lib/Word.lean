import Mathlib.Data.List.GetD
import Mathlib.Logic.Function.Basic
import Ostep.Lib.CInt

/-!
# Words in a memory of bytes

A memory is a function from addresses to bytes. `load` reads a 32-bit word, lowest byte first, and `store` writes one; `patch` writes a
list of bytes.
-/

namespace Ostep

variable {m m' : Nat → UInt8} {a b x : Nat}

def load (m : Nat → UInt8) (a : Nat) : Nat :=
  (m a).toNat + 2 ^ 8 * (m (a + 1)).toNat + 2 ^ 16 * (m (a + 2)).toNat + 2 ^ 24 * (m (a + 3)).toNat

def store (a x : Nat) (m : Nat → UInt8) : Nat → UInt8 :=
  fun b => if a ≤ b ∧ b < a + 4 then UInt8.ofNat (x / 2 ^ (8 * (b - a))) else m b

theorem store_of_ne (h : b < a ∨ a + 4 ≤ b) (x : Nat) (m : Nat → UInt8) : store a x m b = m b := by
  rw [store, if_neg]
  omega

theorem load_congr (h : ∀ b, a ≤ b → b < a + 4 → m' b = m b) : load m' a = load m a := by
  unfold load
  rw [h a (by omega) (by omega), h (a + 1) (by omega) (by omega), h (a + 2) (by omega) (by omega), h (a + 3) (by omega) (by omega)]

theorem load_store_of_ne (h : a + 4 ≤ b ∨ b + 4 ≤ a) (x : Nat) (m : Nat → UInt8) : load (store a x m) b = load m b :=
  load_congr fun c hc hc' => store_of_ne (by omega) x m

theorem load_store_self (a : Nat) (m : Nat → UInt8) (hx : x < 2 ^ 32) : load (store a x m) a = x := by
  have hbyte : ∀ k < 4, (store a x m (a + k)).toNat = x / 2 ^ (8 * k) % 256 := by
    intro k hk
    rw [store, if_pos (by omega), Nat.add_sub_cancel_left]
    simp
  have h0 := hbyte 0 (by omega)
  rw [Nat.add_zero] at h0
  unfold load
  rw [h0, hbyte 1 (by omega), hbyte 2 (by omega), hbyte 3 (by omega)]
  omega

/-! ### Patches -/

def patch (m : Nat → UInt8) (a : Nat) (bs : List UInt8) : Nat → UInt8 :=
  fun b => if a ≤ b ∧ b < a + bs.length then bs.getD (b - a) 0 else m b

variable {bs cs : List UInt8}

theorem patch_of_ne (h : b < a ∨ a + bs.length ≤ b) : patch m a bs b = m b := by
  rw [patch, if_neg]
  omega

theorem patch_of_mem (h : a ≤ b) (h' : b < a + bs.length) : patch m a bs b = bs.getD (b - a) 0 := if_pos ⟨h, h'⟩

@[simp] theorem patch_nil (m : Nat → UInt8) (a b : Nat) : patch m a [] b = m b := by
  refine patch_of_ne ?_
  rw [List.length_nil]
  omega

theorem patch_congr (h : m' b = m b) : patch m' a bs b = patch m a bs b := by
  unfold patch
  rw [h]

theorem patch_patch (m : Nat → UInt8) (a : Nat) (bs cs : List UInt8) (b : Nat) :
    patch (patch m a bs) (a + bs.length) cs b = patch m a (bs ++ cs) b := by
  by_cases h1 : a + bs.length ≤ b ∧ b < a + bs.length + cs.length
  · rw [patch_of_mem h1.1 h1.2, patch_of_mem (by omega) (by rw [List.length_append]; omega), List.getD_append_right _ _ _ _ (by omega)]
    congr 1
    omega
  · rw [patch_of_ne (by omega)]
    by_cases h2 : a ≤ b ∧ b < a + bs.length
    · rw [patch_of_mem h2.1 h2.2, patch_of_mem h2.1 (by rw [List.length_append]; omega), List.getD_append _ _ _ _ (by omega)]
    · rw [patch_of_ne (by omega), patch_of_ne (by rw [List.length_append]; omega)]

/-! ### A list of words -/

theorem length_words (ws : List Nat) : (ws.flatMap fun w : Nat => le32 w).length = 4 * ws.length := by
  induction ws with
  | nil => rfl
  | cons w ws ih => rw [List.flatMap_cons, List.length_append, ih, length_le32, List.length_cons]; omega

theorem getD_words {ws : List Nat} {i k : Nat} (hi : i < ws.length) (hk : k < 4) :
    (ws.flatMap fun w : Nat => le32 w).getD (4 * i + k) 0 = (le32 ws[i]).getD k 0 := by
  induction ws generalizing i with
  | nil => cases hi
  | cons w ws ih =>
    rw [List.flatMap_cons]
    cases i with
    | zero => rw [Nat.mul_zero, Nat.zero_add, List.getD_append _ _ _ _ hk]; rfl
    | succ i =>
      rw [List.getD_append_right _ _ _ _ (by rw [length_le32]; omega), length_le32, show 4 * (i + 1) + k - 4 = 4 * i + k by omega]
      exact ih (Nat.lt_of_succ_lt_succ hi)

theorem load_words {ws : List Nat} {i w : Nat} (h : ws[i]? = some w) (hw : w < 2 ^ 32) (m : Nat → UInt8) (a : Nat) :
    load (patch m a (ws.flatMap fun w : Nat => le32 w)) (a + 4 * i) = w := by
  obtain ⟨hi, rfl⟩ := List.getElem?_eq_some_iff.1 h
  have hbyte : ∀ k < 4, patch m a (ws.flatMap fun w : Nat => le32 w) (a + 4 * i + k) = (le32 ws[i]).getD k 0 := by
    intro k hk
    rw [patch_of_mem (by omega) (by rw [length_words]; omega), Nat.add_assoc, Nat.add_sub_cancel_left, getD_words hi hk]
  have h0 := hbyte 0 (by omega)
  rw [Nat.add_zero] at h0
  unfold load
  rw [h0, hbyte 1 (by omega), hbyte 2 (by omega), hbyte 3 (by omega)]
  have hmod : ((ws[i] : Int) % 2 ^ 32).toNat = ws[i] := by omega
  simp only [le32, hmod, List.getD_cons_zero, List.getD_cons_succ, UInt8.toNat_ofNat']
  omega

end Ostep
