import Mathlib.Algebra.Order.Ring.Int
import Mathlib.Logic.Function.Basic
import Mathlib.Tactic.Common

/-!
# The two `memmove`s (`string.c`, `ulib.c`)

Memory is a function from addresses to bytes, and pointers are numbers modulo 2^32. The one of the kernel copies from the end when the
destination begins inside the source, the one of the user library always from the start. A copy from the start that runs into its own
output repeats the bytes in front of it (`copyUp_eq`).
-/

namespace Ostep.Xv6.Memory

def ptrAdd (p k : Nat) : Nat := (p + k) % 2 ^ 32

def ptrPred (p : Nat) : Nat := (p + (2 ^ 32 - 1)) % 2 ^ 32

/-- `*d++ = *s++`, `n` times. -/
def copyUp : Nat → Nat → Nat → (Nat → UInt8) → Nat → UInt8
  | 0, _, _, m => m
  | n + 1, d, s, m => copyUp n (ptrAdd d 1) (ptrAdd s 1) (Function.update m d (m s))

/-- `*--d = *--s`, `n` times. -/
def copyDown : Nat → Nat → Nat → (Nat → UInt8) → Nat → UInt8
  | 0, _, _, m => m
  | n + 1, d, s, m => copyDown n (ptrPred d) (ptrPred s) (Function.update m (ptrPred d) (m (ptrPred s)))

/-- `memmove` of the kernel; `n` is a `uint`. -/
def memmove (dst src n : Nat) (m : Nat → UInt8) : Nat → UInt8 :=
  if src < dst ∧ ptrAdd src n > dst then copyDown n (ptrAdd dst n) (ptrAdd src n) m
  else copyUp n dst src m

/-- `memmove` of the user library; `n` is an `int`. -/
def userMemmove (dst src : Nat) (n : Int) (m : Nat → UInt8) : Nat → UInt8 := copyUp n.toNat dst src m

/-- The original bytes of the source in the destination. -/
def moved (dst src n : Nat) (m : Nat → UInt8) : Nat → UInt8 :=
  fun a => if dst ≤ a ∧ a < dst + n then m (src + (a - dst)) else m a

variable {dst src d s n : Nat} {m : Nat → UInt8}

/-! ### The two loops -/

theorem ptrAdd_of_lt {p k : Nat} (h : p + k < 2 ^ 32) : ptrAdd p k = p + k := Nat.mod_eq_of_lt h

/-- Where a copy from the start finds byte `j`. -/
def upSource (d s j : Nat) : Nat := if s < d then s + j % (d - s) else s + j

theorem upSource_zero (d s : Nat) : upSource d s 0 = s := by
  unfold upSource
  split <;> simp

theorem upSource_succ (d s j : Nat) :
    upSource d s (j + 1) = if upSource (d + 1) (s + 1) j = d then s else upSource (d + 1) (s + 1) j := by
  unfold upSource
  rw [Nat.add_sub_add_right]
  by_cases h : s < d
  · obtain ⟨k, rfl⟩ : ∃ k, d = s + (k + 1) := ⟨d - s - 1, by omega⟩
    rw [if_pos h, if_pos (Nat.succ_lt_succ h), Nat.add_sub_cancel_left, ← Nat.mod_add_mod]
    have hlt : j % (k + 1) < k + 1 := Nat.mod_lt j (Nat.succ_pos k)
    by_cases hlast : j % (k + 1) = k
    · rw [hlast, Nat.mod_self, if_pos (by omega), Nat.add_zero]
    · rw [Nat.mod_eq_of_lt (by omega), if_neg (by omega), Nat.add_assoc, Nat.add_comm 1]
  · rw [if_neg h, if_neg (fun h' => h (Nat.lt_of_succ_lt_succ h')), if_neg (by omega), Nat.add_assoc, Nat.add_comm 1]

/-- A copy from the start onto a later part of the source repeats the bytes between the two. -/
theorem copyUp_eq (hd : d + n ≤ 2 ^ 32) (hs : s + n ≤ 2 ^ 32) (m : Nat → UInt8) (a : Nat) :
    copyUp n d s m a = if d ≤ a ∧ a < d + n then m (upSource d s (a - d)) else m a := by
  induction n generalizing d s m with
  | zero => exact (if_neg (by omega)).symm
  | succ n ih =>
    have hrest : copyUp n (ptrAdd d 1) (ptrAdd s 1) (Function.update m d (m s)) a =
        if d + 1 ≤ a ∧ a < d + 1 + n then Function.update m d (m s) (upSource (d + 1) (s + 1) (a - (d + 1)))
        else Function.update m d (m s) a := by
      rcases Nat.eq_zero_or_pos n with rfl | hn
      · exact (if_neg (by omega)).symm
      · rw [ptrAdd_of_lt (by omega), ptrAdd_of_lt (by omega)]
        exact ih (by omega) (by omega) _
    rw [copyUp, hrest]
    by_cases ha : d + 1 ≤ a ∧ a < d + 1 + n
    · obtain ⟨j, rfl⟩ : ∃ j, a = d + (j + 1) := ⟨a - d - 1, by omega⟩
      rw [if_pos ha, if_pos (by omega), Nat.add_sub_cancel_left, show d + (j + 1) - (d + 1) = j by omega, upSource_succ,
        Function.update_apply, apply_ite m]
    · rw [if_neg ha, Function.update_apply]
      by_cases hda : a = d
      · rw [if_pos hda, if_pos (by omega), hda, Nat.sub_self, upSource_zero]
      · rw [if_neg hda, if_neg (by omega)]

theorem copyDown_eq (hd : d + n ≤ 2 ^ 32) (hlt : s ≤ d) (m : Nat → UInt8) :
    copyDown n (ptrAdd d n) (ptrAdd s n) m = moved d s n m := by
  induction n generalizing m with
  | zero =>
    funext a
    exact (if_neg (by omega)).symm
  | succ n ih =>
    have hpred : ∀ {p}, p ≤ d → ptrPred (ptrAdd p (n + 1)) = ptrAdd p n ∧ ptrAdd p n = p + n := by
      intro p hp
      unfold ptrPred ptrAdd
      omega
    rw [copyDown, (hpred hlt).1, (hpred (Nat.le_refl d)).1, ih (by omega), (hpred hlt).2, (hpred (Nat.le_refl d)).2]
    funext a
    unfold moved
    by_cases ha : d ≤ a ∧ a < d + n
    · rw [if_pos ha, if_pos (by omega), Function.update_of_ne (by omega)]
    · rw [if_neg ha, Function.update_apply]
      by_cases hlast : a = d + n
      · rw [if_pos hlast, if_pos (by omega), hlast, Nat.add_sub_cancel_left]
      · rw [if_neg hlast, if_neg (by omega)]

/-! ### Both functions -/

theorem copyUp_eq_moved (hd : d + n ≤ 2 ^ 32) (hs : s + n ≤ 2 ^ 32) (h : s < d → s + n ≤ d) : copyUp n d s m = moved d s n m := by
  funext a
  rw [copyUp_eq hd hs, moved]
  by_cases ha : d ≤ a ∧ a < d + n
  · rw [if_pos ha, if_pos ha, upSource]
    split
    · next hlt =>
      have hfar := h hlt
      rw [Nat.mod_eq_of_lt (by omega)]
    · rfl
  · rw [if_neg ha, if_neg ha]

theorem memmove_eq (hd : dst + n ≤ 2 ^ 32) (hs : src + n ≤ 2 ^ 32) : memmove dst src n m = moved dst src n m := by
  rw [memmove]
  split
  · next h => exact copyDown_eq hd (Nat.le_of_lt h.1) m
  · next h =>
    refine copyUp_eq_moved hd hs fun hlt => ?_
    rw [ptrAdd_of_lt (by omega)] at h
    omega

/-- The source repeats the bytes in front of a destination that begins inside it. -/
def Repeats (dst src n : Nat) (m : Nat → UInt8) : Prop :=
  src < dst → dst < src + n → ∀ j < n, m (src + j % (dst - src)) = m (src + j)

/-- The user library moves bytes as the kernel does, unless the destination begins inside the source and the source does not happen to
repeat what lies in front of the destination. -/
theorem userMemmove_eq_iff (m : Nat → UInt8) (hd : dst + n ≤ 2 ^ 32) (hs : src + n ≤ 2 ^ 32) :
    memmove dst src n m = moved dst src n m ∧
      (userMemmove dst src n m = memmove dst src n m ∧ userMemmove dst src n m = moved dst src n m ↔ Repeats dst src n m) := by
  have hkernel : memmove dst src n m = moved dst src n m := memmove_eq hd hs
  refine ⟨hkernel, ?_⟩
  rw [hkernel, and_self, userMemmove, Int.toNat_natCast]
  constructor
  · intro h hlt hin j hj
    have hbyte := congrFun h (dst + j)
    rw [copyUp_eq hd hs, moved, if_pos (by omega), if_pos (by omega), Nat.add_sub_cancel_left, upSource, if_pos hlt] at hbyte
    exact hbyte
  · intro h
    by_cases hover : src < dst ∧ dst < src + n
    · funext a
      rw [copyUp_eq hd hs, moved]
      by_cases ha : dst ≤ a ∧ a < dst + n
      · rw [if_pos ha, if_pos ha, upSource, if_pos hover.1]
        exact h hover.1 hover.2 _ (by omega)
      · rw [if_neg ha, if_neg ha]
    · exact copyUp_eq_moved hd hs (by omega)

def abc (a : Nat) : UInt8 := if a = 4096 then 97 else if a = 4097 then 98 else if a = 4098 then 99 else 0

/-- Moving the first two of them up by one. -/
theorem userMemmove_abc : userMemmove 4097 4096 2 abc 4098 = 97 ∧ memmove 4097 4096 2 abc 4098 = 98 ∧ moved 4097 4096 2 abc 4098 = 98 ∧
    userMemmove 4097 4096 2 abc ≠ memmove 4097 4096 2 abc :=
  ⟨by decide, by decide, by decide, fun h => absurd (congrFun h 4098) (by decide)⟩

/-- Down it works. -/
theorem userMemmove_eq_iff_abc : userMemmove 4096 4097 2 abc = moved 4096 4097 2 abc :=
  ((userMemmove_eq_iff abc (by decide) (by decide)).2.2 (fun h => absurd h (by decide))).2

end Ostep.Xv6.Memory
