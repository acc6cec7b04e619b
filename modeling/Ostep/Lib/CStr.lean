import Mathlib.Algebra.Order.Ring.Int
import Mathlib.Tactic.Common

/-!
# C strings

A C string is the list of its bytes before the terminating NUL. `strcmp` is the difference of the first bytes,
as `unsigned char`s, in which two strings differ; on strings it is a strict total order.
-/

namespace Ostep

structure CStr where
  bytes : List UInt8
  noNul : 0 ∉ bytes
deriving DecidableEq

/-- `strcmp` from two positions on; the end of a string reads as NUL. -/
def strcmpFrom : List UInt8 → List UInt8 → Int
  | [], [] => 0
  | [], b :: _ => 0 - (b.toNat : Int)
  | a :: _, [] => (a.toNat : Int) - 0
  | a :: s, b :: t => if a = b then strcmpFrom s t else (a.toNat : Int) - b.toNat

def strcmp (s t : CStr) : Int := strcmpFrom s.bytes t.bytes

theorem strcmpFrom_neg (s t : List UInt8) : strcmpFrom s t = -strcmpFrom t s := by
  induction s generalizing t with
  | nil => cases t <;> simp [strcmpFrom]
  | cons a s ih =>
    cases t with
    | nil => simp [strcmpFrom]
    | cons b t =>
      simp only [strcmpFrom]
      by_cases h : a = b
      · rw [if_pos h, if_pos h.symm, ih]
      · rw [if_neg h, if_neg (Ne.symm h)]
        omega

theorem toNat_pos_of_ne_nul {a : UInt8} (h : a ≠ 0) : 0 < a.toNat := by
  refine Nat.pos_of_ne_zero fun h0 => h ?_
  exact UInt8.toNat_inj.1 h0

theorem toNat_ne_of_byte_ne {a b : UInt8} (h : a ≠ b) : a.toNat ≠ b.toNat := fun he => h (UInt8.toNat_inj.1 he)

theorem strcmpFrom_eq_zero {s t : List UInt8} (hs : 0 ∉ s) (ht : 0 ∉ t) : strcmpFrom s t = 0 ↔ s = t := by
  induction s generalizing t with
  | nil =>
    cases t with
    | nil => simp [strcmpFrom]
    | cons b t =>
      have := toNat_pos_of_ne_nul (List.ne_of_not_mem_cons ht).symm
      refine iff_of_false ?_ nofun
      rw [strcmpFrom]
      omega
  | cons a s ih =>
    cases t with
    | nil =>
      have := toNat_pos_of_ne_nul (List.ne_of_not_mem_cons hs).symm
      refine iff_of_false ?_ nofun
      rw [strcmpFrom]
      omega
    | cons b t =>
      rw [strcmpFrom]
      by_cases h : a = b
      · rw [if_pos h, ih (List.not_mem_of_not_mem_cons hs) (List.not_mem_of_not_mem_cons ht), h]
        simp
      · have := toNat_ne_of_byte_ne h
        rw [if_neg h]
        refine iff_of_false (by omega) fun he => h (List.cons.inj he).1

theorem strcmpFrom_trans {s t u : List UInt8} (hu : 0 ∉ u) (h : strcmpFrom s t < 0) (h' : strcmpFrom t u < 0) :
    strcmpFrom s u < 0 := by
  induction s generalizing t u with
  | nil =>
    cases u with
    | nil => cases t <;> simp only [strcmpFrom] at h h' <;> omega
    | cons c u =>
      have := toNat_pos_of_ne_nul (List.ne_of_not_mem_cons hu).symm
      rw [strcmpFrom]
      omega
  | cons a s ih =>
    cases t with
    | nil => simp only [strcmpFrom] at h; omega
    | cons b t =>
      cases u with
      | nil => simp only [strcmpFrom] at h'; omega
      | cons c u =>
        simp only [strcmpFrom] at h h' ⊢
        by_cases hab : a = b
        · subst hab
          rw [if_pos rfl] at h
          by_cases hbc : a = c
          · rw [if_pos hbc] at h' ⊢
            exact ih (List.not_mem_of_not_mem_cons hu) h h'
          · rw [if_neg hbc] at h' ⊢
            exact h'
        · rw [if_neg hab] at h
          by_cases hbc : b = c
          · subst hbc
            rw [if_neg hab]
            exact h
          · rw [if_neg hbc] at h'
            rw [if_neg]
            · omega
            · rintro rfl
              omega

section
variable {s t u : CStr}

theorem strcmp_neg (s t : CStr) : strcmp s t = -strcmp t s := strcmpFrom_neg s.bytes t.bytes

@[simp] theorem strcmp_eq_zero : strcmp s t = 0 ↔ s = t := by
  rw [strcmp, strcmpFrom_eq_zero s.noNul t.noNul, CStr.mk.injEq]

theorem strcmp_trans (h : strcmp s t < 0) (h' : strcmp t u < 0) : strcmp s u < 0 := strcmpFrom_trans u.noNul h h'

end

/-- In strictly ascending order of `strcmp`. -/
def Ascending (l : List CStr) : Prop := l.Pairwise fun s t => strcmp s t < 0

theorem Ascending.nodup {l : List CStr} (h : Ascending l) : l.Nodup := by
  refine h.imp fun {s t} hlt he => ?_
  rw [strcmp_eq_zero.2 he] at hlt
  omega

theorem Ascending.insert {l₁ l₂ : List CStr} {s : CStr} (h : Ascending (l₁ ++ l₂)) (h₁ : ∀ t ∈ l₁, strcmp t s < 0)
    (h₂ : ∀ t ∈ l₂, strcmp s t < 0) : Ascending (l₁ ++ s :: l₂) := by
  obtain ⟨ha₁, ha₂, hcross⟩ := List.pairwise_append.1 h
  refine List.pairwise_append.2 ⟨ha₁, List.pairwise_cons.2 ⟨h₂, ha₂⟩, fun t ht u hu => ?_⟩
  rcases List.mem_cons.1 hu with rfl | hu
  · exact h₁ t ht
  · exact hcross t ht u hu

end Ostep
