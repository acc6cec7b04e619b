import Mathlib.Algebra.Order.Ring.Int
import Mathlib.Tactic.Common

/-!
# C integers and how a C program ends

`int` values are `Int`s kept in range by the operations: `incInt` and `addInt` stop with `undefined`
on signed overflow, `toInt32` and `toUint32` are the conversions between `int` and `uint`. `le32` is the
little-endian image of an `int` in memory and `ofLe32` reads one back.
-/

namespace Ostep

/-- How a program stops before the end of `main`: `exit(status)` with what it has written so far, or
an operation that the language leaves undefined. -/
inductive Stop where
  | exit (out : List UInt8) (status : Nat)
  | undefined
deriving DecidableEq, Repr

section
universe u v
variable {ε : Type v} {α β : Type u}

@[simp] theorem ok_bind (a : α) (f : α → Except ε β) : (Except.ok a >>= f) = f a := rfl

@[simp] theorem error_bind (e : ε) (f : α → Except ε β) : (Except.error e >>= f) = .error e := rfl

theorem bind_ok {x : Except ε α} {f : α → Except ε β} {b : β} (h : (x >>= f) = .ok b) :
    ∃ a, x = .ok a ∧ f a = .ok b := by
  cases x with
  | error e => cases h
  | ok a => exact ⟨a, rfl, h⟩

end

/-- A loop that may stop, followed step by step by one that does not: the two stay related, or the
first has stopped and the second has gone bad for good. -/
theorem foldlM_sim {σ ρ τ : Type*} {f : σ → τ → Except Stop σ} {g : ρ → τ → ρ} {R : σ → ρ → Prop}
    {B : ρ → Prop} (hbad : ∀ r t, B r → B (g r t))
    (l : List τ) (hstep : ∀ s r, ∀ t ∈ l, R s r →
      (∃ s', f s t = .ok s' ∧ R s' (g r t)) ∨ (f s t = .error .undefined ∧ B (g r t)))
    {s : σ} {r : ρ} (h : R s r) :
    (∃ s', l.foldlM f s = .ok s' ∧ R s' (l.foldl g r)) ∨
      (l.foldlM f s = .error .undefined ∧ B (l.foldl g r)) := by
  induction l generalizing s r with
  | nil => exact .inl ⟨s, rfl, h⟩
  | cons t l ih =>
    rw [List.foldlM_cons, List.foldl_cons]
    rcases hstep s r t (by simp) h with ⟨s', hs', h'⟩ | ⟨hs', hb⟩
    · rw [hs', ok_bind]
      exact ih (fun s r u hu => hstep s r u (by simp [hu])) h'
    · exact .inr ⟨by rw [hs', error_bind], List.foldlRecOn l g hb fun r hr t _ => hbad r t hr⟩

def ascii (s : String) : List UInt8 := s.toUTF8.toList

def INT_MAX : Int := 2147483647

def incInt (n : Int) : Except Stop Int := if n < INT_MAX then .ok (n + 1) else .error .undefined

def addInt (m n : Int) : Except Stop Int :=
  if -INT_MAX - 1 ≤ m + n ∧ m + n ≤ INT_MAX then .ok (m + n) else .error .undefined

def toInt32 (n : Nat) : Int :=
  if n % 2 ^ 32 < 2 ^ 31 then (n % 2 ^ 32 : Nat) else (n % 2 ^ 32 : Nat) - 2 ^ 32

theorem toInt32_of_lt {n : Nat} (h : n < 2 ^ 31) : toInt32 n = n := by
  unfold toInt32; split <;> omega

theorem toNat_toInt32_le (n : Nat) : (toInt32 n).toNat ≤ n := by
  unfold toInt32; split <;> omega

theorem toNat_toInt32_lt {n : Nat} (h : 2 ^ 31 ≤ n) : (toInt32 n).toNat < n := by
  unfold toInt32; split <;> omega

theorem toNat_toInt32_eq_iff (n : Nat) : (toInt32 n).toNat = n ↔ n < 2 ^ 31 := by
  constructor
  · intro h
    by_contra hn
    have := toNat_toInt32_lt (Nat.not_lt.1 hn)
    omega
  · intro h
    rw [toInt32_of_lt h]; simp

def toUint32 (n : Int) : Nat := (n % 2 ^ 32).toNat

theorem toUint32_lt (n : Int) : toUint32 n < 2 ^ 32 := by
  unfold toUint32
  omega

theorem toInt32_toUint32 {n : Int} (hlo : -2 ^ 31 ≤ n) (hhi : n < 2 ^ 31) : toInt32 (toUint32 n) = n := by
  unfold toInt32 toUint32
  split <;> omega

/-- The four bytes of an `int`, lowest first. -/
def le32 (n : Int) : List UInt8 :=
  let m := (n % 2 ^ 32).toNat
  [UInt8.ofNat m, UInt8.ofNat (m / 2 ^ 8), UInt8.ofNat (m / 2 ^ 16), UInt8.ofNat (m / 2 ^ 24)]

/-- The `int` stored in four bytes, lowest first. -/
def ofLe32 (b₀ b₁ b₂ b₃ : UInt8) : Int :=
  toInt32 (b₀.toNat + 2 ^ 8 * b₁.toNat + 2 ^ 16 * b₂.toNat + 2 ^ 24 * b₃.toNat)

@[simp] theorem length_le32 (n : Int) : (le32 n).length = 4 := rfl

theorem le32_eq (n : Int) : ∃ b₀ b₁ b₂ b₃, le32 n = [b₀, b₁, b₂, b₃] ∧
    ofLe32 b₀ b₁ b₂ b₃ = toInt32 (n % 2 ^ 32).toNat := by
  refine ⟨_, _, _, _, rfl, ?_⟩
  have h : (n % 2 ^ 32).toNat < 2 ^ 32 := by omega
  simp only [ofLe32, UInt8.toNat_ofNat']
  congr 1
  omega

theorem ofLe32_le32 {n : Nat} (h : n < 2 ^ 31) :
    ∃ b₀ b₁ b₂ b₃, le32 n = [b₀, b₁, b₂, b₃] ∧ ofLe32 b₀ b₁ b₂ b₃ = n := by
  obtain ⟨b₀, b₁, b₂, b₃, hb, hv⟩ := le32_eq n
  refine ⟨b₀, b₁, b₂, b₃, hb, ?_⟩
  have hm : ((n : Int) % 2 ^ 32).toNat = n := by omega
  rw [hv, hm, toInt32_of_lt h]

/-- A (signed) `char` promoted to `int`. -/
def charInt (c : UInt8) : Int := if c.toNat < 128 then c.toNat else c.toNat - 256

def lowByte (n : Int) : UInt8 := UInt8.ofNat (n % 256).toNat

@[simp] theorem lowByte_charInt (c : UInt8) : lowByte (charInt c) = c := by
  have hc : c.toNat < 256 := c.toNat_lt
  have h : (charInt c % 256).toNat = c.toNat := by
    unfold charInt; split <;> omega
  rw [lowByte, h, UInt8.ofNat_toNat]

theorem charInt_injective {c d : UInt8} (h : charInt c = charInt d) : c = d := by
  rw [← lowByte_charInt c, h, lowByte_charInt]

end Ostep
