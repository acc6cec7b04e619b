import Mathlib.Algebra.BigOperators.Group.List.Basic
import Mathlib.Algebra.Order.Ring.Int
import Mathlib.Tactic.Common

/-!
# Lists of extents

An extent is a range of addresses. A list is `Gapped` when its extents ascend and no two of them touch. `join e l` puts an extent in
front of the list and unites it with the first one when they touch, so that a gapped list stays gapped.
-/

namespace Ostep

structure Extent where
  start : Nat
  len : Nat
deriving DecidableEq

namespace Extent

def stop (e : Extent) : Nat := e.start + e.len

def Apart (e f : Extent) : Prop := e.stop ≤ f.start ∨ f.stop ≤ e.start

variable {e f x : Extent} {l l₁ l₂ : List Extent}

theorem Apart.symm (h : Apart e f) : Apart f e := Or.symm h

instance : Std.Symm Apart := ⟨fun _ _ => Apart.symm⟩

theorem Apart.mono (h : Apart x e) (hstart : e.start ≤ f.start) (hstop : f.stop ≤ e.stop) : Apart x f := by
  unfold Apart at *
  omega

def Gapped (l : List Extent) : Prop := l.Pairwise fun e f => e.stop < f.start

def join (e : Extent) : List Extent → List Extent
  | [] => [e]
  | f :: l => if e.stop = f.start then ⟨e.start, e.len + f.len⟩ :: l else e :: f :: l

theorem join_cases (e : Extent) (l : List Extent) : join e l = e :: l ∨
    ∃ f l', l = f :: l' ∧ e.stop = f.start ∧ join e l = ⟨e.start, e.len + f.len⟩ :: l' := by
  cases l with
  | nil => exact .inl rfl
  | cons f l =>
    by_cases h : e.stop = f.start
    · exact .inr ⟨f, l, rfl, h, if_pos h⟩
    · exact .inl (if_neg h)

theorem sum_join (e : Extent) (l : List Extent) : ((join e l).map len).sum = e.len + (l.map len).sum := by
  rcases join_cases e l with h | ⟨f, l', rfl, -, h⟩
  · rw [h, List.map_cons, List.sum_cons]
  · rw [h, List.map_cons, List.map_cons, List.sum_cons, List.sum_cons, Nat.add_assoc]

theorem join_eq_cons (e : Extent) (l : List Extent) : ∃ f l', join e l = f :: l' ∧ f.start = e.start ∧ e.len ≤ f.len := by
  rcases join_cases e l with h | ⟨f, l', -, -, h⟩
  · exact ⟨e, l, h, rfl, Nat.le_refl _⟩
  · exact ⟨_, l', h, rfl, Nat.le_add_right _ _⟩

theorem exists_le_join (e : Extent) (hf : f ∈ l) : ∃ g ∈ join e l, f.len ≤ g.len := by
  rcases join_cases e l with h | ⟨f', l', rfl, -, h⟩ <;> rw [h]
  · exact ⟨f, List.mem_cons_of_mem _ hf, Nat.le_refl _⟩
  · rcases List.mem_cons.1 hf with rfl | hf
    · exact ⟨_, List.mem_cons_self, Nat.le_add_left _ _⟩
    · exact ⟨f, List.mem_cons_of_mem _ hf, Nat.le_refl _⟩

theorem forall_join {P : Extent → Prop} (he : P e) (hl : ∀ f ∈ l, P f) (hunite : ∀ f ∈ l, e.stop = f.start → P ⟨e.start, e.len + f.len⟩) :
    ∀ f ∈ join e l, P f := by
  intro f hf
  rcases join_cases e l with heq | ⟨g, l', rfl, hg, heq⟩ <;> rw [heq] at hf <;> rcases List.mem_cons.1 hf with rfl | hf
  · exact he
  · exact hl f hf
  · exact hunite g List.mem_cons_self hg
  · exact hl f (List.mem_cons_of_mem _ hf)

theorem mem_join (h : f ∈ join e l) : f.start = e.start ∨ f ∈ l := by
  rcases join_cases e l with heq | ⟨g, l', rfl, -, heq⟩ <;> rw [heq] at h <;> rcases List.mem_cons.1 h with rfl | h
  · exact .inl rfl
  · exact .inr h
  · exact .inl rfl
  · exact .inr (List.mem_cons_of_mem _ h)

theorem Gapped.join (h : Gapped l) (he : ∀ f ∈ l, e.stop ≤ f.start) : Gapped (join e l) := by
  rcases join_cases e l with heq | ⟨f, l', rfl, hf, heq⟩ <;> rw [heq]
  · refine List.pairwise_cons.2 ⟨fun f hf => ?_, h⟩
    cases l with
    | nil => cases hf
    | cons g l =>
      -- only the first one could touch
      have hne : e.stop ≠ g.start := by
        intro htouch
        rw [Extent.join, if_pos htouch] at heq
        have := congrArg List.length heq
        simp only [List.length_cons] at this
        omega
      have hg := he g List.mem_cons_self
      rcases List.mem_cons.1 hf with rfl | hf
      · omega
      · have := (List.pairwise_cons.1 h).1 f hf
        have : g.start ≤ g.stop := Nat.le_add_right _ _
        omega
  · obtain ⟨hf', h⟩ := List.pairwise_cons.1 h
    refine List.pairwise_cons.2 ⟨fun g hg => ?_, h⟩
    have := hf' g hg
    unfold stop at *
    dsimp only
    omega

theorem apart_join (hx : 0 < x.len) (he : Apart x e) (hl : ∀ f ∈ l, Apart x f) : ∀ f ∈ join e l, Apart x f := by
  refine forall_join he hl fun f hf htouch => ?_
  have := hl f hf
  unfold Apart stop at *
  dsimp only
  omega

theorem exists_split {v : Nat} (hx : ∃ x ∈ l, x.start < v) (hne : ∀ f ∈ l, f.start ≠ v) :
    ∃ l₁ p l₂, l = l₁ ++ p :: l₂ ∧ p.start < v ∧ ∀ f ∈ l₂, v < f.start := by
  induction l with
  | nil =>
    obtain ⟨x, hx, -⟩ := hx
    cases hx
  | cons a l ih =>
    have hne' : ∀ f ∈ l, f.start ≠ v := fun f hf => hne f (List.mem_cons_of_mem _ hf)
    by_cases hmore : ∃ y ∈ l, y.start < v
    · obtain ⟨l₁, p, l₂, rfl, hp, hl₂⟩ := ih hmore hne'
      exact ⟨a :: l₁, p, l₂, rfl, hp, hl₂⟩
    · have hge : ∀ f ∈ l, v < f.start := fun f hf =>
        Nat.lt_of_le_of_ne (Nat.not_lt.1 fun hlt => hmore ⟨f, hf, hlt⟩) (hne' f hf).symm
      obtain ⟨x, hx, hlt⟩ := hx
      rcases List.mem_cons.1 hx with rfl | hx
      · exact ⟨[], x, l, rfl, hlt, hge⟩
      · exact absurd ⟨x, hx, hlt⟩ hmore

/-- An extent is put behind `e₀` and united with what it touches on both sides. -/
theorem Gapped.insert {e₀ : Extent} (h : Gapped (l₁ ++ e₀ :: l₂)) (h₀ : e₀.stop ≤ e.start) (he : ∀ f ∈ l₂, e.stop ≤ f.start) :
    Gapped (l₁ ++ Extent.join e₀ (Extent.join e l₂)) := by
  obtain ⟨h₁, h₂, h₁₂⟩ := List.pairwise_append.1 h
  have hle : e.start ≤ e.stop := Nat.le_add_right _ _
  have hle₀ : e₀.start ≤ e₀.stop := Nat.le_add_right _ _
  have hstart : ∀ f ∈ Extent.join e l₂, e.start ≤ f.start := by
    intro f hf
    rcases mem_join hf with heq | hf
    · exact Nat.le_of_eq heq.symm
    · exact Nat.le_trans hle (he f hf)
  have hgap : Gapped l₂ := (List.pairwise_cons.1 h₂).2
  refine List.pairwise_append.2 ⟨h₁, (hgap.join he).join fun f hf => Nat.le_trans h₀ (hstart f hf), fun a ha f hf => ?_⟩
  have ha₀ := h₁₂ a ha e₀ List.mem_cons_self
  rcases mem_join hf with heq | hf
  · exact heq ▸ ha₀
  · have := hstart f hf
    omega

end Extent

end Ostep
