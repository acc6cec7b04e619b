import Mathlib.Tactic.Common

/-!
# Counted loops that may stop

`forUpTo n f s` is `for (i = 0; i < n; i++)` with a body that may leave the loop with an error. `forUpTo_ok` is the rule for a
loop that runs to its end, `forUpTo_inv` the one for a loop that is known to have done so, and `forUpTo_ok_iff` says when it does.
`forUpTo_foldlM` flattens nested loops into one pass over the list of what they visit; errors are mapped to what matters of them.

`Guarded bad rej l` says that in `l` everything bad comes after something that is rejected. A pass over `l` that stops at the
first thing it rejects then never gets to anything bad (`foldlM_guarded_iff`).
-/

namespace Ostep

variable {ε σ : Type*}

def forUpTo : Nat → (Nat → σ → Except ε σ) → σ → Except ε σ
  | 0, _, s => .ok s
  | n + 1, f, s => forUpTo n f s >>= f n

variable {n : Nat} {f : Nat → σ → Except ε σ} {s t : σ}

@[simp] theorem forUpTo_zero : forUpTo 0 f s = .ok s := rfl

theorem forUpTo_succ : forUpTo (n + 1) f s = forUpTo n f s >>= f n := rfl

theorem forUpTo_ok {I : Nat → σ → Prop} (hstep : ∀ i < n, ∀ s, I i s → ∃ s', f i s = .ok s' ∧ I (i + 1) s') (h : I 0 s) :
    ∃ s', forUpTo n f s = .ok s' ∧ I n s' := by
  induction n with
  | zero => exact ⟨s, rfl, h⟩
  | succ n ih =>
    obtain ⟨s₁, hs₁, h₁⟩ := ih fun i hi => hstep i (by omega)
    obtain ⟨s₂, hs₂, h₂⟩ := hstep n (by omega) s₁ h₁
    exact ⟨s₂, by rw [forUpTo_succ, hs₁]; exact hs₂, h₂⟩

theorem forUpTo_inv {I : Nat → σ → Prop} (hstep : ∀ i < n, ∀ s s', I i s → f i s = .ok s' → I (i + 1) s') (h : I 0 s)
    (ht : forUpTo n f s = .ok t) : I n t := by
  induction n generalizing t with
  | zero => cases ht; exact h
  | succ n ih =>
    rw [forUpTo_succ] at ht
    cases hs : forUpTo n f s with
    | error e => rw [hs] at ht; cases ht
    | ok s₁ =>
      rw [hs] at ht
      exact hstep n (by omega) s₁ t (ih (fun i hi => hstep i (by omega)) hs) ht

/-! ### Loops as passes over a list -/

section
universe u v w
variable {ε : Type v} {ε' : Type w} {α β : Type u} (φ : ε → ε')

@[simp] theorem mapError_ok (a : α) : (Except.ok a : Except ε α).mapError φ = .ok a := rfl

@[simp] theorem mapError_error (e : ε) : (Except.error e : Except ε α).mapError φ = .error (φ e) := rfl

theorem mapError_bind (x : Except ε α) (f : α → Except ε β) : (x >>= f).mapError φ = x.mapError φ >>= fun a => (f a).mapError φ := by
  cases x <;> rfl

theorem mapError_eq_ok {x : Except ε α} {a : α} : x.mapError φ = .ok a ↔ x = .ok a := by
  cases x <;> simp

theorem bind_mapError_ok {φ : ε → ε'} {x : Except ε α} {f : α → Except ε' β} {b : β} (h : (x.mapError φ >>= f) = .ok b) :
    ∃ a, x = .ok a ∧ f a = .ok b := by
  cases x with
  | error e => cases h
  | ok a => exact ⟨a, rfl, h⟩

end

theorem forUpTo_foldlM {ε' τ : Type*} {φ : ε → ε'} {g : σ → τ → Except ε' σ} {l : Nat → List τ}
    (h : ∀ i < n, ∀ s, (f i s).mapError φ = (l i).foldlM g s) :
    (forUpTo n f s).mapError φ = ((List.range n).flatMap l).foldlM g s := by
  induction n with
  | zero => rfl
  | succ n ih =>
    rw [forUpTo_succ, mapError_bind, ih fun i hi => h i (by omega), List.range_succ, List.flatMap_append, List.foldlM_append]
    congr 1
    funext s
    rw [h n (by omega), List.flatMap_singleton]

section
variable {τ : Type*} {bad rej : τ → Prop}

def Guarded (bad rej : τ → Prop) (l : List τ) : Prop := ∀ l₁ e l₂, l = l₁ ++ e :: l₂ → bad e → ∃ e' ∈ l₁, rej e'

theorem guarded_cons {e : τ} {l : List τ} : Guarded bad rej (e :: l) ↔ ¬ bad e ∧ (rej e ∨ Guarded bad rej l) := by
  constructor
  · intro h
    have he : ¬ bad e := fun hb => by
      obtain ⟨e', he', -⟩ := h [] e l rfl hb
      cases he'
    refine ⟨he, ?_⟩
    by_cases hr : rej e
    · exact .inl hr
    · refine .inr fun l₁ x l₂ hl hx => ?_
      obtain ⟨e', he', hr'⟩ := h (e :: l₁) x l₂ (by rw [hl]; rfl) hx
      rcases List.mem_cons.1 he' with rfl | he'
      · exact absurd hr' hr
      · exact ⟨e', he', hr'⟩
  · rintro ⟨he, h⟩ l₁ x l₂ hl hx
    rcases l₁ with _ | ⟨y, l₁⟩
    · cases hl
      exact absurd hx he
    · cases hl
      rcases h with hr | h
      · exact ⟨e, by simp, hr⟩
      · obtain ⟨e', he', hr'⟩ := h l₁ x l₂ rfl hx
        exact ⟨e', by simp [he'], hr'⟩

instance [DecidablePred bad] [DecidablePred rej] : DecidablePred (Guarded bad rej)
  | [] => .isTrue fun l₁ e l₂ h => by cases l₁ <;> cases h
  | e :: l =>
    have := instDecidablePredListGuarded l
    decidable_of_iff _ guarded_cons.symm

/-- A pass that stops with `true` at something bad and with `false` at something that is rejected. -/
structure Classifies (f : σ → τ → Except Bool σ) (bad rej : τ → Prop) : Prop where
  of_bad : ∀ (s : σ) {e : τ}, bad e → f s e = .error true
  of_rej : ∀ (s : σ) {e : τ}, ¬ bad e → rej e → f s e = .error false
  of_ok : ∀ (s : σ) {e : τ}, ¬ bad e → ¬ rej e → ∃ s', f s e = .ok s'

theorem foldlM_guarded_iff {f : σ → τ → Except Bool σ} (hf : Classifies f bad rej) {l : List τ} {s : σ} :
    l.foldlM f s ≠ .error true ↔ Guarded bad rej l := by
  induction l generalizing s with
  | nil => exact iff_of_true nofun fun l₁ e l₂ h => by cases l₁ <;> cases h
  | cons e l ih =>
    rw [guarded_cons, List.foldlM_cons]
    by_cases hb : bad e
    · rw [hf.of_bad s hb]
      exact iff_of_false (fun h => h rfl) fun h => h.1 hb
    · by_cases hr : rej e
      · rw [hf.of_rej s hb hr]
        exact iff_of_true nofun ⟨hb, .inl hr⟩
      · obtain ⟨s', hs'⟩ := hf.of_ok s hb hr
        rw [hs']
        have := ih (s := s')
        tauto

theorem not_guarded {l : List τ} (hrej : ∀ e ∈ l, ¬ bad e → ¬ rej e) (hbad : ∃ e ∈ l, bad e) : ¬ Guarded bad rej l := by
  induction l with
  | nil =>
    obtain ⟨e, he, -⟩ := hbad
    cases he
  | cons e l ih =>
    rintro h
    obtain ⟨he, hr | hl⟩ := guarded_cons.1 h
    · exact hrej e (by simp) he hr
    · obtain ⟨e', he', hb⟩ := hbad
      rcases List.mem_cons.1 he' with rfl | he'
      · exact he hb
      · exact ih (fun x hx => hrej x (by simp [hx])) ⟨e', he', hb⟩ hl

/-- Such a pass runs to its end exactly when there is nothing to stop it. -/
theorem foldlM_ok_iff {f : σ → τ → Except Bool σ} (hf : Classifies f bad rej) {l : List τ} {s : σ} :
    (∃ t, l.foldlM f s = .ok t) ↔ ∀ e ∈ l, ¬ bad e ∧ ¬ rej e := by
  induction l generalizing s with
  | nil => exact iff_of_true ⟨s, rfl⟩ nofun
  | cons e l ih =>
    rw [List.foldlM_cons, List.forall_mem_cons]
    by_cases hb : bad e
    · rw [hf.of_bad s hb]
      exact iff_of_false nofun fun h => h.1.1 hb
    · by_cases hr : rej e
      · rw [hf.of_rej s hb hr]
        exact iff_of_false nofun fun h => h.1.2 hr
      · obtain ⟨s', hs'⟩ := hf.of_ok s hb hr
        rw [hs']
        exact ih.trans ⟨fun h => ⟨⟨hb, hr⟩, h⟩, fun h => h.2⟩

end

end Ostep
