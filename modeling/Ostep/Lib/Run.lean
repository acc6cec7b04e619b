import Mathlib.Tactic.Common

/-!
# Runs of a guarded step function

`step s a` is the state after action `a`, or `none` when `a` is not enabled in `s`. `run` takes a list of
actions, `Along P` says that each of them satisfies `P` in the state in which it is taken. `Along.inv` is
the induction rule for an invariant that only steps with `P` keep, and `along_congr` turns a step-wise
equivalence, valid as long as the invariant holds, into one for whole runs.
-/

namespace Ostep

variable {S A : Type*} {step : S → A → Option S}

def run (step : S → A → Option S) (s : S) (l : List A) : Option S := l.foldlM step s

def Along (step : S → A → Option S) (P : S → A → Prop) : S → List A → Prop
  | _, [] => True
  | s, a :: l => P s a ∧ ∀ s', step s a = some s' → Along step P s' l

instance Along.decidable {P : S → A → Prop} [∀ s a, Decidable (P s a)] :
    ∀ s l, Decidable (Along step P s l)
  | _, [] => isTrue trivial
  | s, a :: l =>
    match h : step s a with
    | none => decidable_of_iff (P s a) (by simp [Along, h])
    | some s' =>
      have := Along.decidable (P := P) s' l
      decidable_of_iff (P s a ∧ Along step P s' l) (by simp [Along, h])

theorem run_cons {s t : S} {a : A} {l : List A} (h : run step s (a :: l) = some t) :
    ∃ s', step s a = some s' ∧ run step s' l = some t := by
  rw [run, List.foldlM_cons] at h
  cases hs : step s a with
  | none => rw [hs] at h; cases h
  | some s' => rw [hs] at h; exact ⟨s', rfl, h⟩

theorem Along.inv {P : S → A → Prop} {I : S → Prop}
    (hstep : ∀ s a s', I s → P s a → step s a = some s' → I s') {s t : S} {l : List A}
    (hs : I s) (hl : Along step P s l) (ht : run step s l = some t) : I t := by
  induction l generalizing s with
  | nil => cases ht; exact hs
  | cons a l ih =>
    obtain ⟨s', hs', ht⟩ := run_cons ht
    exact ih (hstep s a s' hs hl.1 hs') (hl.2 s' hs') ht

theorem along_of_forall {P : S → A → Prop} (h : ∀ s a, P s a) (s : S) (l : List A) : Along step P s l := by
  induction l generalizing s with
  | nil => trivial
  | cons a l ih => exact ⟨h s a, fun s' _ => ih s'⟩

theorem run_inv {I : S → Prop} (hstep : ∀ s a s', I s → step s a = some s' → I s') {s t : S} {l : List A}
    (hs : I s) (ht : run step s l = some t) : I t :=
  Along.inv (P := fun _ _ => True) (fun s a s' hI _ => hstep s a s' hI) hs
    (along_of_forall (fun _ _ => trivial) s l) ht

theorem along_of_mem {P : A → Prop} {l : List A} (h : ∀ a ∈ l, P a) (s : S) : Along step (fun _ => P) s l := by
  induction l generalizing s with
  | nil => trivial
  | cons a l ih => exact ⟨h a List.mem_cons_self, fun s' _ => ih (fun b hb => h b (List.mem_cons_of_mem a hb)) s'⟩

/-- A run is no longer than a measure that each step makes smaller. -/
theorem run_length_le {I : S → Prop} {m : S → Nat} (hstep : ∀ s a s', I s → step s a = some s' → I s' ∧ m s' < m s) {s t : S}
    {l : List A} (hs : I s) (ht : run step s l = some t) : l.length + m t ≤ m s := by
  induction l generalizing s with
  | nil =>
    cases ht
    exact Nat.le_of_eq (Nat.zero_add _)
  | cons a l ih =>
    obtain ⟨s', hs', ht⟩ := run_cons ht
    obtain ⟨hI, hlt⟩ := hstep s a s' hs hs'
    have := ih hI ht
    rw [List.length_cons]
    omega

theorem along_congr {P Q : S → A → Prop} {I : S → Prop}
    (hstep : ∀ s a s', I s → P s a → step s a = some s' → I s')
    (hPQ : ∀ s a s', I s → step s a = some s' → (P s a ↔ Q s a)) {s t : S} {l : List A} (hs : I s)
    (ht : run step s l = some t) : Along step P s l ↔ Along step Q s l := by
  induction l generalizing s with
  | nil => exact Iff.rfl
  | cons a l ih =>
    obtain ⟨s₁, hs₁, ht⟩ := run_cons ht
    simp only [Along, hs₁, Option.some.injEq, forall_eq']
    rw [hPQ s a s₁ hs hs₁]
    exact and_congr_right fun hQ => ih (hstep s a s₁ hs ((hPQ s a s₁ hs hs₁).2 hQ) hs₁) ht

/-! ### Runs under a projection -/

section
variable {T : Type*} {step' : T → A → Option T} {f : T → S}

theorem run_comap (hf : ∀ t a, (step' t a).map f = step (f t) a) (t : T) (l : List A) :
    (run step' t l).map f = run step (f t) l := by
  induction l generalizing t with
  | nil => rfl
  | cons a l ih =>
    simp only [run, List.foldlM_cons] at ih ⊢
    rw [← hf]
    cases step' t a with
    | none => rfl
    | some t' => exact ih t'

theorem along_comap (hf : ∀ t a, (step' t a).map f = step (f t) a) {P : S → A → Prop} (t : T) (l : List A) :
    Along step P (f t) l ↔ Along step' (fun t a => P (f t) a) t l := by
  induction l generalizing t with
  | nil => exact Iff.rfl
  | cons a l ih =>
    simp only [Along, ← hf, Option.map_eq_some_iff]
    refine and_congr_right fun _ => ⟨fun h t' ht' => (ih t').1 (h _ ⟨t', ht', rfl⟩), ?_⟩
    rintro h _ ⟨t', ht', rfl⟩
    exact (ih t').2 (h t' ht')

end

end Ostep
