import Mathlib.Data.List.Chain

/-!
# Run-length encoding

A record `(c, n)` stands for `n` copies of `c`. `expand` reads a list of records back as a text,
`Canonical` says that no record is empty and that neighbours differ, and `Enc` is the one-pass
encoder: the closed records, and the open one that may still grow. `Enc.push` takes whole records, so
one machine describes both counting the elements of a text and joining the records of several pieces.
A text has exactly one canonical encoding (`runs_unique`).
-/

namespace Ostep.Rle

variable {α : Type*}

def expand (rs : List (α × Nat)) : List α := rs.flatMap fun r => List.replicate r.2 r.1

@[simp] theorem expand_nil : expand ([] : List (α × Nat)) = [] := rfl

@[simp] theorem expand_cons (r : α × Nat) (rs : List (α × Nat)) :
    expand (r :: rs) = List.replicate r.2 r.1 ++ expand rs := by simp [expand]

@[simp] theorem expand_append (rs rs' : List (α × Nat)) : expand (rs ++ rs') = expand rs ++ expand rs' := by
  simp [expand]

def ones (l : List α) : List (α × Nat) := l.map fun c => (c, 1)

@[simp] theorem expand_ones (l : List α) : expand (ones l) = l := by
  induction l with
  | nil => rfl
  | cons c l ih => simpa [ones] using ih

theorem ones_append (l l' : List α) : ones (l ++ l') = ones l ++ ones l' := List.map_append

/-- Every record counts something, and neighbouring records have different elements. -/
structure Canonical (rs : List (α × Nat)) : Prop where
  pos : ∀ r ∈ rs, 0 < r.2
  alt : rs.IsChain fun a b => a.1 ≠ b.1

namespace Canonical

theorem nil : Canonical ([] : List (α × Nat)) := ⟨by simp, by simp⟩

theorem tail {r : α × Nat} {rs : List (α × Nat)} (h : Canonical (r :: rs)) : Canonical rs :=
  ⟨fun q hq => h.pos q (List.mem_cons_of_mem _ hq), h.alt.tail⟩

theorem head_expand_ne {c : α} {n : Nat} {rs : List (α × Nat)} (h : Canonical ((c, n) :: rs)) :
    ∀ x ∈ (expand rs).head?, x ≠ c := by
  intro x hx
  cases rs with
  | nil => simp at hx
  | cons r rs =>
    obtain ⟨d, m⟩ := r
    have hm : 0 < m := h.pos (d, m) (by simp)
    have hcd : c ≠ d := (List.isChain_cons.1 h.alt).1 (d, m) (by simp)
    obtain ⟨k, rfl⟩ : ∃ k, m = k + 1 := ⟨m - 1, by omega⟩
    simp [List.replicate_succ] at hx
    exact fun hxc => hcd (by rw [hx, hxc])

end Canonical

/-- The state of a one-pass encoder: closed records in order, and the open one. Only an encoder that
has read nothing has no open record. -/
structure Enc (α : Type*) where
  done : List (α × Nat) := []
  cur : Option (α × Nat) := none
  idle : cur = none → done = [] := by simp

namespace Enc

def all (e : Enc α) : List (α × Nat) := e.done ++ e.cur.toList

@[simp] theorem all_empty : ({} : Enc α).all = [] := rfl

end Enc

variable [DecidableEq α]

theorem takeWhile_replicate_append (c : α) (n : Nat) {l : List α} (h : ∀ x ∈ l.head?, x ≠ c) :
    (List.replicate n c ++ l).takeWhile (· = c) = List.replicate n c := by
  induction n with
  | zero =>
    cases l with
    | nil => rfl
    | cons x l => simp [h x (by simp)]
  | succ n ih => simp [List.replicate_succ, ih]

/-- A text has at most one canonical encoding. -/
theorem Canonical.unique {rs rs' : List (α × Nat)} (h : Canonical rs) (h' : Canonical rs')
    (he : expand rs = expand rs') : rs = rs' := by
  induction rs generalizing rs' with
  | nil =>
    cases rs' with
    | nil => rfl
    | cons r rs' =>
      have hr := h'.pos r (by simp)
      have hl := congrArg List.length he
      simp at hl
      omega
  | cons r rs ih =>
    obtain ⟨c, n⟩ := r
    have hn : 0 < n := h.pos (c, n) (by simp)
    cases rs' with
    | nil =>
      have hl := congrArg List.length he
      simp at hl
      omega
    | cons r' rs' =>
      obtain ⟨c', n'⟩ := r'
      have hn' : 0 < n' := h'.pos (c', n') (by simp)
      have hc : c = c' := by
        obtain ⟨k, rfl⟩ : ∃ k, n = k + 1 := ⟨n - 1, by omega⟩
        obtain ⟨k', rfl⟩ : ∃ k, n' = k + 1 := ⟨n' - 1, by omega⟩
        simp only [expand_cons, List.replicate_succ, List.cons_append] at he
        exact (List.cons.injEq .. ▸ he).1
      subst hc
      -- both texts start with the same maximal run of `c`
      have hrun : List.replicate n c = List.replicate n' c := by
        rw [← takeWhile_replicate_append c n h.head_expand_ne,
          ← takeWhile_replicate_append c n' h'.head_expand_ne]
        exact congrArg _ (by simpa using he)
      have hnn : n = n' := by simpa using congrArg List.length hrun
      subst hnn
      rw [ih h.tail h'.tail (by simpa using he)]

namespace Enc

/-- Take in one record: it extends the open record, or closes it and becomes the open one. -/
def push (e : Enc α) (r : α × Nat) : Enc α :=
  match e.cur with
  | none => { done := e.done, cur := some r }
  | some (c, n) =>
    if c = r.1 then { done := e.done, cur := some (c, n + r.2) }
    else { done := e.done ++ [(c, n)], cur := some r }

def pushAll (e : Enc α) (rs : List (α × Nat)) : Enc α := rs.foldl push e

@[simp] theorem pushAll_nil (e : Enc α) : e.pushAll [] = e := rfl

@[simp] theorem pushAll_cons (e : Enc α) (r : α × Nat) (rs : List (α × Nat)) :
    e.pushAll (r :: rs) = (e.push r).pushAll rs := rfl

theorem pushAll_append (e : Enc α) (rs rs' : List (α × Nat)) :
    e.pushAll (rs ++ rs') = (e.pushAll rs).pushAll rs' := List.foldl_append

theorem push_of_none {e : Enc α} (h : e.cur = none) (r : α × Nat) : (e.push r).all = [r] := by
  simp [push, h, all, e.idle h]

theorem push_of_eq {e : Enc α} {c : α} {n : Nat} (h : e.cur = some (c, n)) (m : Nat) :
    e.push (c, m) = { done := e.done, cur := some (c, n + m) } := by
  simp [push, h]

theorem push_of_ne {e : Enc α} {c d : α} {n : Nat} (h : e.cur = some (c, n)) (hc : c ≠ d) (m : Nat) :
    e.push (d, m) = { done := e.done ++ [(c, n)], cur := some (d, m) } := by
  simp [push, h, hc]

theorem cur_push_ne_none (e : Enc α) (r : α × Nat) : (e.push r).cur ≠ none := by
  unfold push; split
  · simp
  · split <;> simp

theorem expand_all_push (e : Enc α) (r : α × Nat) :
    expand (e.push r).all = expand e.all ++ List.replicate r.2 r.1 := by
  obtain ⟨c, m⟩ := r
  rcases h : e.cur with _ | ⟨d, n⟩
  · rw [push_of_none h]; simp [all, h, e.idle h]
  · by_cases hd : d = c
    · subst hd; rw [push_of_eq h]; simp [all, h]
    · rw [push_of_ne h hd]; simp [all, h]

theorem expand_all_pushAll (e : Enc α) (rs : List (α × Nat)) :
    expand (e.pushAll rs).all = expand e.all ++ expand rs := by
  induction rs generalizing e with
  | nil => simp
  | cons r rs ih => rw [pushAll_cons, ih, expand_all_push]; simp

theorem canonical_push {e : Enc α} {r : α × Nat} (h : Canonical e.all) (hr : 0 < r.2) :
    Canonical (e.push r).all := by
  obtain ⟨c, m⟩ := r
  rcases hcur : e.cur with _ | ⟨d, n⟩
  · rw [push_of_none hcur]
    exact ⟨by simpa using hr, by simp⟩
  have hd : Canonical (e.done ++ [(d, n)]) := by simpa [all, hcur] using h
  by_cases hdc : d = c
  · -- the open record only grows, so it still differs from the one before it
    subst hdc
    rw [push_of_eq hcur]
    obtain ⟨h1, -, h3⟩ := List.isChain_append.1 hd.alt
    refine ⟨fun q hq => ?_, List.isChain_append.2 ⟨h1, by simp, by simpa using h3⟩⟩
    rcases List.mem_append.1 hq with hq | hq
    · exact hd.pos q (by simp [hq])
    · simp at hq; subst hq; exact Nat.add_pos_right n hr
  · rw [push_of_ne hcur hdc]
    refine ⟨fun q hq => ?_, List.isChain_append.2 ⟨hd.alt, by simp, by simpa using hdc⟩⟩
    rcases List.mem_append.1 hq with hq | hq
    · exact hd.pos q hq
    · simp at hq; subst hq; exact hr

theorem canonical_pushAll {e : Enc α} {rs : List (α × Nat)} (h : Canonical e.all)
    (hr : ∀ r ∈ rs, 0 < r.2) : Canonical (e.pushAll rs).all := by
  induction rs generalizing e with
  | nil => exact h
  | cons r rs ih =>
    exact ih (canonical_push h (hr r (by simp))) fun q hq => hr q (by simp [hq])

theorem exists_le_of_mem_all_push {e : Enc α} {q : α × Nat} (hq : q ∈ e.all) (r : α × Nat) :
    ∃ q' ∈ (e.push r).all, q.2 ≤ q'.2 := by
  obtain ⟨c, m⟩ := r
  rcases hcur : e.cur with _ | ⟨d, n⟩
  · simp [all, hcur, e.idle hcur] at hq
  by_cases hdc : d = c
  · subst hdc
    rw [push_of_eq hcur]
    simp only [all, hcur, Option.toList_some, List.mem_append, List.mem_singleton] at hq ⊢
    rcases hq with hq | rfl
    · exact ⟨q, .inl hq, Nat.le_refl _⟩
    · exact ⟨_, .inr rfl, Nat.le_add_right n m⟩
  · rw [push_of_ne hcur hdc]
    refine ⟨q, ?_, Nat.le_refl _⟩
    simp only [all, hcur] at hq ⊢
    exact List.mem_append_left _ hq

theorem exists_le_of_mem_all_pushAll {e : Enc α} {q : α × Nat} (hq : q ∈ e.all) (rs : List (α × Nat)) :
    ∃ q' ∈ (e.pushAll rs).all, q.2 ≤ q'.2 := by
  induction rs generalizing e q with
  | nil => exact ⟨q, hq, Nat.le_refl _⟩
  | cons r rs ih =>
    obtain ⟨q₁, hq₁, h₁⟩ := exists_le_of_mem_all_push hq r
    obtain ⟨q₂, hq₂, h₂⟩ := ih hq₁
    exact ⟨q₂, hq₂, Nat.le_trans h₁ h₂⟩

theorem exists_le_of_mem_pushAll {rs : List (α × Nat)} {r : α × Nat} (hr : r ∈ rs) (e : Enc α) :
    ∃ q ∈ (e.pushAll rs).all, r.2 ≤ q.2 := by
  induction rs generalizing e with
  | nil => simp at hr
  | cons p rs ih =>
    rcases List.mem_cons.1 hr with rfl | hr
    · obtain ⟨q, hq, hle⟩ : ∃ q ∈ (e.push r).all, r.2 ≤ q.2 := by
        obtain ⟨c, m⟩ := r
        rcases hcur : e.cur with _ | ⟨d, n⟩
        · exact ⟨(c, m), by simp [push_of_none hcur], Nat.le_refl _⟩
        · by_cases hdc : d = c
          · subst hdc
            exact ⟨(d, n + m), by simp [push_of_eq hcur, all], Nat.le_add_left m n⟩
          · exact ⟨(c, m), by simp [push_of_ne hcur hdc, all], Nat.le_refl _⟩
      obtain ⟨q', hq', hle'⟩ := exists_le_of_mem_all_pushAll hq rs
      exact ⟨q', hq', Nat.le_trans hle hle'⟩
    · exact ih hr (e.push p)

theorem length_all_le_push (e : Enc α) (r : α × Nat) : e.all.length ≤ (e.push r).all.length := by
  obtain ⟨c, m⟩ := r
  rcases hcur : e.cur with _ | ⟨d, n⟩
  · simp [all, hcur, e.idle hcur]
  · by_cases hdc : d = c
    · subst hdc; simp [push_of_eq hcur, all, hcur]
    · simp [push_of_ne hcur hdc, all, hcur]

end Enc

/-- The maximal runs of a text, in order. -/
def runs (l : List α) : List (α × Nat) := (Enc.pushAll {} (ones l)).all

theorem expand_runs (l : List α) : expand (runs l) = l := by
  rw [runs, Enc.expand_all_pushAll]; simp

theorem canonical_runs (l : List α) : Canonical (runs l) :=
  Enc.canonical_pushAll Canonical.nil (by simp [ones])

theorem runs_unique {l : List α} {rs : List (α × Nat)} (h : Canonical rs) (he : expand rs = l) :
    rs = runs l :=
  h.unique (canonical_runs l) (he.trans (expand_runs l).symm)

theorem all_pushAll_eq_runs {rs : List (α × Nat)} (hr : ∀ r ∈ rs, 0 < r.2) :
    (Enc.pushAll {} rs).all = runs (expand rs) :=
  runs_unique (Enc.canonical_pushAll Canonical.nil hr) (by simp [Enc.expand_all_pushAll])

end Ostep.Rle
