import Mathlib.Data.List.TakeWhile
import Ostep.Lib.CInt

/-!
# `strtok`

Memory is a list of bytes and a pointer an index. `strtok` skips delimiters, puts a NUL behind the token and remembers where to go on.
A loop that stores all tokens in an array finds the fields of the string (`collect_spec`), the strings between delimiters.
-/

namespace Ostep

section
variable {α : Type*} (d : α → Bool)

/-- The non-empty parts of `l` between delimiters. -/
def fields (l : List α) : List (List α) := (l.splitOnP d).filter fun w => !w.isEmpty

variable {d} {l w : List α} {c : α}

@[simp] theorem fields_nil : fields d [] = [] := rfl

theorem fields_cons_of_delim (h : d c = true) : fields d (c :: l) = fields d l := by
  rw [fields, List.splitOnP_cons_eq_if_modifyHead, if_pos h]
  rfl

theorem fields_dropWhile : fields d (l.dropWhile d) = fields d l := by
  induction l with
  | nil => rfl
  | cons c l ih =>
    rw [List.dropWhile_cons]
    split
    · next h => rw [ih, fields_cons_of_delim h]
    · rfl

theorem fields_word (hw : ∀ c ∈ w, d c = false) (hne : w ≠ []) (hl : ∀ c, l.head? = some c → d c = true) :
    fields d (w ++ l) = w :: fields d l := by
  obtain ⟨b, w, rfl⟩ := List.exists_cons_of_ne_nil hne
  cases l with
  | nil =>
    rw [List.append_nil, fields, List.splitOnP_eq_singleton hw]
    rfl
  | cons c l =>
    have hc := hl c rfl
    rw [fields_cons_of_delim hc, fields, List.splitOnP_append_cons_of_forall_mem hw c hc]
    rfl

theorem fields_append_cons (l w : List α) (h : d c = true) : fields d (l ++ c :: w) = fields d l ++ fields d w := by
  rw [fields, List.splitOnP_append_cons _ _ h, List.filter_append]
  rfl

theorem fields_congr {d' : α → Bool} (h : ∀ c ∈ l, d c = d' c) : fields d l = fields d' l := by
  suffices l.splitOnP d = l.splitOnP d' by rw [fields, this, fields]
  induction l with
  | nil => rfl
  | cons c l ih =>
    rw [List.splitOnP_cons_eq_if_modifyHead, List.splitOnP_cons_eq_if_modifyHead, h c List.mem_cons_self,
      ih fun c hc => h c (List.mem_cons_of_mem _ hc)]

theorem fields_eq_nil (h : ∀ c ∈ l, d c = true) : fields d l = [] := by
  rw [← fields_dropWhile, List.dropWhile_eq_nil_iff.2 h, fields_nil]

theorem fields_append_delims (h : ∀ c ∈ w, d c = true) : fields d (l ++ w) = fields d l := by
  cases w with
  | nil => rw [List.append_nil]
  | cons c w =>
    rw [fields_append_cons _ _ (h c List.mem_cons_self), fields_eq_nil fun c hc => h c (List.mem_cons_of_mem _ hc), List.append_nil]

variable (d) in
/-- `l` begins with the delimiters `a` and the word `w`, and then ends or goes on with the delimiter that `r` begins with. -/
structure Begins (a w r : List α) : Prop where
  delims : ∀ c ∈ a, d c = true
  word : ∀ c ∈ w, d c = false
  ne_nil : w ≠ []
  stops : ∀ c, r.head? = some c → d c = true

namespace Begins
variable {a r : List α}

theorem fields_eq (h : Begins d a w r) : fields d (a ++ w ++ r) = w :: fields d r.tail := by
  have hw : (w ++ r).dropWhile d = w ++ r := by
    obtain ⟨b, w, rfl⟩ := List.exists_cons_of_ne_nil h.ne_nil
    exact List.dropWhile_cons_of_neg (by rw [h.word b List.mem_cons_self]; nofun)
  have hr : fields d r = fields d r.tail := by
    cases r with
    | nil => rfl
    | cons c r => exact fields_cons_of_delim (h.stops c rfl)
  rw [← fields_dropWhile, List.append_assoc, List.dropWhile_append_of_pos h.delims, hw, fields_word h.word h.ne_nil h.stops, hr]

end Begins

theorem takeWhile_append_stop {r : List α} (hl : ∀ c ∈ l, d c = true) (hr : ∀ c, r.head? = some c → d c = false) :
    (l ++ r).takeWhile d = l ∧ (l ++ r).dropWhile d = r := by
  rw [List.takeWhile_append_of_pos hl, List.dropWhile_append_of_pos hl]
  cases r with
  | nil => exact ⟨List.append_nil _, rfl⟩
  | cons c r =>
    have hc : ¬ d c = true := by rw [hr c rfl]; nofun
    rw [List.takeWhile_cons_of_neg hc, List.dropWhile_cons_of_neg hc]
    exact ⟨List.append_nil _, rfl⟩

theorem head_dropWhile (h : (l.dropWhile d).head? = some c) : d c = false := by
  have := List.head?_dropWhile_not d l
  rw [h] at this
  simpa using this

theorem delims_or_begins (l : List α) : (∀ c ∈ l, d c = true) ∨ ∃ a w r, l = a ++ w ++ r ∧ Begins d a w r := by
  by_cases h : l.dropWhile d = []
  · exact .inl (List.dropWhile_eq_nil_iff.1 h)
  · refine .inr ⟨l.takeWhile d, (l.dropWhile d).takeWhile (!d ·), (l.dropWhile d).dropWhile (!d ·), ?_, ?_, ?_, ?_, ?_⟩
    · rw [List.append_assoc, List.takeWhile_append_dropWhile, List.takeWhile_append_dropWhile]
    · exact fun c hc => List.mem_takeWhile_imp hc
    · exact fun c hc => by simpa using List.mem_takeWhile_imp hc
    · obtain ⟨c, t, ht⟩ := List.exists_cons_of_ne_nil h
      have hc : d c = false := head_dropWhile (by rw [ht]; rfl)
      rw [ht, List.takeWhile_cons_of_pos (by rw [hc]; rfl)]
      nofun
    · intro c hc
      simpa using head_dropWhile hc

theorem fields_eq_nil_iff : fields d l = [] ↔ ∀ c ∈ l, d c = true := by
  refine ⟨fun h => ?_, fields_eq_nil⟩
  obtain hall | ⟨a, w, r, rfl, hb⟩ := delims_or_begins (d := d) l
  · exact hall
  · rw [hb.fields_eq] at h
    cases h

theorem infix_of_mem_fields (h : w ∈ fields d l) : w <:+: l := by
  -- a field of `l` is its first word or a field of what stands behind that word
  induction hn : l.length using Nat.strong_induction_on generalizing l with
  | h n ih =>
    obtain hall | ⟨a, v, r, rfl, hb⟩ := delims_or_begins (d := d) l
    · rw [fields_eq_nil hall] at h
      cases h
    · rw [hb.fields_eq] at h
      cases h with
      | head => exact ⟨a, r, rfl⟩
      | tail _ h =>
        have hlt : r.tail.length < n := by
          have := List.length_pos_iff.2 hb.ne_nil
          rw [← hn, List.length_append, List.length_append, List.length_tail]
          omega
        exact (ih _ hlt h rfl).trans ((List.tail_suffix r).isInfix.trans (List.suffix_append _ r).isInfix)

end

/-! ### Strings in memory -/

def cstrAt (m : List UInt8) (p : Nat) : List UInt8 := (m.drop p).takeWhile (· ≠ 0)

structure StrAt (m : List UInt8) (p : Nat) (s : List UInt8) : Prop where
  noNul : 0 ∉ s
  bytes : ∀ i (h : i < s.length), m[p + i]? = some s[i]
  nul : m[p + s.length]? = some 0

variable {m m' : List UInt8} {p : Nat} {s t : List UInt8}

theorem StrAt.cstrAt_eq (h : StrAt m p s) : cstrAt m p = s := by
  induction s generalizing p with
  | nil =>
    obtain ⟨hlt, hnul⟩ := List.getElem?_eq_some_iff.1 (show m[p]? = some 0 from h.nul)
    rw [cstrAt, List.drop_eq_getElem_cons hlt]
    exact List.takeWhile_cons_of_neg (by simpa using hnul)
  | cons c s ih =>
    have h0 : m[p]? = some c := h.bytes 0 (Nat.succ_pos _)
    obtain ⟨hlt, hc⟩ := List.getElem?_eq_some_iff.1 h0
    have hne : c ≠ 0 := fun h0 => h.noNul (h0 ▸ List.mem_cons_self)
    have hrest : StrAt m (p + 1) s := by
      refine ⟨fun h0 => h.noNul (List.mem_cons_of_mem _ h0), fun i hi => ?_, ?_⟩
      · rw [Nat.add_assoc, Nat.add_comm 1]
        exact h.bytes (i + 1) (Nat.succ_lt_succ hi)
      · rw [Nat.add_assoc, Nat.add_comm 1]
        exact h.nul
    rw [cstrAt, List.drop_eq_getElem_cons hlt, ← ih hrest]
    rw [hc, List.takeWhile_cons_of_pos (by simpa using hne)]
    rfl

theorem StrAt.right (h : StrAt m p (s ++ t)) : StrAt m (p + s.length) t := by
  refine ⟨fun h0 => h.noNul (List.mem_append_right _ h0), fun i hi => ?_, ?_⟩
  · have := h.bytes (s.length + i) (by rw [List.length_append]; omega)
    rw [← Nat.add_assoc] at this
    rw [this, List.getElem_append_right (Nat.le_add_right _ _)]
    simp
  · have := h.nul
    rwa [List.length_append, ← Nat.add_assoc] at this

theorem StrAt.lt_length (h : StrAt m p (s ++ t)) : p + s.length < m.length := by
  cases t with
  | nil =>
    have := h.nul
    rw [List.append_nil] at this
    exact (List.getElem?_eq_some_iff.1 this).1
  | cons c t =>
    have := h.bytes s.length (by rw [List.length_append, List.length_cons]; omega)
    exact (List.getElem?_eq_some_iff.1 this).1

theorem StrAt.cut (h : StrAt m p (s ++ t)) : StrAt (m.set (p + s.length) 0) p s := by
  refine ⟨fun h0 => h.noNul (List.mem_append_left _ h0), fun i hi => ?_, ?_⟩
  · rw [List.getElem?_set_ne (by omega), h.bytes i (by rw [List.length_append]; omega), List.getElem_append_left hi]
  · rw [List.getElem?_set_self h.lt_length]

theorem StrAt.congr (h : StrAt m p s) (heq : ∀ i, p ≤ i → i ≤ p + s.length → m'[i]? = m[i]?) : StrAt m' p s :=
  ⟨h.noNul, fun i hi => by rw [heq (p + i) (by omega) (by omega), h.bytes i hi], by rw [heq _ (by omega) (by omega), h.nul]⟩

theorem strAt_append_nul (h : 0 ∉ s) (r : List UInt8) : StrAt (s ++ 0 :: r) 0 s := by
  refine ⟨h, fun i hi => ?_, ?_⟩
  · rw [Nat.zero_add, List.getElem?_append_left hi, List.getElem?_eq_getElem hi]
  · rw [Nat.zero_add, List.getElem?_append_right (Nat.le_refl _), Nat.sub_self, List.getElem?_cons_zero]

/-! ### The function -/

/-- `strtok(s, delim)`, `none` being the null pointer; the results are the token, the memory and the pointer that is kept for the next
call (`save`). -/
def strtok (m : List UInt8) (save : Nat) (s : Option Nat) (delim : List UInt8) : Option Nat × List UInt8 × Nat :=
  let s := s.getD save
  let str := cstrAt m s
  let tok := s + (str.takeWhile (· ∈ delim)).length
  let rest := str.dropWhile (· ∈ delim)
  if rest = [] then (none, m, tok)
  else
    let stop := tok + (rest.takeWhile (· ∉ delim)).length
    if rest.dropWhile (· ∉ delim) = [] then (some tok, m, stop) else (some tok, m.set stop 0, stop + 1)

/-- `a[i] = token; while(token != NULL){ token = strtok(NULL, delim); a[++i] = token; }` with room for `n` entries: the pointers before
the null pointer. -/
def collect (delim : List UInt8) : Nat → Option Nat × List UInt8 × Nat → Except Stop (List Nat × List UInt8 × Nat)
  | 0, _ => .error .undefined
  | _ + 1, (none, m, save) => .ok ([], m, save)
  | n + 1, (some tok, m, save) => do
    let (toks, m, save) ← collect delim n (strtok m save none delim)
    .ok (tok :: toks, m, save)

section
variable {delim : List UInt8} {save : Nat} {o : Option Nat}

theorem strtok_none (h : StrAt m p s) (ho : o.getD save = p) (hs : ∀ c ∈ s, c ∈ delim) :
    strtok m save o delim = (none, m, p + s.length) := by
  have hd : ∀ c ∈ s, decide (c ∈ delim) = true := fun c hc => decide_eq_true (hs c hc)
  unfold strtok
  simp only [ho, h.cstrAt_eq]
  rw [if_pos (List.dropWhile_eq_nil_iff.2 hd), List.takeWhile_eq_self_iff.2 hd]

/-- What a call leaves behind that finds the word `w` behind the delimiters `a`. -/
structure Cut (m : List UInt8) (p : Nat) (a w r : List UInt8) (m' : List UInt8) (save' : Nat) : Prop where
  token : StrAt m' p (a ++ w)
  rest : StrAt m' save' r.tail
  stop : save' + r.tail.length = p + (a ++ w ++ r).length
  le : p + (a ++ w).length ≤ save'
  frame : ∀ i, i < p + (a ++ w).length ∨ save' ≤ i → m'[i]? = m[i]?

theorem strtok_some {a w r : List UInt8} (h : StrAt m p (a ++ w ++ r)) (ho : o.getD save = p) (hb : Begins (· ∈ delim) a w r) :
    ∃ m' save', strtok m save o delim = (some (p + a.length), m', save') ∧ Cut m p a w r m' save' := by
  have hskip := takeWhile_append_stop (r := w ++ r) hb.delims fun c hc => by
    obtain ⟨b, w, rfl⟩ := List.exists_cons_of_ne_nil hb.ne_nil
    obtain rfl : b = c := Option.some.inj hc
    exact hb.word b List.mem_cons_self
  have hword := takeWhile_append_stop (d := (· ∉ delim)) (l := w) (r := r)
    (fun c hc => by simpa using hb.word c hc) fun c hc => by simpa using hb.stops c hc
  have hne : w ++ r ≠ [] := fun h => hb.ne_nil (List.append_eq_nil_iff.1 h).1
  unfold strtok
  simp only [ho, h.cstrAt_eq, List.append_assoc, hskip, hword, if_neg hne]
  cases r with
  | nil =>
    rw [List.append_nil] at h
    refine ⟨m, _, if_pos rfl, h, ?_, ?_, ?_, fun i _ => rfl⟩
    · have := StrAt.right (t := []) (by rwa [List.append_nil])
      rwa [List.length_append, ← Nat.add_assoc] at this
    all_goals
      simp only [List.length_append, List.length_nil, List.tail_nil]
      omega
  | cons c r =>
    have hcut := h.cut
    have hr : StrAt m (p + (a ++ w ++ [c]).length) r := StrAt.right (by rwa [List.append_assoc])
    have hpos : p + a.length + w.length = p + (a ++ w).length := by rw [List.length_append, Nat.add_assoc]
    have hpos' : p + (a ++ w ++ [c]).length = p + (a ++ w).length + 1 := by rw [List.length_append, List.length_singleton]; rfl
    rw [hpos'] at hr
    refine ⟨_, _, if_neg nofun, ?_⟩
    rw [hpos]
    refine ⟨hcut, hr.congr fun i hi _ => List.getElem?_set_ne (by omega), ?_, Nat.le_succ _, fun i hi => List.getElem?_set_ne (by omega)⟩
    simp only [List.length_append, List.length_cons, List.tail_cons]
    omega

/-- The loop finds all fields when there is room for them and the null pointer; it changes nothing outside the string. -/
theorem collect_ok {n : Nat} (h : StrAt m p s) (ho : o.getD save = p) (hn : (fields (· ∈ delim) s).length < n) :
    ∃ toks m' save', collect delim n (strtok m save o delim) = .ok (toks, m', save') ∧
      toks.map (cstrAt m') = fields (· ∈ delim) s ∧ ∀ i, i < p ∨ p + s.length ≤ i → m'[i]? = m[i]? := by
  induction n generalizing m save o p s with
  | zero => cases hn
  | succ n ih =>
    obtain hall | ⟨a, w, r, rfl, hb⟩ := delims_or_begins (d := (· ∈ delim)) s
    · rw [strtok_none h ho fun c hc => of_decide_eq_true (hall c hc), fields_eq_nil hall]
      exact ⟨[], m, _, rfl, rfl, fun _ _ => rfl⟩
    · obtain ⟨m₁, save₁, hs, hcut⟩ := strtok_some h ho hb
      rw [hb.fields_eq] at hn ⊢
      obtain ⟨toks, m₂, save₂, hc, htoks, hframe⟩ := ih hcut.rest (o := none) rfl (Nat.lt_of_succ_lt_succ hn)
      refine ⟨_, m₂, save₂, by rw [hs]; simp only [collect, hc]; rfl, ?_, fun i hi => ?_⟩
      · -- the rest of the loop works behind the NUL of this token
        have htok : StrAt m₂ (p + a.length) w := hcut.token.right.congr fun i hi hle => by
          have := hcut.le
          rw [List.length_append] at this
          by_cases hlt : i < save₁
          · exact hframe i (.inl hlt)
          · cases r with
            | nil => exact hframe i (.inr (by rw [List.tail_nil, List.length_nil]; omega))
            | cons c r =>
              have := hcut.stop
              simp only [List.length_append, List.length_cons, List.tail_cons] at this
              omega
        rw [List.map_cons, htoks, htok.cstrAt_eq]
      · have hle := hcut.le
        have hstop := hcut.stop
        simp only [List.length_append] at hi hle hstop
        rw [hframe i (by omega), hcut.frame i (by rw [List.length_append]; omega)]

theorem collect_overflow {n : Nat} (h : StrAt m p s) (ho : o.getD save = p) (hn : n ≤ (fields (· ∈ delim) s).length) :
    collect delim n (strtok m save o delim) = .error .undefined := by
  induction n generalizing m save o p s with
  | zero => rfl
  | succ n ih =>
    obtain hall | ⟨a, w, r, rfl, hb⟩ := delims_or_begins (d := (· ∈ delim)) s
    · rw [fields_eq_nil hall] at hn
      cases hn
    · obtain ⟨m₁, save₁, hs, hcut⟩ := strtok_some h ho hb
      rw [hb.fields_eq] at hn
      rw [hs]
      simp only [collect, ih hcut.rest (o := none) rfl (Nat.le_of_succ_le_succ hn)]
      rfl

end

end Ostep
