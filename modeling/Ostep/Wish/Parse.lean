import Ostep.Wish.Wish

/-!
# What `handle_command` makes of a segment

`check_redirect` splits the segment at the first `'>'` that has something else before it, so that leading `'>'`s stay part of the command
(`before`, `after`); the file name is what is left of the rest without the white space around it (`trim`). `handleCommand_eq` says what
the calls of `strtok` compute on the bytes of the command.
-/

namespace Ostep.Wish

/-- A line as `getline` delivers it, or a part of one: a newline can only be the last character. -/
structure Line (s : List UInt8) : Prop where
  noNul : 0 ∉ s
  newline : NL ∉ s.dropLast

/-- Words are separated by blanks; the newline ends the last one. -/
def words (s : List UInt8) : List (List UInt8) := fields (· ∈ [SP, NL]) s

/-- The segment without the `'>'`s it begins with. -/
def body (s : List UInt8) : List UInt8 := s.dropWhile (· ∈ [GT])

def before (s : List UInt8) : List UInt8 := s.takeWhile (· ∈ [GT]) ++ (body s).takeWhile (· ∉ [GT])

def after (s : List UInt8) : Option (List UInt8) :=
  match (body s).dropWhile (· ∉ [GT]) with
  | [] => none
  | _ :: r => some r

def chomp (s : List UInt8) : List UInt8 := s.takeWhile (· ∉ [NL])

def trim (s : List UInt8) : List UInt8 := (s.dropWhile isspace).rdropWhile isspace

variable {m s r t : List UInt8} {p : Nat}

/-! ### Lines -/

theorem Line.of_infix (h : Line s) (ht : t <:+: s) : Line t := by
  obtain ⟨a, b, rfl⟩ := ht
  refine ⟨fun h0 => h.noNul (by simp [h0]), fun hnl => h.newline ?_⟩
  have hne : t ≠ [] := by rintro rfl; cases hnl
  cases b with
  | nil =>
    rw [List.append_nil, List.dropLast_append_of_ne_nil hne]
    exact List.mem_append_right _ hnl
  | cons c b =>
    rw [List.dropLast_append_of_ne_nil (List.cons_ne_nil _ _)]
    exact List.mem_append_left _ (List.mem_append_right _ (List.dropLast_subset _ hnl))

theorem Line.chomp_append (h : Line s) : ∃ e, s = chomp s ++ e ∧ ∀ c ∈ e, c = NL := by
  refine ⟨s.dropWhile (· ∉ [NL]), List.takeWhile_append_dropWhile.symm, ?_⟩
  cases he : s.dropWhile (· ∉ [NL]) with
  | nil => nofun
  | cons c e =>
    have hc : c = NL := by simpa using head_dropWhile (c := c) (d := (· ∉ [NL])) (l := s) (by rw [he]; rfl)
    have hs : s = chomp s ++ c :: e := by rw [← he]; exact List.takeWhile_append_dropWhile.symm
    cases e with
    | nil => simp [hc]
    | cons c' e =>
      refine absurd ?_ h.newline
      rw [hs, List.dropLast_append_of_ne_nil (List.cons_ne_nil _ _), hc]
      exact List.mem_append_right _ List.mem_cons_self

theorem not_mem_chomp : NL ∉ chomp s := fun h => by simpa using List.mem_takeWhile_imp h

theorem trim_append_space (h : ∀ c ∈ t, isspace c = true) : trim (s ++ t) = trim s := by
  have hr : ∀ l : List UInt8, (l ++ t).rdropWhile isspace = l.rdropWhile isspace := fun l => by
    rw [List.rdropWhile, List.reverse_append, List.dropWhile_append_of_pos fun c hc => h c (List.mem_reverse.1 hc), List.rdropWhile]
  rw [trim, trim, List.dropWhile_append]
  split
  · next he => rw [List.isEmpty_iff.1 he, List.dropWhile_eq_nil_iff.2 h]
  · exact hr _

theorem Line.trim_chomp (h : Line s) : trim (chomp s) = trim s := by
  obtain ⟨e, he, hnl⟩ := h.chomp_append
  conv_rhs => rw [he]
  exact (trim_append_space fun c hc => by rw [hnl c hc]; rfl).symm

/-! ### The two parts of a segment -/

theorem before_of_after_none (h : after s = none) : before s = s ∧ ∀ c ∈ body s, c ∉ [GT] := by
  have hd : (body s).dropWhile (· ∉ [GT]) = [] := by
    unfold after at h
    split at h
    · assumption
    · cases h
  have hall := List.dropWhile_eq_nil_iff.1 hd
  refine ⟨?_, fun c hc => by simpa using hall c hc⟩
  rw [before, List.takeWhile_eq_self_iff.2 hall]
  exact List.takeWhile_append_dropWhile

theorem eq_of_after_some (h : after s = some r) :
    s = before s ++ GT :: r ∧ Begins (· ∈ [GT]) (s.takeWhile (· ∈ [GT])) ((body s).takeWhile (· ∉ [GT])) (GT :: r) := by
  obtain ⟨c, hd⟩ : ∃ c, (body s).dropWhile (· ∉ [GT]) = c :: r := by
    unfold after at h
    split at h
    · cases h
    · next c r' hd => exact ⟨c, by rw [hd, Option.some.inj h]⟩
  have hc : c = GT := by simpa using head_dropWhile (c := c) (d := (· ∉ [GT])) (l := body s) (by rw [hd]; rfl)
  subst hc
  have hbody : body s = (body s).takeWhile (· ∉ [GT]) ++ GT :: r := by rw [← hd]; exact List.takeWhile_append_dropWhile.symm
  refine ⟨?_, fun c hc => by simpa using List.mem_takeWhile_imp hc, fun c hc => by simpa using List.mem_takeWhile_imp hc, fun hnil => ?_, ?_⟩
  · rw [before, List.append_assoc, ← hbody]
    exact List.takeWhile_append_dropWhile.symm
  · -- the body does not begin with `'>'`
    rw [hnil, List.nil_append] at hbody
    have := head_dropWhile (c := GT) (d := (· ∈ [GT])) (l := s) (by rw [← body, hbody]; rfl)
    simp at this
  · rintro c ⟨⟩
    simp

/-! ### The functions -/

theorem strtok_line {x e : List UInt8} (save : Nat) (h : StrAt m p (x ++ e)) (hx : NL ∉ x) (he : ∀ c ∈ e, c = NL) :
    (x = [] ∧ strtok m save (some p) [NL] = (none, m, p + e.length)) ∨
      (x ≠ [] ∧ ∃ m' save', strtok m save (some p) [NL] = (some p, m', save') ∧ StrAt m' p x ∧
        ∀ i, i < p ∨ p + (x ++ e).length ≤ i → m'[i]? = m[i]?) := by
  have ho : (some p).getD save = p := rfl
  by_cases hne : x = []
  · subst hne
    exact .inl ⟨rfl, strtok_none h ho fun c hc => by simpa using he c hc⟩
  · have hb : Begins (· ∈ [NL]) [] x e := by
      refine ⟨nofun, fun c hc => ?_, hne, fun c hc => by simpa using he c (List.mem_of_head? hc)⟩
      simpa using fun heq : c = NL => hx (heq ▸ hc)
    obtain ⟨m', save', hs, hcut⟩ := strtok_some (a := []) h ho hb
    refine .inr ⟨hne, m', save', hs, hcut.token, fun i hi => hcut.frame i ?_⟩
    have hstop := hcut.stop
    simp only [List.nil_append, List.length_append] at hstop hi ⊢
    omega

theorem strtrim_spec (h : StrAt m p s) :
    ∃ q m', strtrim m p = (q, m') ∧ p ≤ q ∧ StrAt m' q (trim s) ∧ ∀ i < p, m'[i]? = m[i]? := by
  have hs : s = s.takeWhile isspace ++ s.dropWhile isspace := List.takeWhile_append_dropWhile.symm
  have hright : StrAt m (p + (s.takeWhile isspace).length) (s.dropWhile isspace) := StrAt.right (by rwa [← hs])
  unfold strtrim
  simp only [h.cstrAt_eq, hright.cstrAt_eq]
  by_cases hd : s.dropWhile isspace = []
  · rw [if_pos hd]
    refine ⟨_, m, rfl, Nat.le_add_right _ _, ?_, fun i _ => rfl⟩
    rw [trim, hd]
    rwa [hd] at hright
  · rw [if_neg hd]
    refine ⟨_, _, rfl, Nat.le_add_right _ _, ?_, fun i hi => List.getElem?_set_ne (by omega)⟩
    rw [← List.rdropWhile_append_rtakeWhile (p := isspace) (l := s.dropWhile isspace)] at hright
    exact hright.cut

theorem checkRedirect_off (hm : StrAt m 0 (s ++ [NL])) (h : after s = none) :
    ∃ m' save, checkRedirect m 0 = (.off, m', save) ∧ StrAt m' 0 (s ++ [NL]) := by
  have hs : s = s.takeWhile (· ∈ [GT]) ++ body s := List.takeWhile_append_dropWhile.symm
  have hb : Begins (· ∈ [GT]) (s.takeWhile (· ∈ [GT])) (body s ++ [NL]) [] := by
    refine ⟨fun c hc => by simpa using List.mem_takeWhile_imp hc, fun c hc => ?_, by simp, nofun⟩
    obtain hc | hc := List.mem_append.1 hc
    · simpa using (before_of_after_none h).2 c hc
    · rw [List.mem_singleton.1 hc]
      rfl
  have hsplit : s ++ [NL] = s.takeWhile (· ∈ [GT]) ++ (body s ++ [NL]) ++ [] := by rw [List.append_nil, ← List.append_assoc, ← hs]
  rw [hsplit] at hm
  obtain ⟨m', save, hstr, hcut⟩ := strtok_some hm (show (some 0).getD 0 = 0 from rfl) hb
  refine ⟨m', save + 0, ?_, ?_⟩
  · unfold checkRedirect
    rw [hstr]
    dsimp only
    rw [strtok_none hcut.rest (show none.getD save = save from rfl) nofun]
    rfl
  · rw [hsplit, List.append_nil]
    exact hcut.token

theorem checkRedirect_on (hl : Line s) (hm : StrAt m 0 (s ++ [NL])) (h : after s = some r) :
    ∃ file m' save, checkRedirect m 0 = (.on file, m', save) ∧ StrAt m' 0 (before s) ∧
      ((chomp r = [] ∧ file = none) ∨ (chomp r ≠ [] ∧ ∃ q, file = some q ∧ (before s).length < q ∧ StrAt m' q (trim r))) := by
  obtain ⟨hs, hb⟩ := eq_of_after_some h
  have hlr : Line r := hl.of_infix ⟨before s ++ [GT], [], by rw [List.append_nil, List.append_assoc]; exact hs.symm⟩
  have hsplit : s ++ [NL] = s.takeWhile (· ∈ [GT]) ++ (body s).takeWhile (· ∉ [GT]) ++ GT :: (r ++ [NL]) := by
    conv_lhs => rw [hs, before]
    simp only [List.append_assoc, List.cons_append]
  rw [hsplit] at hm
  -- the first call cuts off the command
  obtain ⟨m₁, q, hstr₁, hcut₁⟩ := strtok_some hm (show (some 0).getD 0 = 0 from rfl) ⟨hb.delims, hb.word, hb.ne_nil, fun c hc => hb.stops c hc⟩
  have hq : (before s).length < q := by
    have := hcut₁.stop
    rw [← before, List.length_append, List.tail_cons, List.length_cons] at this
    omega
  have hrest : StrAt m₁ q (r ++ [NL]) := hcut₁.rest
  -- the second one takes the whole rest
  obtain ⟨m₂, save₂, hstr₂, hcut₂⟩ := strtok_some (show StrAt m₁ q ([] ++ (r ++ [NL]) ++ []) by simpa using hrest)
    (show none.getD q = q from rfl) (show Begins (· ∈ ([] : List UInt8)) _ _ _ from ⟨nofun, fun c _ => rfl, by simp, nofun⟩)
  have heq₂ : ∀ i : Nat, m₂[i]? = m₁[i]? := fun i => hcut₂.frame i (by
    have := hcut₂.stop
    have := hcut₂.le
    simp only [List.length_append, List.length_nil, List.tail_nil] at *
    omega)
  have htok₂ : StrAt m₂ q (r ++ [NL]) := hrest.congr fun i _ _ => heq₂ i
  have hcmd₂ : StrAt m₂ 0 (before s) := hcut₁.token.congr fun i _ _ => heq₂ i
  -- the third one ends it at the newline
  obtain ⟨e, he, hnl⟩ := hlr.chomp_append
  have hnl' : ∀ c ∈ e ++ [NL], c = NL := fun c hc => by
    obtain hc | hc := List.mem_append.1 hc
    exacts [hnl c hc, List.mem_singleton.1 hc]
  rw [he, List.append_assoc] at htok₂
  unfold checkRedirect
  rw [hstr₁]
  dsimp only
  rw [hstr₂]
  dsimp only
  rw [List.length_nil, Nat.add_zero]
  obtain ⟨hx, hstr₃⟩ | ⟨hx, m₃, save₃, hstr₃, htok₃, hframe₃⟩ := strtok_line save₂ htok₂ not_mem_chomp hnl'
  · rw [hstr₃]
    exact ⟨none, m₂, _, rfl, hcmd₂, .inl ⟨hx, rfl⟩⟩
  · obtain ⟨q', m₄, htrim, hle, hfile, hframe⟩ := strtrim_spec htok₃
    rw [hstr₃]
    dsimp only
    rw [htrim]
    refine ⟨some q', m₄, save₃, rfl, hcmd₂.congr fun i _ hi => ?_, .inr ⟨hx, q', rfl, Nat.lt_of_lt_of_le hq hle, ?_⟩⟩
    · have hi : i < q := by omega
      rw [hframe i hi, hframe₃ i (.inl hi)]
    · rwa [hlr.trim_chomp] at hfile

theorem words_append_newlines {e : List UInt8} (h : ∀ c ∈ e, c = NL) : words (s ++ e) = words s :=
  fields_append_delims fun c hc => by rw [h c hc]; rfl

theorem Line.words_chomp (h : Line s) : words (chomp s) = words s := by
  obtain ⟨e, he, hnl⟩ := h.chomp_append
  conv_rhs => rw [he]
  exact (words_append_newlines hnl).symm

theorem words_of_not_mem (h : NL ∉ s) : words s = fields (· ∈ [SP]) s :=
  fields_congr fun c hc => by
    have : c ≠ NL := fun heq => h (heq ▸ hc)
    simp [this]

section
variable {x e : List UInt8} {save : Nat}

theorem parseCommand_ok (h : StrAt m 0 (x ++ e)) (hx : NL ∉ x) (he : ∀ c ∈ e, c = NL) (hlen : (words (x ++ e)).length < 10) :
    ∃ toks m' save', parseCommand m save 0 = .ok (toks, m', save') ∧ toks.map (cstrAt m') = words (x ++ e) ∧
      ∀ i, (x ++ e).length ≤ i → m'[i]? = m[i]? := by
  rw [words_append_newlines he, words_of_not_mem hx] at *
  unfold parseCommand
  obtain ⟨rfl, hs⟩ | ⟨-, m₁, save₁, hs, htok, hframe⟩ := strtok_line save h hx he
  · rw [hs]
    dsimp only
    have hend : StrAt m (0 + e.length) [] := StrAt.right (by rwa [List.append_nil])
    rw [strtok_none hend (show none.getD (0 + e.length) = _ from rfl) nofun]
    exact ⟨[], m, _, rfl, rfl, fun i _ => rfl⟩
  · rw [hs]
    obtain ⟨toks, m', save', hc, htoks, hframe'⟩ := collect_ok htok (show (some 0).getD save₁ = 0 from rfl) hlen
    refine ⟨toks, m', save', hc, htoks, fun i hi => ?_⟩
    rw [List.length_append] at hi
    rw [hframe' i (by omega), hframe i (by rw [List.length_append]; omega)]

theorem parseCommand_overflow (h : StrAt m 0 (x ++ e)) (hx : NL ∉ x) (he : ∀ c ∈ e, c = NL) (hlen : 10 ≤ (words (x ++ e)).length) :
    parseCommand m save 0 = .error .undefined := by
  rw [words_append_newlines he, words_of_not_mem hx] at hlen
  unfold parseCommand
  obtain ⟨rfl, -⟩ | ⟨-, m₁, save₁, hs, htok, -⟩ := strtok_line save h hx he
  · cases hlen
  · rw [hs]
    exact collect_overflow htok rfl hlen

end

/-- What the shell does for the segment `s`, and whether it ends. -/
def outcome (s : List UInt8) : Option Act × Bool :=
  match after s with
  | none => runCommand (words (before s)) none
  | some r =>
    if chomp r = [] ∨ SP ∈ trim r then (some .error, false) else runCommand (words (before s)) (some (trim r))

theorem handleCommand_eq (h : Line s) :
    handleCommand (s ++ [NL] ++ [0]) = if (words (before s)).length < 10 then .ok (outcome s) else .error .undefined := by
  have hm : StrAt (s ++ [NL] ++ [0]) 0 (s ++ [NL]) := strAt_append_nul (by simpa [NL] using h.noNul) []
  unfold handleCommand outcome
  cases hafter : after s with
  | none =>
    obtain ⟨m, save, hcheck, hcmd⟩ := checkRedirect_off hm hafter
    obtain ⟨e, he, hnl⟩ := h.chomp_append
    have hnl' : ∀ c ∈ e ++ [NL], c = NL := fun c hc => by
      obtain hc | hc := List.mem_append.1 hc
      exacts [hnl c hc, List.mem_singleton.1 hc]
    have hwords : words (before s) = words (chomp s ++ (e ++ [NL])) := by
      rw [(before_of_after_none hafter).1, words_append_newlines hnl', h.words_chomp]
    rw [he, List.append_assoc] at hcmd
    rw [hcheck, hwords]
    dsimp only
    by_cases hlen : (words (chomp s ++ (e ++ [NL]))).length < 10
    · obtain ⟨toks, m', save', hparse, htoks, -⟩ := parseCommand_ok hcmd not_mem_chomp hnl' hlen
      rw [if_pos hlen, hparse, ok_bind]
      dsimp only
      rw [htoks]
    · rw [if_neg hlen, parseCommand_overflow hcmd not_mem_chomp hnl' (Nat.le_of_not_lt hlen), error_bind]
  | some r =>
    obtain ⟨file, m, save, hcheck, hcmd, hfile⟩ := checkRedirect_on h hm hafter
    have hnl : NL ∉ before s := fun hmem => h.newline (by
      rw [(eq_of_after_some hafter).1, List.dropLast_append_of_ne_nil (List.cons_ne_nil _ _)]
      exact List.mem_append_left _ hmem)
    have hcmd' : StrAt m 0 (before s ++ []) := by rwa [List.append_nil]
    rw [hcheck]
    dsimp only
    by_cases hlen : (words (before s)).length < 10
    · obtain ⟨toks, m', save', hparse, htoks, hframe⟩ := parseCommand_ok hcmd' hnl nofun (by rwa [List.append_nil])
      rw [List.append_nil] at htoks hframe
      rw [if_pos hlen, hparse, ok_bind]
      dsimp only
      rw [htoks]
      obtain ⟨hx, rfl⟩ | ⟨hx, q, rfl, hq, hstr⟩ := hfile
      · rw [if_pos (.inl hx)]
      · have hstr' : StrAt m' q (trim r) := hstr.congr fun i hi _ => hframe i (by omega)
        dsimp only
        rw [hstr'.cstrAt_eq]
        simp only [hx, false_or]
        split <;> rfl
    · rw [if_neg hlen, parseCommand_overflow hcmd' hnl nofun (by rw [List.append_nil]; omega), error_bind]

end Ostep.Wish
