import Ostep.Wish.Parse

/-!
# Segments

`expected` says what a segment asks for: its words are a command, redirected to the one word behind the one `'>'`; anything else with a
`'>'` in it is an error. The shell does this for the segments of a line exactly when the line is `Manageable`.
-/

namespace Ostep.Wish

def segments (line : List UInt8) : List (List UInt8) := fields (· ∈ [AMP]) line

/-- What has to be done for a segment; nothing for a blank one. -/
def expected (s : List UInt8) : Option Act :=
  match s.splitOn GT with
  | [t] => if words t = [] then none else some (.command (words t) none)
  | [t, r] =>
    match words t, words r with
    | name :: args, [file] => some (.command (name :: args) (some file))
    | _, _ => some .error
  | _ => some .error

/-- The line is handled without leaving an array, and for each segment that which is expected is done; segments that are not reached ask
for nothing. -/
def Obeys (line : List UInt8) : Prop :=
  ∃ acts k, handleParallelCommand line = .ok acts ∧ (segments line).map expected = acts ++ List.replicate k none

/-- A segment without `'>'` is read as it should be. So is one whose first `'>'` with something before it is followed by nothing or by
several words, and a program's command with a single `'>'`, words before it and one word behind it that has no other white space around
it. -/
def Clear (s : List UInt8) : Prop :=
  (after s = none → GT ∉ s) ∧
    ∀ r ∈ after s, chomp r = [] ∨ SP ∈ trim r ∨
      (s.head? ≠ some GT ∧ GT ∉ r ∧ words (before s) ≠ [] ∧ (∀ name ∈ (words (before s)).head?, name ∉ [EXIT, CD, PATH]) ∧
        words r = [trim r])

/-- The segments fit into the arrays and are clear; when one of them is the command `exit`, those behind it are blank. -/
def Manageable : List (List UInt8) → Prop
  | [] => True
  | s :: ss =>
    s.length ≤ 48 ∧ (words (before s)).length ≤ 9 ∧ Clear s ∧
      if words s = [EXIT] ∧ GT ∉ s then ∀ t ∈ ss, ∀ c ∈ t, c ∈ [SP, NL] else Manageable ss

variable {s t r : List UInt8}

/-! ### What is expected -/

theorem splitOn_of_not_mem (h : GT ∉ s) : s.splitOn GT = [s] := by
  rw [List.splitOn_eq_splitOnP]
  exact List.splitOnP_eq_singleton fun c hc => beq_eq_false_iff_ne.2 fun heq => h (heq ▸ hc)

theorem splitOn_append_cons (h : GT ∉ t) : (t ++ GT :: r).splitOn GT = t :: r.splitOn GT := by
  have ht : ∀ c ∈ t, (c == GT) = false := fun c hc => beq_eq_false_iff_ne.2 fun heq => h (heq ▸ hc)
  rw [List.splitOn_eq_splitOnP, List.splitOn_eq_splitOnP]
  exact List.splitOnP_append_cons_of_forall_mem ht GT (beq_self_eq_true _) r

theorem expected_plain (h : GT ∉ s) : expected s = if words s = [] then none else some (.command (words s) none) := by
  rw [expected, splitOn_of_not_mem h]

theorem expected_redirected (ht : GT ∉ t) (hr : GT ∉ r) :
    expected (t ++ GT :: r) =
      match words t, words r with
      | name :: args, [file] => some (.command (name :: args) (some file))
      | _, _ => some .error := by
  rw [expected, splitOn_append_cons ht, splitOn_of_not_mem hr]

theorem expected_two (ht : GT ∉ t) (hr : GT ∈ r) : expected (t ++ GT :: r) = some .error := by
  obtain ⟨b, c, rfl, hb⟩ := List.eq_append_cons_of_mem hr
  obtain ⟨z, zs, hz⟩ : ∃ z zs, c.splitOn GT = z :: zs :=
    List.exists_cons_of_ne_nil (by rw [List.splitOn_eq_splitOnP]; exact List.splitOnP_ne_nil _ c)
  rw [expected, splitOn_append_cons ht, splitOn_append_cons hb, hz]

theorem expected_no_command (ht : GT ∉ t) (hw : words t = []) : expected (t ++ GT :: r) = some .error := by
  by_cases hr : GT ∈ r
  · exact expected_two ht hr
  · rw [expected_redirected ht hr, hw]

theorem expected_no_file (ht : GT ∉ t) (hw : ∀ file, words r ≠ [file]) : expected (t ++ GT :: r) = some .error := by
  by_cases hr : GT ∈ r
  · exact expected_two ht hr
  · rw [expected_redirected ht hr]
    split
    · next file _ h => exact absurd h (hw file)
    · rfl

theorem expected_eq_none_iff : expected s = none ↔ ∀ c ∈ s, c ∈ [SP, NL] := by
  have hblank : words s = [] ↔ ∀ c ∈ s, c ∈ [SP, NL] := by
    rw [words, fields_eq_nil_iff]
    simp only [decide_eq_true_eq]
  by_cases hgt : GT ∈ s
  · refine iff_of_false ?_ fun h => absurd (h GT hgt) (by decide)
    obtain ⟨t, r, rfl, ht⟩ := List.eq_append_cons_of_mem hgt
    by_cases hr : GT ∈ r
    · rw [expected_two ht hr]
      nofun
    · rw [expected_redirected ht hr]
      split <;> nofun
  · rw [expected_plain hgt, ← hblank]
    split
    · next h => exact iff_of_true rfl h
    · next h => exact iff_of_false nofun h

/-! ### What is done -/

theorem not_blank_of_not_isspace {c : UInt8} (h : isspace c = false) : decide (c ∈ [SP, NL]) = false := by
  refine decide_eq_false fun hc => ?_
  obtain rfl | rfl : c = SP ∨ c = NL := by simpa using hc
  · cases h
  · cases h

theorem words_ne_singleton (h : SP ∈ trim r) (file : List UInt8) : words r ≠ [file] := by
  obtain ⟨x, y, hxy⟩ := List.append_of_mem h
  have hd : r.dropWhile isspace = x ++ SP :: (y ++ (r.dropWhile isspace).rtakeWhile isspace) := by
    rw [← List.cons_append, ← List.append_assoc, ← hxy]
    exact List.rdropWhile_append_rtakeWhile.symm
  have hr : r = (r.takeWhile isspace ++ x) ++ SP :: (y ++ (r.dropWhile isspace).rtakeWhile isspace) := by
    rw [List.append_assoc, ← hd]
    exact List.takeWhile_append_dropWhile.symm
  -- the first character is not white space, nor is the last
  have hfirst : ∃ c ∈ x, isspace c = false := by
    cases x with
    | nil =>
      have : isspace SP = false := head_dropWhile (by rw [hd]; rfl)
      cases this
    | cons c x => exact ⟨c, List.mem_cons_self, head_dropWhile (by rw [hd]; rfl)⟩
  have hlast : ∃ c ∈ y, isspace c = false := by
    have hne : trim r ≠ [] := List.ne_nil_of_mem h
    have hl : isspace ((trim r).getLast hne) = false := Bool.eq_false_iff.2 (List.rdropWhile_last_not isspace _ hne)
    obtain rfl | ⟨y', c, rfl⟩ := List.eq_nil_or_concat y
    · have : isspace SP = false := by simpa [hxy] using hl
      cases this
    · refine ⟨c, by simp, ?_⟩
      simpa [hxy] using hl
  have hwords : ∀ l : List UInt8, (∃ c ∈ l, isspace c = false) → fields (· ∈ [SP, NL]) l ≠ [] := by
    rintro l ⟨c, hc, hs⟩ hnil
    have := fields_eq_nil_iff.1 hnil c hc
    rw [not_blank_of_not_isspace hs] at this
    cases this
  intro hf
  rw [hr, words, fields_append_cons _ _ (by decide)] at hf
  obtain ⟨hx, -⟩ | ⟨-, hy⟩ := List.append_eq_singleton_iff.1 hf
  · exact hwords _ (hfirst.imp fun c hc => ⟨List.mem_append_right _ hc.1, hc.2⟩) hx
  · exact hwords _ (hlast.imp fun c hc => ⟨List.mem_append_left _ hc.1, hc.2⟩) hy

theorem runCommand_ne_error (program : List (List UInt8)) (file : Option (List UInt8)) : (runCommand program file).1 ≠ some .error := by
  unfold runCommand
  split
  · nofun
  · split <;> nofun

theorem runCommand_none (program : List (List UInt8)) :
    runCommand program none = (if program = [] then none else some (Act.command program none), decide (program = [EXIT])) := by
  unfold runCommand
  split
  · rfl
  · next name args =>
    rw [if_neg (List.cons_ne_nil _ _)]
    split
    · simp
    · next h =>
      have : name ≠ EXIT := fun he => h (.inl he)
      simp [this]

theorem runCommand_some_iff {file name : List UInt8} {args : List (List UInt8)} :
    (runCommand (name :: args) (some file)).1 = some (.command (name :: args) (some r)) ↔ name ∉ [EXIT, CD, PATH] ∧ file = r := by
  have hmem : name ∈ [EXIT, CD, PATH] ↔ name = EXIT ∨ name = CD ∨ name = PATH := by simp
  unfold runCommand
  dsimp only
  rw [hmem]
  split
  · next h => exact iff_of_false nofun fun h' => h'.1 h
  · next h => simp [h]

theorem not_mem_before (hs : s.head? ≠ some GT) : GT ∉ before s := by
  have hlead : s.takeWhile (· ∈ [GT]) = [] := by
    cases s with
    | nil => rfl
    | cons c s => exact List.takeWhile_cons_of_neg (by simpa using hs)
  rw [before, hlead, List.nil_append]
  exact fun h => by simpa using List.mem_takeWhile_imp h

theorem expected_of_head (h : after s = some r) (hs : s.head? = some GT) : expected s = some .error := by
  have heq := (eq_of_after_some h).1
  have hb := (eq_of_after_some h).2
  obtain ⟨t, rfl⟩ : ∃ t, s = GT :: t := List.head?_eq_some_iff.1 hs
  refine expected_two (t := []) List.not_mem_nil ?_
  have hbefore : (before (GT :: t)).length ≠ 0 := by
    rw [before, List.length_append]
    have := List.length_pos_iff.2 hb.ne_nil
    omega
  obtain ⟨c, x, hx⟩ := List.exists_cons_of_ne_nil (List.length_eq_zero_iff.not.1 hbefore)
  rw [hx, List.cons_append] at heq
  rw [(List.cons.inj heq).2]
  exact List.mem_append_right _ List.mem_cons_self

/-- The shell does what is expected of it exactly for the clear segments. -/
theorem outcome_eq_expected_iff (hl : Line s) : (outcome s).1 = expected s ↔ Clear s := by
  unfold outcome Clear
  cases hafter : after s with
  | none =>
    obtain ⟨hbefore, hbody⟩ := before_of_after_none hafter
    dsimp only
    rw [hbefore, runCommand_none]
    by_cases hgt : GT ∈ s
    · refine iff_of_false (fun h => ?_) fun h => h.1 rfl hgt
      -- all of them are in front, and no word is before the first
      have hhead : s.head? = some GT := by
        cases s with
        | nil => cases hgt
        | cons c s =>
          by_contra hne
          have hall : body (c :: s) = c :: s := List.dropWhile_cons_of_neg (by simpa using hne)
          rw [hall] at hbody
          exact hbody GT hgt List.mem_cons_self
      obtain ⟨t, rfl⟩ : ∃ t, s = GT :: t := List.head?_eq_some_iff.1 hhead
      rw [show GT :: t = [] ++ GT :: t from rfl, expected_no_command List.not_mem_nil rfl] at h
      dsimp only at h
      split at h <;> cases h
    · rw [expected_plain hgt]
      exact iff_of_true rfl ⟨fun _ => hgt, nofun⟩
  | some r =>
    have heq := (eq_of_after_some hafter).1
    simp only [reduceCtorEq, false_imp_iff, true_and, Option.mem_some_iff, forall_eq']
    by_cases hhead : s.head? = some GT
    · rw [expected_of_head hafter hhead]
      split
      · next h => exact iff_of_true rfl (h.imp_right .inl)
      · next h =>
        refine iff_of_false (runCommand_ne_error _ _) ?_
        rintro (h' | h' | h')
        exacts [h (.inl h'), h (.inr h'), h'.1 hhead]
    · have hb := not_mem_before hhead
      have hlr : Line r := hl.of_infix ⟨before s ++ [GT], [], by rw [List.append_nil, List.append_assoc]; exact heq.symm⟩
      split
      · next h =>
        refine iff_of_true ?_ (h.imp_right .inl)
        rw [heq, expected_no_file hb]
        intro file
        obtain h | h := h
        · rw [← hlr.words_chomp, h]
          nofun
        · exact words_ne_singleton h file
      · next h =>
        obtain ⟨hx, hsp⟩ := not_or.1 h
        simp only [hx, hsp, hhead, false_or, not_false_eq_true, true_and, ne_eq]
        by_cases hr : GT ∈ r
        · rw [heq, expected_two hb hr]
          exact iff_of_false (runCommand_ne_error _ _) fun h => h.1 hr
        · rw [heq, expected_redirected hb hr, ← heq]
          cases hw : words (before s) with
          | nil => exact iff_of_false (runCommand_ne_error _ _) fun h => h.2.1 rfl
          | cons name args =>
            by_cases hfile : ∃ file, words r = [file]
            · obtain ⟨file, hf⟩ := hfile
              rw [hf]
              dsimp only
              rw [runCommand_some_iff]
              simp [hr, eq_comm]
            · refine iff_of_false ?_ fun h => hfile ⟨_, h.2.2.2⟩
              split
              · next file _ hf => exact absurd ⟨file, hf⟩ hfile
              · exact runCommand_ne_error _ _

theorem Clear.ended_iff (h : Clear s) : (outcome s).2 = true ↔ words s = [EXIT] ∧ GT ∉ s := by
  unfold outcome
  cases hafter : after s with
  | none =>
    dsimp only
    rw [(before_of_after_none hafter).1, runCommand_none]
    simp [h.1 hafter]
  | some r =>
    have hgt : GT ∈ s := by
      rw [(eq_of_after_some hafter).1]
      exact List.mem_append_right _ List.mem_cons_self
    refine iff_of_false ?_ fun h' => h'.2 hgt
    dsimp only
    split
    · nofun
    · next hx =>
      obtain ⟨hx, hsp⟩ := not_or.1 hx
      obtain ⟨-, -, hne, hname, -⟩ := ((h.2 r hafter).resolve_left hx).resolve_left hsp
      obtain ⟨name, args, hw⟩ := List.exists_cons_of_ne_nil hne
      rw [hw] at hname ⊢
      have hname : ¬ (name = EXIT ∨ name = CD ∨ name = PATH) := by simpa using hname
      unfold runCommand
      dsimp only
      rw [if_neg hname]
      nofun

/-! ### The loop over the segments -/

theorem handleCommands_iff {ss : List (List UInt8)} (hl : ∀ s ∈ ss, Line s) :
    (∃ acts k, handleCommands ss = .ok acts ∧ ss.map expected = acts ++ List.replicate k none) ↔ Manageable ss := by
  induction ss with
  | nil => exact iff_of_true ⟨[], 0, rfl, rfl⟩ trivial
  | cons s ss ih =>
    have hline := hl s List.mem_cons_self
    specialize ih fun t ht => hl t (List.mem_cons_of_mem _ ht)
    unfold handleCommands Manageable
    by_cases hlen : 50 < s.length + 2
    · rw [if_pos hlen]
      exact iff_of_false nofun fun h => absurd h.1 (by omega)
    rw [if_neg hlen, handleCommand_eq hline]
    by_cases hargs : (words (before s)).length < 10
    swap
    · rw [if_neg hargs]
      exact iff_of_false nofun fun h => absurd h.2.1 (by omega)
    rw [if_pos hargs, ok_bind]
    have hfit : s.length ≤ 48 ∧ (words (before s)).length ≤ 9 := by omega
    simp only [hfit, true_and]
    cases hend : (outcome s).2 with
    | true =>
      simp only [if_true]
      constructor
      · rintro ⟨acts, k, hacts, hmap⟩
        obtain rfl := Except.ok.inj hacts
        obtain ⟨hact, hrest⟩ := List.cons.inj hmap
        have hclear := (outcome_eq_expected_iff hline).1 hact.symm
        refine ⟨hclear, ?_⟩
        rw [if_pos (hclear.ended_iff.1 hend)]
        exact fun t ht => expected_eq_none_iff.1 (List.eq_of_mem_replicate (hrest ▸ List.mem_map_of_mem ht))
      · rintro ⟨hclear, hrest⟩
        rw [if_pos (hclear.ended_iff.1 hend)] at hrest
        refine ⟨_, ss.length, rfl, ?_⟩
        rw [List.map_cons, (outcome_eq_expected_iff hline).2 hclear, List.singleton_append]
        refine congrArg _ (List.eq_replicate_iff.2 ⟨List.length_map .., fun a ha => ?_⟩)
        obtain ⟨t, ht, rfl⟩ := List.mem_map.1 ha
        exact expected_eq_none_iff.2 (hrest t ht)
    | false =>
      simp only [Bool.false_eq_true, if_false]
      constructor
      · rintro ⟨acts, k, hacts, hmap⟩
        obtain ⟨acts', hacts', heq⟩ := bind_ok hacts
        obtain rfl := Except.ok.inj heq
        obtain ⟨hact, hrest⟩ := List.cons.inj hmap
        have hclear := (outcome_eq_expected_iff hline).1 hact.symm
        refine ⟨hclear, ?_⟩
        rw [if_neg fun h => absurd (hclear.ended_iff.2 h) (by rw [hend]; nofun)]
        exact ih.1 ⟨acts', k, hacts', hrest⟩
      · rintro ⟨hclear, hrest⟩
        rw [if_neg fun h => absurd (hclear.ended_iff.2 h) (by rw [hend]; nofun)] at hrest
        obtain ⟨acts, k, hacts, hmap⟩ := ih.2 hrest
        refine ⟨_, k, by rw [hacts]; rfl, ?_⟩
        rw [List.map_cons, (outcome_eq_expected_iff hline).2 hclear, hmap, List.cons_append]

/-- The shell treats a line as it should exactly when it has at most nine segments and they are manageable. -/
theorem obeys_iff_manageable {line : List UInt8} (h : Line line) :
    Obeys line ↔ (segments line).length ≤ 9 ∧ Manageable (segments line) := by
  have hm : StrAt (line ++ [0]) 0 line := strAt_append_nul h.noNul []
  have hl : ∀ s ∈ segments line, Line s := fun s hs => h.of_infix (infix_of_mem_fields hs)
  unfold Obeys handleParallelCommand
  by_cases hlen : (segments line).length < 10
  · obtain ⟨toks, m, save, hc, htoks, -⟩ := collect_ok hm (show (some 0).getD 0 = 0 from rfl) hlen
    rw [hc, ok_bind]
    dsimp only
    rw [htoks, ← segments, handleCommands_iff hl]
    exact (and_iff_right (by omega)).symm
  · rw [collect_overflow hm rfl (Nat.le_of_not_lt hlen)]
    exact iff_of_false nofun fun h => hlen (by omega)

def twoCommands : List UInt8 := [108, 115, 32, 62, 32, 97, 32, 38, 32, 98, 32, 99, 10]

theorem segments_twoCommands : segments twoCommands = [[108, 115, 32, 62, 32, 97, 32], [32, 98, 32, 99, 10]] := by decide

theorem obeys_twoCommands : Line twoCommands ∧ Obeys twoCommands := by
  have hline : Line twoCommands := ⟨by decide, by decide⟩
  refine ⟨hline, (obeys_iff_manageable hline).2 ?_⟩
  rw [segments_twoCommands]
  refine ⟨by decide, by decide, by decide, ⟨by decide, ?_⟩, ?_⟩
  · rintro r ⟨⟩
    exact .inr (.inr ⟨by decide, by decide, by decide, by decide, by decide⟩)
  · rw [if_neg (by decide)]
    refine ⟨by decide, by decide, ⟨by decide, nofun⟩, ?_⟩
    rw [if_neg (by decide)]
    trivial

/-- `"ls > \n"`: there is no file name, but `ls` is run, redirected to the file with the empty name. -/
def noFile : List UInt8 := [108, 115, 32, 62, 32, 10]

theorem not_obeys_noFile : ¬ Obeys noFile := by
  rintro ⟨acts, k, hacts, hmap⟩
  have hrun : handleParallelCommand noFile = .ok [some (.command [[108, 115]] (some []))] := by decide
  have hexp : (segments noFile).map expected = [some .error] := by decide
  obtain rfl := Except.ok.inj (hrun.symm.trans hacts)
  rw [hexp] at hmap
  cases hmap

end Ostep.Wish
