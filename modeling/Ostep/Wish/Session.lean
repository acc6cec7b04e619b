import Ostep.Wish.Parse
import Ostep.Wish.Path
import Ostep.Wish.Segments

/-!
# Sessions of the shell

A session handles line after line, with the table `path` carried from each command to the next. `Inside` says of the text of the lines,
and of the directories that the table holds, that no array is left: `commands` and `program` with their NULLs, `command` and
`program_path` with their NULs. The table itself always has room.
-/

namespace Ostep.Wish

def runAct (env : Env) (path : Nat → Option Dir) : Option Act → Except Stop (Nat → Option Dir)
  | some (.command (name :: args) _) =>
    if name = EXIT ∨ name = CD then .ok path
    else if name = PATH then runPath args path
    else do
      let _ ← runProgram env name path
      .ok path
  | _ => .ok path

/-- The second loop of `handle_parallel_command` from segment `k` on: the table behind it, `none` when the shell has ended. -/
def runCommands (env : Nat → Env) : Nat → List (List UInt8) → (Nat → Option Dir) → Except Stop (Option (Nat → Option Dir))
  | _, [], path => .ok (some path)
  | k, c :: cs, path =>
    if 50 < c.length + 2 then .error .undefined
    else do
      let (act, ended) ← handleCommand (c ++ [NL] ++ [0])
      let path ← runAct (env k) path act
      if ended then .ok none else runCommands env (k + 1) cs path

def runLine (env : Nat → Env) (line : List UInt8) (path : Nat → Option Dir) : Except Stop (Option (Nat → Option Dir)) := do
  let (commands, m, _) ← collect [AMP] 10 (strtok (line ++ [0]) 0 (some 0) [AMP])
  runCommands env 0 (commands.map (cstrAt m)) path

def runLines : List (List UInt8 × (Nat → Env)) → (Nat → Option Dir) → Except Stop Unit
  | [], _ => .ok ()
  | (line, env) :: lines, path => do
    match ← runLine env line path with
    | none => .ok ()
    | some path => runLines lines path

/-! ### What fits -/

def dirsAfter (ds : List Dir) : Option Act → List Dir
  | some (.command (name :: args) _) => if name = PATH then args.map .block else ds
  | _ => ds

/-- The names of the program fit into `program_path`. -/
def ProgramFits (env : Env) (ds : List Dir) : Option Act → Prop
  | some (.command (name :: _) _) =>
    name ∉ [EXIT, CD, PATH] → env.fork = true → ∀ n ∈ tried env.access (names env name ds 0), n.length < 50
  | _ => True

/-- The segments fit, with the directories `ds` in front of them. -/
def SegmentsFit (env : Nat → Env) : Nat → List Dir → List (List UInt8) → Prop
  | _, _, [] => True
  | k, ds, s :: ss =>
    s.length ≤ 48 ∧ (words (before s)).length ≤ 9 ∧ ProgramFits (env k) ds (outcome s).1 ∧
      ((outcome s).2 = false → SegmentsFit env (k + 1) (dirsAfter ds (outcome s).1) ss)

/-- The directories behind the segments, `none` when one of them ends the shell. -/
def dirsBehind : List Dir → List (List UInt8) → Option (List Dir)
  | ds, [] => some ds
  | ds, s :: ss => if (outcome s).2 then none else dirsBehind (dirsAfter ds (outcome s).1) ss

def text (line : List UInt8) : List UInt8 := line.takeWhile (· ≠ 0)

/-- All lines fit that are reached. -/
def Inside : List Dir → List (List UInt8 × (Nat → Env)) → Prop
  | _, [] => True
  | ds, (line, env) :: lines =>
    (segments (text line)).length ≤ 9 ∧ SegmentsFit env 0 ds (segments (text line)) ∧
      ∀ ds' ∈ dirsBehind ds (segments (text line)), Inside ds' lines

variable {path : Nat → Option Dir} {ds : List Dir} {s line : List UInt8}

/-! ### One command -/

theorem runCommand_args {program args : List (List UInt8)} {file file' : Option (List UInt8)}
    (h : (runCommand program file).1 = some (.command args file')) : args = program := by
  unfold runCommand at h
  split at h
  · cases h
  · split at h
    · cases h
      rfl
    · cases h
      rfl

theorem outcome_args {args : List (List UInt8)} {file : Option (List UInt8)} (h : (outcome s).1 = some (.command args file)) :
    args = words (before s) := by
  unfold outcome at h
  split at h
  · exact runCommand_args h
  · split at h
    · cases h
    · exact runCommand_args h

/-- A command stays inside exactly when its program does, and the table then holds what it should. -/
theorem runAct_spec (env : Env) (h : Holds path ds) (act : Option Act) (hargs : ∀ args file, act = some (.command args file) → args.length ≤ 9) :
    (ProgramFits env ds act → ∃ path', runAct env path act = .ok path' ∧ Holds path' (dirsAfter ds act)) ∧
      (¬ ProgramFits env ds act → runAct env path act = .error .undefined) := by
  have hkeep : (True → ∃ path', (Except.ok path : Except Stop _) = .ok path' ∧ Holds path' ds) ∧
      (¬ True → (Except.ok path : Except Stop (Nat → Option Dir)) = .error .undefined) :=
    ⟨fun _ => ⟨path, rfl, h⟩, fun hn => absurd trivial hn⟩
  match act, hargs with
  | none, _ => exact hkeep
  | some .error, _ => exact hkeep
  | some (.command [] _), _ => exact hkeep
  | some (.command (name :: args) file), hargs =>
    simp only [runAct, dirsAfter, ProgramFits]
    by_cases hname : name = EXIT ∨ name = CD
    · have hbuiltin : name ∈ [EXIT, CD, PATH] := by
        rcases hname with rfl | rfl <;> decide
      have hpath : name ≠ PATH := by
        rcases hname with rfl | rfl <;> decide
      rw [if_pos hname, if_neg hpath]
      exact ⟨fun _ => ⟨path, rfl, h⟩, fun hn => absurd (fun hno => absurd hbuiltin hno) hn⟩
    rw [if_neg hname]
    by_cases hpath : name = PATH
    · have hlen : args.length ≤ 9 := by
        have := hargs _ _ rfl
        rw [List.length_cons] at this
        omega
      rw [if_pos hpath, if_pos hpath]
      refine ⟨fun _ => runPath_spec path args hlen, fun hn => absurd (fun hno => ?_) hn⟩
      exact absurd (by rw [hpath]; decide) hno
    rw [if_neg hpath, if_neg hpath, runProgram]
    have hprogram : name ∉ [EXIT, CD, PATH] := by
      simp only [List.mem_cons, List.not_mem_nil, or_false]
      rintro (he | he | he)
      exacts [hname (.inl he), hname (.inr he), hpath he]
    simp only [hprogram, not_false_eq_true, true_imp_iff]
    cases hfork : env.fork with
    | false => exact ⟨fun _ => ⟨path, rfl, h⟩, fun hn => absurd (fun hno => by cases hno) hn⟩
    | true =>
      simp only [if_true, true_imp_iff]
      rw [h.tryPaths]
      refine ⟨fun hfits => ⟨path, ?_, h⟩, fun hno => ?_⟩
      · rw [if_pos hfits]
        rfl
      · rw [if_neg hno]
        rfl

/-! ### The segments of a line -/

/-- The table behind the segments holds the directories behind them. -/
def Agrees : Option (Nat → Option Dir) → Option (List Dir) → Prop
  | none, none => True
  | some path, some ds => Holds path ds
  | _, _ => False

theorem runCommands_spec (env : Nat → Env) {ss : List (List UInt8)} (hl : ∀ s ∈ ss, Line s) (h : Holds path ds) (k : Nat) :
    (SegmentsFit env k ds ss → ∃ r, runCommands env k ss path = .ok r ∧ Agrees r (dirsBehind ds ss)) ∧
      (¬ SegmentsFit env k ds ss → runCommands env k ss path = .error .undefined) := by
  induction ss generalizing path ds k with
  | nil => exact ⟨fun _ => ⟨some path, rfl, h⟩, fun hn => absurd trivial hn⟩
  | cons s ss ih =>
    have hline := hl s List.mem_cons_self
    unfold runCommands SegmentsFit dirsBehind
    by_cases hlen : 50 < s.length + 2
    · rw [if_pos hlen]
      exact ⟨fun hfit => absurd hfit.1 (by omega), fun _ => rfl⟩
    rw [if_neg hlen, handleCommand_eq hline]
    by_cases hargs : (words (before s)).length < 10
    swap
    · rw [if_neg hargs]
      exact ⟨fun hfit => absurd hfit.2.1 (by omega), fun _ => rfl⟩
    rw [if_pos hargs, ok_bind]
    have hfit : s.length ≤ 48 ∧ (words (before s)).length ≤ 9 := by omega
    simp only [hfit, true_and]
    obtain ⟨hin, hout⟩ := runAct_spec (env k) h (outcome s).1 fun args file hact => by
      rw [outcome_args hact]
      exact hfit.2
    by_cases hprog : ProgramFits (env k) ds (outcome s).1
    swap
    · rw [hout hprog]
      exact ⟨fun hfit => absurd hfit.1 hprog, fun _ => rfl⟩
    obtain ⟨path', hrun, hholds⟩ := hin hprog
    rw [hrun, ok_bind]
    simp only [hprog, true_and]
    cases hend : (outcome s).2 with
    | true =>
      simp only [if_true]
      exact ⟨fun _ => ⟨none, rfl, trivial⟩, fun hn => absurd (fun hno => by cases hno) hn⟩
    | false =>
      simp only [Bool.false_eq_true, if_false, true_imp_iff]
      exact ih (fun t ht => hl t (List.mem_cons_of_mem _ ht)) hholds (k + 1)

/-! ### Lines -/

theorem not_mem_text (line : List UInt8) : 0 ∉ text line := fun h => by simpa using List.mem_takeWhile_imp h

theorem strAt_text (line : List UInt8) : StrAt (line ++ [0]) 0 (text line) := by
  have hsplit : text line ++ line.dropWhile (· ≠ 0) = line := List.takeWhile_append_dropWhile
  obtain ⟨r, hr⟩ : ∃ r, line ++ [0] = text line ++ 0 :: r := by
    cases hd : line.dropWhile (· ≠ 0) with
    | nil =>
      rw [hd, List.append_nil] at hsplit
      exact ⟨[], by rw [hsplit]⟩
    | cons c r =>
      have hhead : (line.dropWhile (· ≠ 0)).head? = some c := by rw [hd, List.head?_cons]
      have hc : c = 0 := by simpa using head_dropWhile hhead
      refine ⟨r ++ [0], ?_⟩
      rw [hd, hc] at hsplit
      rw [← List.cons_append, ← List.append_assoc, hsplit]
  rw [hr]
  exact strAt_append_nul (not_mem_text line) r

theorem line_text (h : NL ∉ line.dropLast) : Line (text line) := by
  refine ⟨not_mem_text line, fun hnl => h ?_⟩
  obtain ⟨r, hr⟩ : text line <+: line := List.takeWhile_prefix _
  rw [← hr]
  cases r with
  | nil => rwa [List.append_nil]
  | cons c r =>
    rw [List.dropLast_append_of_ne_nil (List.cons_ne_nil c r)]
    exact List.mem_append_left _ (List.dropLast_subset _ hnl)

theorem runLine_spec (env : Nat → Env) (hline : NL ∉ line.dropLast) (h : Holds path ds) :
    ((segments (text line)).length ≤ 9 ∧ SegmentsFit env 0 ds (segments (text line)) →
      ∃ r, runLine env line path = .ok r ∧ Agrees r (dirsBehind ds (segments (text line)))) ∧
    (¬ ((segments (text line)).length ≤ 9 ∧ SegmentsFit env 0 ds (segments (text line))) → runLine env line path = .error .undefined) := by
  have hm := strAt_text line
  have hl : ∀ s ∈ segments (text line), Line s := fun s hs => Line.of_infix (line_text hline) (infix_of_mem_fields hs)
  unfold runLine
  by_cases hlen : (segments (text line)).length < 10
  · obtain ⟨toks, m, save, hc, htoks, -⟩ := collect_ok hm (show (some 0).getD 0 = 0 from rfl) hlen
    rw [hc, ok_bind]
    dsimp only
    rw [htoks, ← segments]
    obtain ⟨hin, hout⟩ := runCommands_spec env hl h 0
    exact ⟨fun hfit => hin hfit.2, fun hn => hout fun hfit => hn ⟨by omega, hfit⟩⟩
  · rw [collect_overflow hm rfl (Nat.le_of_not_lt hlen)]
    exact ⟨fun hfit => absurd hfit.1 (by omega), fun _ => rfl⟩

/-- No store of a session leaves its array exactly when the lines fit. -/
theorem runLines_iff {lines : List (List UInt8 × (Nat → Env))} (hlines : ∀ l ∈ lines, NL ∉ l.1.dropLast) (h : Holds path ds) :
    runLines lines path = .ok () ↔ Inside ds lines := by
  induction lines generalizing path ds with
  | nil => exact iff_of_true rfl trivial
  | cons l lines ih =>
    obtain ⟨line, env⟩ := l
    obtain ⟨hin, hout⟩ := runLine_spec env (hlines _ List.mem_cons_self) h
    rw [runLines, Inside, ← and_assoc]
    by_cases hfit : (segments (text line)).length ≤ 9 ∧ SegmentsFit env 0 ds (segments (text line))
    swap
    · rw [hout hfit]
      exact iff_of_false nofun fun hi => hfit hi.1
    obtain ⟨r, hrun, hagree⟩ := hin hfit
    rw [hrun, ok_bind, and_iff_right hfit]
    cases hb : dirsBehind ds (segments (text line)) with
    | none =>
      rw [hb] at hagree
      cases r with
      | none => exact iff_of_true rfl nofun
      | some path' => exact hagree.elim
    | some ds' =>
      rw [hb] at hagree
      cases r with
      | none => exact hagree.elim
      | some path' =>
        have hrest := ih (fun l hl => hlines l (List.mem_cons_of_mem _ hl)) hagree
        simpa using hrest

def nothing : Env := ⟨true, fun _ => false, fun _ => []⟩

/-- The lines `"path /a"` and `"ls -l & ls > f"`. -/
theorem inside_twoLines : Inside [.literal [47, 98, 105, 110]]
    [([112, 97, 116, 104, 32, 47, 97, 10], fun _ => nothing),
      ([108, 115, 32, 45, 108, 32, 38, 32, 108, 115, 32, 62, 32, 102, 10], fun _ => nothing)] :=
  (runLines_iff (by decide) holds_initialPath).1 (by decide)

/-- Ten segments, a segment of 49 bytes, ten words, and the name of a program that is too long although both lines are short. -/
theorem runLines_overflow :
    runLines [((List.replicate 10 [97, AMP]).flatten ++ [NL], fun _ => nothing)] initialPath = .error .undefined ∧
    runLines [(List.replicate 48 97 ++ [NL], fun _ => nothing)] initialPath = .error .undefined ∧
    runLines [((List.replicate 10 [97, SP]).flatten ++ [NL], fun _ => nothing)] initialPath = .error .undefined ∧
    runLines [(PATH ++ [SP] ++ List.replicate 42 97 ++ [NL], fun _ => nothing), (List.replicate 7 97 ++ [NL], fun _ => nothing)] initialPath =
      .error .undefined := by
  refine ⟨?_, ?_, ?_, ?_⟩ <;> decide

end Ostep.Wish
