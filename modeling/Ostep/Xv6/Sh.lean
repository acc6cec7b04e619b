import Mathlib.Data.List.DropRight
import Mathlib.Tactic.Tauto
import Ostep.Lib.CInt
import Ostep.Lib.Strtok

/-!
# The parser of the xv6 shell (`src/sh.c`)

The parser goes through the string with one pointer, `*ps`. A word is a pair of pointers to its beginning and its end; only when the whole
line has been parsed does `nulterminate` write NULs at the ends. Loops and recursion are cut off after a number of steps; `parsecmd_ends` says that
a number linear in the length of the string is always enough.
-/

namespace Ostep.Xv6.Sh

def whitespace : List UInt8 := [32, 9, 13, 10, 11]
def symbols : List UInt8 := [60, 124, 62, 38, 59, 40, 41]

def MAXARGS : Nat := 10
def O_RDONLY : Nat := 0x000
def O_WRONLY : Nat := 0x001
def O_CREATE : Nat := 0x200

inductive Fail where
  | panic (msg : String)
  /-- `printf(2, "leftovers: %s\n", s); panic("syntax");`. -/
  | leftovers (s : List UInt8)
  /-- Cut off. -/
  | endless
deriving DecidableEq

/-- A command, with words and file names of type `α`. -/
inductive Cmd (α : Type) where
  | exec (argv : List α)
  | redir (cmd : Cmd α) (file : α) (mode fd : Nat)
  | pipe (left right : Cmd α)
  | list (left right : Cmd α)
  | back (cmd : Cmd α)
deriving DecidableEq

/-- `argv[i]` and `eargv[i]`, or `file` and `efile`. -/
abbrev Span := Nat × Nat

/-- The pointer `s`, and the string from there to `es`. -/
structure Cursor where
  pos : Nat
  rest : List UInt8
deriving DecidableEq

namespace Cursor

def advance (c : Cursor) (n : Nat) : Cursor := ⟨c.pos + n, c.rest.drop n⟩

/-- `while(s < es && strchr(whitespace, *s)) s++;`. -/
def skip (c : Cursor) : Cursor := c.advance (c.rest.takeWhile (· ∈ whitespace)).length

end Cursor

/-- What `gettoken` returns, and what it stores in `*q`, `*eq` and `*ps`. -/
structure Token where
  ret : UInt8
  q : Nat
  eq : Nat
  next : Cursor

def gettoken (c : Cursor) : Token :=
  let c := c.skip
  let token (ret : UInt8) (len : Nat) : Token := ⟨ret, c.pos, c.pos + len, (c.advance len).skip⟩
  match c.rest with
  | [] => token 0 0
  | b :: r =>
    if b ∈ [124, 40, 41, 59, 38, 60] then token b 1
    else if b = 62 then
      if r.head? = some 62 then token 43 2 else token 62 1
    else token 97 ((b :: r).takeWhile fun b => b ∉ whitespace ∧ b ∉ symbols).length

/-- The result, and `*ps`. -/
def peek (c : Cursor) (toks : List UInt8) : Bool × Cursor := (c.skip.rest.head?.any (· ∈ toks), c.skip)

def parseredirs : Nat → Cmd Span → Cursor → Except Fail (Cmd Span × Cursor)
  | 0, _, _ => .error .endless
  | n + 1, cmd, c =>
    let p := peek c [60, 62]
    if p.1 then
      let tok := gettoken p.2
      let file := gettoken tok.next
      if file.ret ≠ 97 then .error (.panic "missing file for redirection")
      else if tok.ret = 60 then parseredirs n (.redir cmd (file.q, file.eq) O_RDONLY 0) file.next
      else if tok.ret = 62 ∨ tok.ret = 43 then parseredirs n (.redir cmd (file.q, file.eq) (O_WRONLY ||| O_CREATE) 1) file.next
      else parseredirs n cmd file.next
    else .ok (cmd, p.2)

def parseback : Nat → Cmd Span → Cursor → Except Fail (Cmd Span × Cursor)
  | 0, _, _ => .error .endless
  | n + 1, cmd, c =>
    let p := peek c [38]
    if p.1 then parseback n (.back cmd) (gettoken p.2).next else .ok (cmd, p.2)

/-- The command that `parseexec` has allocated, inside its redirections, gets its arguments. -/
def Cmd.fill (argv : List Span) : Cmd Span → Cmd Span
  | .exec _ => .exec argv
  | .redir cmd file mode fd => .redir (cmd.fill argv) file mode fd
  | cmd => cmd

def parseargs : Nat → Cmd Span → List Span → Cursor → Except Fail (Cmd Span × Cursor)
  | 0, _, _, _ => .error .endless
  | n + 1, ret, argv, c =>
    let p := peek c [124, 41, 38, 59]
    if p.1 then .ok (ret.fill argv, p.2)
    else
      let tok := gettoken p.2
      if tok.ret = 0 then .ok (ret.fill argv, tok.next)
      else if tok.ret ≠ 97 then .error (.panic "syntax")
      else if MAXARGS ≤ argv.length + 1 then .error (.panic "too many args")
      else do
        let (ret, c) ← parseredirs n ret tok.next
        parseargs n ret (argv ++ [(tok.q, tok.eq)]) c

mutual

def parseline : Nat → Cursor → Except Fail (Cmd Span × Cursor)
  | 0, _ => .error .endless
  | n + 1, c => do
    let (cmd, c) ← parsepipe n c
    let (cmd, c) ← parseback n cmd c
    let p := peek c [59]
    if p.1 then do
      let (right, c) ← parseline n (gettoken p.2).next
      .ok (.list cmd right, c)
    else .ok (cmd, p.2)

def parsepipe : Nat → Cursor → Except Fail (Cmd Span × Cursor)
  | 0, _ => .error .endless
  | n + 1, c => do
    let (cmd, c) ← parseexec n c
    let p := peek c [124]
    if p.1 then do
      let (right, c) ← parsepipe n (gettoken p.2).next
      .ok (.pipe cmd right, c)
    else .ok (cmd, p.2)

def parseexec : Nat → Cursor → Except Fail (Cmd Span × Cursor)
  | 0, _ => .error .endless
  | n + 1, c =>
    let p := peek c [40]
    if p.1 then parseblock n p.2
    else do
      let (ret, c) ← parseredirs n (.exec []) p.2
      parseargs n ret [] c

def parseblock : Nat → Cursor → Except Fail (Cmd Span × Cursor)
  | 0, _ => .error .endless
  | n + 1, c =>
    let p := peek c [40]
    if p.1 then do
      let (cmd, c) ← parseline n (gettoken p.2).next
      let p := peek c [41]
      if p.1 then parseredirs n cmd (gettoken p.2).next
      else .error (.panic "syntax - missing )")
    else .error (.panic "parseblock")

end

/-- The memory that the string is in, afterwards. -/
def nulterminate : Cmd Span → List UInt8 → List UInt8
  | .exec argv, m => argv.foldl (fun m a => m.set a.2 0) m
  | .redir cmd file _ _, m => (nulterminate cmd m).set file.2 0
  | .pipe left right, m => nulterminate right (nulterminate left m)
  | .list left right, m => nulterminate right (nulterminate left m)
  | .back cmd, m => nulterminate cmd m

/-- `parsecmd`, cut off after `n` steps: the command and the memory of the string `s`. -/
def parsecmd (n : Nat) (s : List UInt8) : Except Fail (Cmd Span × List UInt8) := do
  let (cmd, c) ← parseline n ⟨0, s⟩
  let p := peek c []
  if p.2.rest ≠ [] then .error (.leftovers p.2.rest)
  else .ok (cmd, nulterminate cmd (s ++ [0]))

/-! ### The parser comes to an end -/

variable {c c' : Cursor} {n : Nat} {toks : List UInt8}

theorem rest_skip (c : Cursor) : c.skip.rest = c.rest.dropWhile (· ∈ whitespace) := by
  have hsplit : c.rest.takeWhile (· ∈ whitespace) ++ c.rest.dropWhile (· ∈ whitespace) = c.rest := List.takeWhile_append_dropWhile
  exact (congrArg (List.drop _) hsplit.symm).trans List.drop_left

theorem length_skip (c : Cursor) : c.skip.rest.length ≤ c.rest.length := by
  rw [Cursor.skip, Cursor.advance, List.length_drop]
  exact Nat.sub_le _ _

theorem length_peek (c : Cursor) (toks : List UInt8) : (peek c toks).2.rest.length ≤ c.rest.length := length_skip c

/-- A token begins behind white space and ends behind white space; there is none at the end of the string only. -/
theorem gettoken_cases (c : Cursor) :
    (c.skip.rest = [] ∧ (gettoken c).ret = 0 ∧ (gettoken c).next = c.skip) ∨
      ∃ len, 0 < len ∧ c.skip.rest ≠ [] ∧ (gettoken c).next = (c.skip.advance len).skip := by
  unfold gettoken
  dsimp only
  cases hrest : c.skip.rest with
  | nil =>
    have hc : c.skip = ⟨c.skip.pos, []⟩ := by rw [← hrest]
    refine .inl ⟨rfl, rfl, ?_⟩
    rw [hc]
    rfl
  | cons b r =>
    dsimp only
    right
    split
    · exact ⟨1, Nat.one_pos, List.cons_ne_nil b r, rfl⟩
    next hsym =>
    split
    · split
      · exact ⟨2, Nat.two_pos, List.cons_ne_nil b r, rfl⟩
      · exact ⟨1, Nat.one_pos, List.cons_ne_nil b r, rfl⟩
    next hgt =>
    refine ⟨_, ?_, List.cons_ne_nil b r, rfl⟩
    -- it is neither white space, which has been skipped, nor a symbol
    have hw : b ∉ whitespace := by
      have hhead : (c.rest.dropWhile (· ∈ whitespace)).head? = some b := by rw [← rest_skip, hrest, List.head?_cons]
      simpa using head_dropWhile hhead
    have hs : b ∉ symbols := by
      intro hmem
      simp only [symbols, List.mem_cons, List.not_mem_nil, or_false] at hmem hsym
      tauto
    rw [List.takeWhile_cons_of_pos (by simp [hw, hs])]
    exact Nat.succ_pos _

theorem length_next (c : Cursor) : (gettoken c).next.rest.length ≤ c.rest.length := by
  obtain ⟨-, -, hnext⟩ | ⟨len, -, -, hnext⟩ := gettoken_cases c
  · rw [hnext]
    exact length_skip c
  · rw [hnext]
    refine (length_skip _).trans ?_
    rw [Cursor.advance, List.length_drop]
    exact (Nat.sub_le _ _).trans (length_skip c)

theorem length_next_lt (h : c.skip.rest ≠ []) : (gettoken c).next.rest.length < c.rest.length := by
  obtain ⟨hnil, -⟩ | ⟨len, hlen, -, hnext⟩ := gettoken_cases c
  · exact absurd hnil h
  · rw [hnext]
    have hle : ((c.skip.advance len).skip).rest.length ≤ c.skip.rest.length - len := by
      rw [← List.length_drop]
      exact length_skip _
    have hpos := List.length_pos_iff.2 h
    have hskip := length_skip c
    omega

theorem skip_skip (c : Cursor) : c.skip.skip.rest = c.skip.rest := by
  rw [rest_skip, rest_skip, List.dropWhile_idempotent _]

theorem length_next_of_peek (h : (peek c toks).1 = true) : (gettoken (peek c toks).2).next.rest.length < c.rest.length := by
  have hne : c.skip.rest ≠ [] := by
    intro hnil
    rw [peek, hnil] at h
    cases h
  refine (length_next_lt ?_).trans_le (length_peek c toks)
  show c.skip.skip.rest ≠ []
  rwa [skip_skip]

/-- The parser has not been cut off, and has not gone back. -/
def Within (c : Cursor) (r : Except Fail (Cmd Span × Cursor)) : Prop :=
  r ≠ .error .endless ∧ ∀ cmd c', r = .ok (cmd, c') → c'.rest.length ≤ c.rest.length

theorem within_ok {cmd : Cmd Span} (h : c'.rest.length ≤ c.rest.length) : Within c (.ok (cmd, c')) :=
  ⟨nofun, by rintro _ _ ⟨⟩; exact h⟩

theorem within_panic (c : Cursor) (msg : String) : Within c (.error (.panic msg)) := ⟨nofun, nofun⟩

theorem Within.mono {r : Except Fail (Cmd Span × Cursor)} (h : Within c' r) (hle : c'.rest.length ≤ c.rest.length) : Within c r :=
  ⟨h.1, fun cmd c'' hr => (h.2 cmd c'' hr).trans hle⟩

theorem Within.bind {r : Except Fail (Cmd Span × Cursor)} {f : Cmd Span × Cursor → Except Fail (Cmd Span × Cursor)} (h : Within c r)
    (hf : ∀ cmd c', c'.rest.length ≤ c.rest.length → Within c' (f (cmd, c'))) : Within c (r >>= f) := by
  match r, h with
  | .error e, h => exact ⟨fun he => h.1 he, nofun⟩
  | .ok (cmd, c'), h =>
    have hle := h.2 cmd c' rfl
    exact (hf cmd c' hle).mono hle

theorem within_parseredirs (cmd : Cmd Span) (h : c.rest.length < n) : Within c (parseredirs n cmd c) := by
  induction n generalizing cmd c with
  | zero => omega
  | succ n ih =>
    rw [parseredirs]
    dsimp only
    split
    · next hp =>
      have hlt : (gettoken (gettoken (peek c [60, 62]).2).next).next.rest.length < c.rest.length :=
        (length_next _).trans_lt (length_next_of_peek hp)
      split
      · exact within_panic c _
      split
      · exact (ih _ (by omega)).mono hlt.le
      split
      · exact (ih _ (by omega)).mono hlt.le
      · exact (ih _ (by omega)).mono hlt.le
    · exact within_ok (length_peek c _)

theorem within_parseback (cmd : Cmd Span) (h : c.rest.length < n) : Within c (parseback n cmd c) := by
  induction n generalizing cmd c with
  | zero => omega
  | succ n ih =>
    rw [parseback]
    split
    · next hp =>
      have hlt := length_next_of_peek hp
      exact (ih _ (by omega)).mono hlt.le
    · exact within_ok (length_peek c _)

theorem within_parseargs (ret : Cmd Span) (argv : List Span) (h : c.rest.length < n) : Within c (parseargs n ret argv c) := by
  induction n generalizing ret argv c with
  | zero => omega
  | succ n ih =>
    rw [parseargs]
    dsimp only
    split
    · exact within_ok (length_peek c _)
    split
    · exact within_ok ((length_next _).trans (length_peek c _))
    next hret =>
    split
    · exact within_panic c _
    split
    · exact within_panic c _
    have hne : (peek c [124, 41, 38, 59]).2.skip.rest ≠ [] := by
      intro hnil
      obtain ⟨-, hzero, -⟩ | ⟨-, -, hne, -⟩ := gettoken_cases (peek c [124, 41, 38, 59]).2
      · exact hret hzero
      · exact hne hnil
    have hlt := (length_next_lt hne).trans_le (length_peek c _)
    refine Within.mono (Within.bind (within_parseredirs ret (by omega)) fun ret' c' hc' => ?_) hlt.le
    exact ih _ _ (by omega)

/-- The depth of the recursion is bounded by the number of parentheses and operators. -/
theorem within_parse (n : Nat) : ∀ c : Cursor,
    (4 * c.rest.length + 4 ≤ n → Within c (parseline n c)) ∧ (4 * c.rest.length + 3 ≤ n → Within c (parsepipe n c)) ∧
      (4 * c.rest.length + 2 ≤ n → Within c (parseexec n c)) ∧ (4 * c.rest.length + 1 ≤ n → Within c (parseblock n c)) := by
  induction n with
  | zero => exact fun c => ⟨nofun, nofun, nofun, nofun⟩
  | succ n ih =>
    intro c
    refine ⟨fun h => ?_, fun h => ?_, fun h => ?_, fun h => ?_⟩
    · rw [parseline]
      refine Within.bind ((ih c).2.1 (by omega)) fun cmd c₁ h₁ => Within.bind (within_parseback cmd (by omega)) fun cmd' c₂ h₂ => ?_
      dsimp only
      split
      · next hp =>
        have hlt := length_next_of_peek hp
        exact Within.mono (Within.bind ((ih _).1 (by omega)) fun right c₃ _ => within_ok (Nat.le_refl _)) hlt.le
      · exact within_ok (length_peek c₂ _)
    · rw [parsepipe]
      refine Within.bind ((ih c).2.2.1 (by omega)) fun cmd c₁ h₁ => ?_
      dsimp only
      split
      · next hp =>
        have hlt := length_next_of_peek hp
        exact Within.mono (Within.bind ((ih _).2.1 (by omega)) fun right c₃ _ => within_ok (Nat.le_refl _)) hlt.le
      · exact within_ok (length_peek c₁ _)
    · rw [parseexec]
      dsimp only
      have hle := length_peek c [40]
      split
      · exact ((ih _).2.2.2 (by omega)).mono hle
      · refine Within.mono (Within.bind (within_parseredirs _ (by omega)) fun ret c₁ h₁ => ?_) hle
        exact within_parseargs ret [] (by omega)
    · rw [parseblock]
      dsimp only
      split
      · next hp =>
        have hlt := length_next_of_peek hp
        refine Within.mono (Within.bind ((ih _).1 (by omega)) fun cmd c₁ h₁ => ?_) hlt.le
        dsimp only
        split
        · next hp₁ =>
          have hlt₁ := length_next_of_peek hp₁
          exact (within_parseredirs cmd (by omega)).mono hlt₁.le
        · exact within_panic c₁ _
      · exact within_panic c _

theorem parsecmd_ends (s : List UInt8) (h : 4 * s.length + 4 ≤ n) : parsecmd n s ≠ .error .endless := by
  obtain ⟨hne, -⟩ := (within_parse n ⟨0, s⟩).1 h
  rw [parsecmd]
  cases hr : parseline n ⟨0, s⟩ with
  | error e =>
    intro he
    cases he
    exact hne hr
  | ok r =>
    rw [ok_bind]
    dsimp only
    split <;> nofun

end Ostep.Xv6.Sh
