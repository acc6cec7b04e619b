import Ostep.Xv6.Sh

/-!
# Commands as text

`text` writes a command with parentheses around every part. `parsecmd_text` says that the parser reads it back: the tree is the same, and
its words are those of the text once `nulterminate` has cut it. The NULs do no harm because they are only written behind words, where
a blank, a symbol or the end of the string stands.
-/

namespace Ostep.Xv6.Sh

variable {α β : Type}

def Cmd.map (f : α → β) : Cmd α → Cmd β
  | .exec argv => .exec (argv.map f)
  | .redir cmd file mode fd => .redir (cmd.map f) (f file) mode fd
  | .pipe left right => .pipe (left.map f) (right.map f)
  | .list left right => .list (left.map f) (right.map f)
  | .back cmd => .back (cmd.map f)

def Cmd.leaves : Cmd α → List α
  | .exec argv => argv
  | .redir cmd file _ _ => cmd.leaves ++ [file]
  | .pipe left right => left.leaves ++ right.leaves
  | .list left right => left.leaves ++ right.leaves
  | .back cmd => cmd.leaves

def WordByte (b : UInt8) : Prop := b ∉ whitespace ∧ b ∉ symbols ∧ b ≠ 0

structure IsWord (w : List UInt8) : Prop where
  ne_nil : w ≠ []
  bytes : ∀ b ∈ w, WordByte b

instance (b : UInt8) : Decidable (WordByte b) := inferInstanceAs (Decidable (b ∉ whitespace ∧ b ∉ symbols ∧ b ≠ 0))

instance (w : List UInt8) : Decidable (IsWord w) :=
  decidable_of_iff (w ≠ [] ∧ w.all fun b => WordByte b)
    ⟨fun h => ⟨h.1, fun b hb => of_decide_eq_true (List.all_eq_true.1 h.2 b hb)⟩,
      fun h => ⟨h.ne_nil, List.all_eq_true.2 fun b hb => decide_eq_true (h.bytes b hb)⟩⟩

/-- The commands that can be written down: at most nine words, and a redirection is that of `<` or `>`. -/
def Typable : Cmd (List UInt8) → Prop
  | .exec argv => argv.length ≤ 9 ∧ ∀ w ∈ argv, IsWord w
  | .redir cmd file mode fd =>
    Typable cmd ∧ IsWord file ∧ (mode = O_RDONLY ∧ fd = 0 ∨ mode = O_WRONLY ||| O_CREATE ∧ fd = 1)
  | .pipe left right => Typable left ∧ Typable right
  | .list left right => Typable left ∧ Typable right
  | .back cmd => Typable cmd

def joined : List (List UInt8) → List UInt8
  | [] => []
  | [w] => w
  | w :: ws => w ++ 32 :: joined ws

theorem exists_joined_cons (w : List UInt8) (ws : List (List UInt8)) : ∃ r, joined (w :: ws) = w ++ r := by
  cases ws with
  | nil => exact ⟨[], (List.append_nil w).symm⟩
  | cons w₂ ws => exact ⟨32 :: joined (w₂ :: ws), rfl⟩

theorem joined_cons_cons (w w₂ : List UInt8) (ws : List (List UInt8)) : joined (w :: w₂ :: ws) = w ++ 32 :: joined (w₂ :: ws) := rfl

/-- Every part stands in parentheses: `(c)<f`, `(c)>f`, `(l)|(r)`, `(l);(r)`, `(c)&`. -/
def text : Cmd (List UInt8) → List UInt8
  | .exec argv => joined argv
  | .redir cmd file _ fd => 40 :: (text cmd ++ 41 :: (if fd = 0 then 60 else 62) :: file)
  | .pipe left right => 40 :: (text left ++ 41 :: 124 :: 40 :: (text right ++ [41]))
  | .list left right => 40 :: (text left ++ 41 :: 59 :: 40 :: (text right ++ [41]))
  | .back cmd => 40 :: (text cmd ++ [41, 38])

def placeWords : List (List UInt8) → Nat → List Span
  | [], _ => []
  | w :: ws, p => (p, p + w.length) :: placeWords ws (p + w.length + 1)

/-- Where the words of the text are when it begins at `p`. -/
def place : Cmd (List UInt8) → Nat → Cmd Span
  | .exec argv, p => .exec (placeWords argv p)
  | .redir cmd file mode fd, p =>
    .redir (place cmd (p + 1)) (p + (text cmd).length + 3, p + (text cmd).length + 3 + file.length) mode fd
  | .pipe left right, p => .pipe (place left (p + 1)) (place right (p + (text left).length + 4))
  | .list left right, p => .list (place left (p + 1)) (place right (p + (text left).length + 4))
  | .back cmd, p => .back (place cmd (p + 1))

/-! ### Single tokens -/

/-- `r` begins neither with white space nor with one of `toks`. -/
def Quiet (toks r : List UInt8) : Prop := ∀ b ∈ r.head?, b ∉ whitespace ∧ b ∉ toks

/-- What can follow a part: nothing or a parenthesis. -/
def Closes (r : List UInt8) : Prop := r = [] ∨ ∃ r', r = 41 :: r'

variable {toks r post w : List UInt8} {b : UInt8} {p n : Nat} {cmd : Cmd Span} {c : Cursor}

theorem Quiet.mono {toks' : List UInt8} (h : Quiet toks r) (hsub : toks' ⊆ toks) : Quiet toks' r :=
  fun b hb => ⟨(h b hb).1, fun hmem => (h b hb).2 (hsub hmem)⟩

theorem quiet_cons (hw : b ∉ whitespace) (ht : b ∉ toks) : Quiet toks (b :: r) := by
  rintro b' ⟨⟩
  exact ⟨hw, ht⟩

theorem quiet_word (hw : IsWord w) (hsub : toks ⊆ symbols) (r : List UInt8) : Quiet toks (w ++ r) := by
  obtain ⟨b, w', rfl⟩ := List.exists_cons_of_ne_nil hw.ne_nil
  obtain ⟨hspace, hsym, -⟩ := hw.bytes b List.mem_cons_self
  exact quiet_cons hspace fun hmem => hsym (hsub hmem)

theorem Closes.quiet (h : Closes r) (ht : 41 ∉ toks) : Quiet toks r := by
  rcases h with rfl | ⟨r', rfl⟩
  · nofun
  · exact quiet_cons (by decide) ht

theorem Closes.stops (h : Closes r) : ∀ b ∈ r.head?, ¬ (b ∉ whitespace ∧ b ∉ symbols) := by
  rcases h with rfl | ⟨r', rfl⟩
  · nofun
  · rintro b ⟨⟩
    decide

theorem skip_of_quiet (h : Quiet toks r) : (⟨p, r⟩ : Cursor).skip = ⟨p, r⟩ := by
  cases r with
  | nil => rfl
  | cons b r =>
    have hb : b ∉ whitespace := (h b rfl).1
    rw [Cursor.skip, List.takeWhile_cons_of_neg (by simpa using hb)]
    rfl

theorem skip_blank (h : Quiet toks r) : (⟨p, 32 :: r⟩ : Cursor).skip = ⟨p + 1, r⟩ := by
  have htake : (32 :: r).takeWhile (fun b => decide (b ∈ whitespace)) = [32] := by
    rw [List.takeWhile_cons_of_pos (by decide)]
    cases r with
    | nil => rfl
    | cons b r =>
      have hb : b ∉ whitespace := (h b rfl).1
      rw [List.takeWhile_cons_of_neg (by simpa using hb)]
  rw [Cursor.skip, htake]
  rfl

theorem peek_of_quiet (h : Quiet toks r) : peek ⟨p, r⟩ toks = (false, ⟨p, r⟩) := by
  rw [peek, skip_of_quiet h]
  cases r with
  | nil => rfl
  | cons b r =>
    have hb : b ∉ toks := (h b rfl).2
    simp [hb]

theorem peek_of_mem (hw : b ∉ whitespace) (ht : b ∈ toks) : peek ⟨p, b :: r⟩ toks = (true, ⟨p, b :: r⟩) := by
  have hq : Quiet [] (b :: r) := quiet_cons hw List.not_mem_nil
  rw [peek, skip_of_quiet hq]
  simp [ht]

theorem gettoken_symbol (hb : b ∈ [124, 40, 41, 59, 38, 60]) (h : Quiet toks r) : gettoken ⟨p, b :: r⟩ = ⟨b, p, p + 1, ⟨p + 1, r⟩⟩ := by
  have hw : b ∉ whitespace := by
    intro hmem
    simp only [whitespace, List.mem_cons, List.not_mem_nil, or_false] at hmem
    rcases hmem with rfl | rfl | rfl | rfl | rfl <;> simp at hb
  have hq : Quiet [] (b :: r) := quiet_cons hw List.not_mem_nil
  unfold gettoken
  rw [skip_of_quiet hq]
  dsimp only
  rw [if_pos hb, Cursor.advance, List.drop_one, List.tail_cons, skip_of_quiet h]

theorem gettoken_gt (h : Quiet [62] r) : gettoken ⟨p, 62 :: r⟩ = ⟨62, p, p + 1, ⟨p + 1, r⟩⟩ := by
  have hq : Quiet [] (62 :: r) := quiet_cons (by decide) List.not_mem_nil
  have hhead : r.head? ≠ some 62 := fun hr => (h 62 hr).2 (by decide)
  unfold gettoken
  rw [skip_of_quiet hq]
  dsimp only
  rw [if_neg (by decide), if_pos rfl, if_neg hhead, Cursor.advance, List.drop_one, List.tail_cons, skip_of_quiet h]

theorem gettoken_word (hw : IsWord w) (hr : ∀ b ∈ r.head?, ¬ (b ∉ whitespace ∧ b ∉ symbols)) :
    gettoken ⟨p, w ++ r⟩ = ⟨97, p, p + w.length, (⟨p + w.length, r⟩ : Cursor).skip⟩ := by
  obtain ⟨b, w', rfl⟩ := List.exists_cons_of_ne_nil hw.ne_nil
  obtain ⟨hws, hsym, -⟩ := hw.bytes b List.mem_cons_self
  have hq : Quiet [] (b :: w' ++ r) := quiet_cons hws List.not_mem_nil
  have hnot : b ∉ [124, 40, 41, 59, 38, 60] ∧ b ≠ 62 := by
    simp only [symbols, List.mem_cons, List.not_mem_nil, or_false] at hsym ⊢
    tauto
  have htake : ((b :: w') ++ r).takeWhile (fun b => decide (b ∉ whitespace ∧ b ∉ symbols)) = b :: w' := by
    refine (takeWhile_append_stop (fun b hb => ?_) fun b hb => ?_).1
    · exact decide_eq_true ⟨(hw.bytes b hb).1, (hw.bytes b hb).2.1⟩
    · exact decide_eq_false (hr b hb)
  unfold gettoken
  rw [skip_of_quiet hq]
  rw [List.cons_append] at htake ⊢
  dsimp only
  rw [if_neg hnot.1, if_neg hnot.2, htake, ← List.cons_append, Cursor.advance, List.drop_left]

/-! ### Redirections -/

theorem parseredirs_none (h : Quiet [60, 62] r) : parseredirs (n + 1) cmd ⟨p, r⟩ = .ok (cmd, ⟨p, r⟩) := by
  rw [parseredirs, peek_of_quiet h]
  rfl

theorem parseredirs_one {mode fd : Nat} (hw : IsWord w) (hmode : mode = O_RDONLY ∧ fd = 0 ∨ mode = O_WRONLY ||| O_CREATE ∧ fd = 1)
    (hpost : Closes post) :
    parseredirs (n + 2) cmd ⟨p, (if fd = 0 then 60 else 62) :: (w ++ post)⟩ =
      .ok (.redir cmd (p + 1, p + 1 + w.length) mode fd, ⟨p + 1 + w.length, post⟩) := by
  have hquiet : Quiet [62] (w ++ post) := quiet_word hw (by decide) post
  have hstop := hpost.stops
  have hrest : Quiet [60, 62] post := hpost.quiet (by decide)
  have hfile := gettoken_word (p := p + 1) hw hstop
  rw [skip_of_quiet hrest] at hfile
  rw [parseredirs]
  rcases hmode with ⟨rfl, rfl⟩ | ⟨rfl, rfl⟩
  · rw [if_pos rfl, peek_of_mem (by decide) (by decide)]
    dsimp only
    rw [gettoken_symbol (by decide) hquiet]
    dsimp only
    rw [hfile]
    dsimp only
    rw [if_pos rfl, if_neg (by decide), if_pos rfl, parseredirs_none hrest]
  · rw [if_neg Nat.one_ne_zero, peek_of_mem (by decide) (by decide)]
    dsimp only
    rw [gettoken_gt hquiet]
    dsimp only
    rw [hfile]
    dsimp only
    rw [if_pos rfl, if_neg (by decide), if_neg (by decide), if_pos (.inl rfl), parseredirs_none hrest]

/-! ### Words -/

theorem quiet_joined {ws : List (List UInt8)} (hws : ∀ w ∈ ws, IsWord w) (hpost : Closes post) (hsub : toks ⊆ symbols) (ht : 41 ∉ toks) :
    Quiet toks (joined ws ++ post) := by
  cases ws with
  | nil => exact hpost.quiet ht
  | cons w ws =>
    obtain ⟨r, hr⟩ := exists_joined_cons w ws
    rw [hr, List.append_assoc]
    exact quiet_word (hws w List.mem_cons_self) hsub _

theorem next_word {ws : List (List UInt8)} (hws : ∀ v ∈ w :: ws, IsWord v) (hpost : Closes post) (p : Nat) :
    ∃ sep, gettoken ⟨p, joined (w :: ws) ++ post⟩ = ⟨97, p, p + w.length, ⟨p + w.length + sep, joined ws ++ post⟩⟩ ∧
      (joined (w :: ws)).length = w.length + sep + (joined ws).length ∧ placeWords ws (p + w.length + 1) = placeWords ws (p + w.length + sep) := by
  have hw := hws w List.mem_cons_self
  cases ws with
  | nil =>
    refine ⟨0, ?_, rfl, rfl⟩
    have htok := gettoken_word (p := p) hw hpost.stops
    rw [skip_of_quiet (hpost.quiet List.not_mem_nil)] at htok
    exact htok
  | cons w₂ ws =>
    refine ⟨1, ?_, ?_, rfl⟩
    · have hquiet : Quiet [] (joined (w₂ :: ws) ++ post) :=
        quiet_joined (fun w hw => hws w (List.mem_cons_of_mem _ hw)) hpost (List.nil_subset _) List.not_mem_nil
      rw [joined_cons_cons, List.append_assoc, List.cons_append, gettoken_word hw (by rintro b ⟨⟩; decide), skip_blank hquiet]
    · rw [joined_cons_cons, List.length_append, List.length_cons]
      omega

theorem parseargs_joined {ws : List (List UInt8)} (hws : ∀ w ∈ ws, IsWord w) (hpost : Closes post) {argv : List Span}
    (hlen : argv.length + ws.length ≤ 9) (hn : (joined ws ++ post).length < n) :
    parseargs n (.exec []) argv ⟨p, joined ws ++ post⟩ = .ok (.exec (argv ++ placeWords ws p), ⟨p + (joined ws).length, post⟩) := by
  induction ws generalizing argv p n with
  | nil =>
    obtain ⟨n, rfl⟩ : ∃ k, n = k + 1 := ⟨n - 1, by omega⟩
    rw [placeWords, List.append_nil]
    rcases hpost with rfl | ⟨r, rfl⟩
    · rfl
    · rfl
  | cons w ws ih =>
    obtain ⟨n, rfl⟩ : ∃ k, n = k + 1 := ⟨n - 1, by omega⟩
    have hw := hws w List.mem_cons_self
    have hrest : ∀ w ∈ ws, IsWord w := fun w hw => hws w (List.mem_cons_of_mem _ hw)
    have hpos := List.length_pos_iff.2 hw.ne_nil
    have hpeek : Quiet [124, 41, 38, 59] (joined (w :: ws) ++ post) := by
      obtain ⟨r, hr⟩ := exists_joined_cons w ws
      rw [hr, List.append_assoc]
      exact quiet_word hw (by decide) _
    obtain ⟨sep, htok, hlength, hplace⟩ := next_word hws hpost p
    rw [List.length_append, hlength] at hn
    rw [List.length_cons] at hlen
    have hmax : ¬ MAXARGS ≤ argv.length + 1 := by unfold MAXARGS; omega
    have hredirs : Quiet [60, 62] (joined ws ++ post) := quiet_joined hrest hpost (by decide) (by decide)
    obtain ⟨n', rfl⟩ : ∃ k, n = k + 1 := ⟨n - 1, by omega⟩
    rw [parseargs, peek_of_quiet hpeek]
    dsimp only
    rw [htok]
    dsimp only
    rw [if_neg (by decide), if_neg (by decide), if_neg (by decide), if_neg hmax, parseredirs_none hredirs, ok_bind]
    dsimp only
    rw [ih hrest (by rw [List.length_append, List.length_singleton]; omega) (by rw [List.length_append]; omega), hlength, placeWords, hplace,
      List.append_assoc, List.singleton_append, Nat.add_assoc, Nat.add_assoc, Nat.add_assoc]

/-! ### Trees -/

variable {t : Cmd (List UInt8)}

/-- The text of `t` is parsed wherever it stands. -/
def Parses (t : Cmd (List UInt8)) : Prop := ∀ p post n, Closes post → 4 * (text t ++ post).length + 4 ≤ n →
  parseline n ⟨p, text t ++ post⟩ = .ok (place t p, ⟨p + (text t).length, post⟩)

theorem quiet_text (ht : Typable t) (hpost : Closes post) : Quiet [] (text t ++ post) := by
  cases t with
  | exec argv => exact quiet_joined ht.2 hpost (List.nil_subset _) List.not_mem_nil
  | redir => exact quiet_cons (by decide) List.not_mem_nil
  | pipe => exact quiet_cons (by decide) List.not_mem_nil
  | list => exact quiet_cons (by decide) List.not_mem_nil
  | back => exact quiet_cons (by decide) List.not_mem_nil

theorem parsepipe_of_parseexec {q : Nat} (h : parseexec n c = .ok (cmd, ⟨q, r⟩)) (hr : Quiet [124] r) :
    parsepipe (n + 1) c = .ok (cmd, ⟨q, r⟩) := by
  rw [parsepipe, h, ok_bind]
  dsimp only
  rw [peek_of_quiet hr]
  rfl

theorem parseline_of_parsepipe {q : Nat} (h : parsepipe (n + 1) c = .ok (cmd, ⟨q, r⟩)) (hr : Quiet [38, 59] r) :
    parseline (n + 2) c = .ok (cmd, ⟨q, r⟩) := by
  have hamp : Quiet [38] r := hr.mono (by decide)
  have hsemi : Quiet [59] r := hr.mono (by decide)
  rw [parseline, h, ok_bind]
  dsimp only
  rw [parseback, peek_of_quiet hamp]
  dsimp only
  rw [if_neg Bool.false_ne_true, ok_bind]
  dsimp only
  rw [peek_of_quiet hsemi]
  rfl

section
variable (h : Parses t) (ht : Typable t)
include h ht

theorem parseblock_paren (hr : Quiet [] r) (hn : 4 * ((text t).length + r.length + 2) ≤ n) :
    parseblock (n + 1) ⟨p, 40 :: (text t ++ 41 :: r)⟩ = parseredirs n (place t (p + 1)) ⟨p + (text t).length + 2, r⟩ := by
  have hcloses : Closes (41 :: r) := .inr ⟨r, rfl⟩
  have hlength : (text t ++ 41 :: r).length = (text t).length + r.length + 1 := by
    rw [List.length_append, List.length_cons]
    rfl
  rw [parseblock, peek_of_mem (by decide) (by decide)]
  dsimp only
  rw [if_pos rfl, gettoken_symbol (by decide) (quiet_text ht hcloses)]
  dsimp only
  rw [h (p + 1) (41 :: r) n hcloses (by omega), ok_bind]
  dsimp only
  rw [peek_of_mem (by decide) (by decide)]
  dsimp only
  rw [if_pos rfl, gettoken_symbol (by decide) hr]
  dsimp only
  congr 2
  omega

theorem parseexec_paren (hr : Quiet [60, 62] r) (hn : 4 * ((text t).length + r.length + 2) + 2 ≤ n) :
    parseexec n ⟨p, 40 :: (text t ++ 41 :: r)⟩ = .ok (place t (p + 1), ⟨p + (text t).length + 2, r⟩) := by
  obtain ⟨n, rfl⟩ : ∃ k, n = k + 3 := ⟨n - 3, by omega⟩
  rw [parseexec, peek_of_mem (by decide) (by decide)]
  dsimp only
  rw [if_pos rfl, parseblock_paren h ht (hr.mono (List.nil_subset _)) (by omega), parseredirs_none hr]

theorem parsepipe_paren (hr : Quiet [60, 62, 124] r) (hn : 4 * ((text t).length + r.length + 2) + 3 ≤ n) :
    parsepipe n ⟨p, 40 :: (text t ++ 41 :: r)⟩ = .ok (place t (p + 1), ⟨p + (text t).length + 2, r⟩) := by
  obtain ⟨n, rfl⟩ : ∃ k, n = k + 1 := ⟨n - 1, by omega⟩
  have hredirs : Quiet [60, 62] r := hr.mono (by decide)
  exact parsepipe_of_parseexec (parseexec_paren h ht hredirs (by omega)) (hr.mono (by decide))

theorem parseline_paren (hr : Closes r) (hn : 4 * ((text t).length + r.length + 2) + 4 ≤ n) :
    parseline n ⟨p, 40 :: (text t ++ 41 :: r)⟩ = .ok (place t (p + 1), ⟨p + (text t).length + 2, r⟩) := by
  obtain ⟨n, rfl⟩ : ∃ k, n = k + 2 := ⟨n - 2, by omega⟩
  exact parseline_of_parsepipe (parsepipe_paren h ht (hr.quiet (by decide)) (by omega)) (hr.quiet (by decide))

end

theorem parses_exec {argv : List (List UInt8)} (ht : Typable (.exec argv)) : Parses (.exec argv) := by
  intro p post n hpost hn
  rw [text] at hn ⊢
  obtain ⟨n, rfl⟩ : ∃ k, n = k + 4 := ⟨n - 4, by omega⟩
  refine parseline_of_parsepipe (parsepipe_of_parseexec ?_ (hpost.quiet (by decide))) (hpost.quiet (by decide))
  have hparen : Quiet [40] (joined argv ++ post) := quiet_joined ht.2 hpost (by decide) (by decide)
  have hredirs : Quiet [60, 62] (joined argv ++ post) := quiet_joined ht.2 hpost (by decide) (by decide)
  rw [parseexec, peek_of_quiet hparen]
  dsimp only
  rw [if_neg Bool.false_ne_true, parseredirs_none hredirs, ok_bind]
  dsimp only
  rw [parseargs_joined ht.2 hpost (by rw [List.length_nil, Nat.zero_add]; exact ht.1) (by omega), List.nil_append, place]

theorem parses_redir {file : List UInt8} {mode fd : Nat} (h : Parses t) (ht : Typable (.redir t file mode fd)) :
    Parses (.redir t file mode fd) := by
  intro p post n hpost hn
  have heq : text (.redir t file mode fd) ++ post = 40 :: (text t ++ 41 :: (if fd = 0 then 60 else 62) :: (file ++ post)) := by
    rw [text, List.cons_append, List.append_assoc, List.cons_append, List.cons_append]
  have hlength : (text (.redir t file mode fd)).length = (text t).length + file.length + 3 := by
    rw [text, List.length_cons, List.length_append, List.length_cons, List.length_cons]
    omega
  rw [List.length_append, hlength] at hn
  obtain ⟨n, rfl⟩ : ∃ k, n = k + 6 := ⟨n - 6, by omega⟩
  refine parseline_of_parsepipe (parsepipe_of_parseexec ?_ (hpost.quiet (by decide))) (hpost.quiet (by decide))
  have hr : Quiet [] ((if fd = 0 then 60 else 62) :: (file ++ post)) := by
    refine quiet_cons ?_ List.not_mem_nil
    split <;> decide
  rw [heq, parseexec, peek_of_mem (by decide) (by decide)]
  dsimp only
  rw [if_pos rfl, parseblock_paren h ht.1 hr (by rw [List.length_cons, List.length_append]; omega), parseredirs_one ht.2.1 ht.2.2 hpost,
    hlength, place]
  congr 3
  omega

section
variable {t' : Cmd (List UInt8)}

theorem two_append (a b post : List UInt8) (c : UInt8) :
    (40 :: (a ++ 41 :: c :: 40 :: (b ++ [41]))) ++ post = 40 :: (a ++ 41 :: c :: 40 :: (b ++ 41 :: post)) := by
  simp only [List.cons_append, List.append_assoc, List.nil_append]

theorem length_two (a b : List UInt8) (c : UInt8) : (40 :: (a ++ 41 :: c :: 40 :: (b ++ [41]))).length = a.length + b.length + 5 := by
  simp only [List.length_cons, List.length_append, List.length_nil]
  omega

theorem length_second (b post : List UInt8) (c : UInt8) : (c :: 40 :: (b ++ 41 :: post)).length = b.length + post.length + 3 := by
  simp only [List.length_cons, List.length_append]
  omega

theorem parses_pipe (h : Parses t) (h' : Parses t') (ht : Typable (.pipe t t')) : Parses (.pipe t t') := by
  intro p post n hpost hn
  have heq : text (.pipe t t') ++ post = 40 :: (text t ++ 41 :: 124 :: 40 :: (text t' ++ 41 :: post)) := two_append ..
  have hlength : (text (.pipe t t')).length = (text t).length + (text t').length + 5 := length_two ..
  rw [List.length_append, hlength] at hn
  obtain ⟨n, rfl⟩ : ∃ k, n = k + 2 := ⟨n - 2, by omega⟩
  refine parseline_of_parsepipe ?_ (hpost.quiet (by decide))
  have hbar : Quiet [60, 62] (124 :: 40 :: (text t' ++ 41 :: post)) := quiet_cons (by decide) (by decide)
  have hparen : Quiet [] (40 :: (text t' ++ 41 :: post)) := quiet_cons (by decide) (by decide)
  have hrest := length_second (text t') post 124
  rw [heq, parsepipe, parseexec_paren h ht.1 hbar (by omega), ok_bind]
  dsimp only
  rw [peek_of_mem (by decide) (by decide)]
  dsimp only
  rw [if_pos rfl, gettoken_symbol (by decide) hparen]
  dsimp only
  have hend : p + (text t).length + 2 + 1 + (text t').length + 2 = p + ((text t).length + (text t').length + 5) := by omega
  rw [parsepipe_paren h' ht.2 (hpost.quiet (by decide)) (by omega), ok_bind, hlength, place, hend]

theorem parses_list (h : Parses t) (h' : Parses t') (ht : Typable (.list t t')) : Parses (.list t t') := by
  intro p post n hpost hn
  have heq : text (.list t t') ++ post = 40 :: (text t ++ 41 :: 59 :: 40 :: (text t' ++ 41 :: post)) := two_append ..
  have hlength : (text (.list t t')).length = (text t).length + (text t').length + 5 := length_two ..
  rw [List.length_append, hlength] at hn
  obtain ⟨n, rfl⟩ : ∃ k, n = k + 2 := ⟨n - 2, by omega⟩
  have hsemi : Quiet [60, 62, 124, 38] (59 :: 40 :: (text t' ++ 41 :: post)) := quiet_cons (by decide) (by decide)
  have hparen : Quiet [] (40 :: (text t' ++ 41 :: post)) := quiet_cons (by decide) (by decide)
  have hrest := length_second (text t') post 59
  have hamp : Quiet [38] (59 :: 40 :: (text t' ++ 41 :: post)) := hsemi.mono (by decide)
  rw [heq, parseline, parsepipe_paren h ht.1 (hsemi.mono (by decide)) (by omega), ok_bind]
  dsimp only
  rw [parseback, peek_of_quiet hamp]
  dsimp only
  rw [if_neg Bool.false_ne_true, ok_bind]
  dsimp only
  rw [peek_of_mem (by decide) (by decide)]
  dsimp only
  rw [if_pos rfl, gettoken_symbol (by decide) hparen]
  dsimp only
  have hend : p + (text t).length + 2 + 1 + (text t').length + 2 = p + ((text t).length + (text t').length + 5) := by omega
  rw [parseline_paren h' ht.2 hpost (by omega), ok_bind, hlength, place, hend]

end

theorem parses_back (h : Parses t) (ht : Typable (.back t)) : Parses (.back t) := by
  intro p post n hpost hn
  have heq : text (.back t) ++ post = 40 :: (text t ++ 41 :: 38 :: post) := by
    simp only [text, List.cons_append, List.append_assoc, List.nil_append]
  have hlength : (text (.back t)).length = (text t).length + 3 := by
    simp only [text, List.length_cons, List.length_append, List.length_nil]
  rw [List.length_append, hlength] at hn
  obtain ⟨n, rfl⟩ : ∃ k, n = k + 3 := ⟨n - 3, by omega⟩
  have hamp : Quiet [60, 62, 124] (38 :: post) := quiet_cons (by decide) (by decide)
  have hpost₁ : Quiet [38] post := hpost.quiet (by decide)
  have hpost₂ : Quiet [59] post := hpost.quiet (by decide)
  rw [heq, parseline, parsepipe_paren h ht hamp (by rw [List.length_cons]; omega), ok_bind]
  dsimp only
  rw [parseback, peek_of_mem (by decide) (by decide)]
  dsimp only
  rw [if_pos rfl, gettoken_symbol (by decide) hpost₁]
  dsimp only
  rw [parseback, peek_of_quiet hpost₁]
  dsimp only
  rw [if_neg Bool.false_ne_true, ok_bind]
  dsimp only
  rw [peek_of_quiet hpost₂, hlength, place]
  rfl

theorem parses (ht : Typable t) : Parses t := by
  induction t with
  | exec argv => exact parses_exec ht
  | redir cmd file mode fd ih => exact parses_redir (ih ht.1) ht
  | pipe left right ihl ihr => exact parses_pipe (ihl ht.1) (ihr ht.2) ht
  | list left right ihl ihr => exact parses_list (ihl ht.1) (ihr ht.2) ht
  | back cmd ih => exact parses_back (ih ht) ht

/-! ### The NULs -/

def At (m : List UInt8) (p : Nat) (s : List UInt8) : Prop := ∀ i < s.length, m[p + i]? = s[i]?

variable {m m' s s' : List UInt8}

theorem At.left (h : At m p (s ++ s')) : At m p s := fun i hi => by
  rw [h i (by rw [List.length_append]; omega), List.getElem?_append_left hi]

theorem At.right (h : At m p (s ++ s')) : At m (p + s.length) s' := fun i hi => by
  rw [Nat.add_assoc, h _ (by rw [List.length_append]; omega), List.getElem?_append_right (Nat.le_add_right _ _), Nat.add_sub_cancel_left]

theorem At.head (h : At m p (b :: s)) : m[p]? = some b := h 0 (Nat.succ_pos _)

theorem At.tail (h : At m p (b :: s)) : At m (p + 1) s := At.right (s := [b]) h

theorem nulterminate_eq (cmd : Cmd Span) (m : List UInt8) : nulterminate cmd m = cmd.leaves.foldl (fun m a => m.set a.2 0) m := by
  induction cmd generalizing m with
  | exec argv => rfl
  | redir cmd file mode fd ih => rw [nulterminate, ih, Cmd.leaves, List.foldl_append, List.foldl_cons, List.foldl_nil]
  | pipe left right ihl ihr => rw [nulterminate, ihl, ihr, Cmd.leaves, List.foldl_append]
  | list left right ihl ihr => rw [nulterminate, ihl, ihr, Cmd.leaves, List.foldl_append]
  | back cmd ih => rw [nulterminate, ih, Cmd.leaves]

theorem cut_of_ne {l : List Span} {i : Nat} (h : ∀ a ∈ l, a.2 ≠ i) (m : List UInt8) : (l.foldl (fun m a => m.set a.2 0) m)[i]? = m[i]? := by
  induction l generalizing m with
  | nil => rfl
  | cons a l ih =>
    obtain ⟨ha, hl⟩ := List.forall_mem_cons.1 h
    rw [List.foldl_cons, ih hl, List.getElem?_set_ne ha]

theorem cut_of_nul (l : List Span) {i : Nat} (h : m[i]? = some 0) : (l.foldl (fun m a => m.set a.2 0) m)[i]? = some 0 := by
  induction l generalizing m with
  | nil => exact h
  | cons a l ih =>
    rw [List.foldl_cons]
    refine ih ?_
    by_cases ha : a.2 = i
    · rw [ha, List.getElem?_set_self (List.getElem?_eq_some_iff.1 h).1]
    · rw [List.getElem?_set_ne ha, h]

theorem cut_of_mem {l : List Span} {a : Span} (ha : a ∈ l) (hlt : a.2 < m.length) : (l.foldl (fun m a => m.set a.2 0) m)[a.2]? = some 0 := by
  induction l generalizing m with
  | nil => cases ha
  | cons a' l ih =>
    rcases List.mem_cons.1 ha with rfl | ha
    · exact cut_of_nul l (List.getElem?_set_self hlt)
    · exact ih ha (by rwa [List.length_set])

/-- The word `w` stands between the pointers `a`, and what follows is no part of a word. -/
structure Spelt (m : List UInt8) (a : Span) (w : List UInt8) : Prop where
  word : IsWord w
  bytes : At m a.1 w
  length : a.2 = a.1 + w.length
  stop : ∃ b, m[a.2]? = some b ∧ ¬ WordByte b

def slice (m : List UInt8) (a : Span) : List UInt8 := (m.drop a.1).take (a.2 - a.1)

theorem Spelt.slice_eq {a : Span} (h : Spelt m a w) : slice m a = w := by
  rw [slice, h.length, Nat.add_sub_cancel_left]
  refine List.ext_getElem? fun i => ?_
  rcases Nat.lt_or_ge i w.length with hi | hi
  · rw [List.getElem?_take_of_lt hi, List.getElem?_drop, h.bytes i hi]
  · rw [List.getElem?_take_eq_none hi, List.getElem?_eq_none hi]

/-- The words of `cmd` are those of `t`. -/
def Spells (m : List UInt8) (cmd : Cmd Span) (t : Cmd (List UInt8)) : Prop :=
  (∀ a ∈ cmd.leaves, ∃ w, Spelt m a w) ∧ cmd.map (slice m) = t

theorem spelt_placeWords {ws : List (List UInt8)} (hws : ∀ w ∈ ws, IsWord w) (hat : At m p (joined ws))
    (hstop : ∃ b, m[p + (joined ws).length]? = some b ∧ ¬ WordByte b) :
    (∀ a ∈ placeWords ws p, ∃ w, Spelt m a w) ∧ (placeWords ws p).map (slice m) = ws := by
  induction ws generalizing p with
  | nil => exact ⟨nofun, rfl⟩
  | cons w ws ih =>
    obtain ⟨hw, hrest⟩ := List.forall_mem_cons.1 hws
    have hspelt : Spelt m (p, p + w.length) w := by
      cases ws with
      | nil => exact ⟨hw, hat, rfl, hstop⟩
      | cons w₂ ws =>
        rw [joined_cons_cons] at hat
        exact ⟨hw, hat.left, rfl, 32, hat.right.head, fun hb => hb.1 (by decide)⟩
    have htail : (∀ a ∈ placeWords ws (p + w.length + 1), ∃ w, Spelt m a w) ∧ (placeWords ws (p + w.length + 1)).map (slice m) = ws := by
      cases ws with
      | nil => exact ⟨nofun, rfl⟩
      | cons w₂ ws =>
        rw [joined_cons_cons] at hat hstop
        rw [List.length_append, List.length_cons, ← Nat.add_assoc, ← Nat.add_assoc, Nat.add_right_comm _ _ 1] at hstop
        exact ih hrest hat.right.tail hstop
    refine ⟨List.forall_mem_cons.2 ⟨⟨w, hspelt⟩, htail.1⟩, ?_⟩
    rw [placeWords, List.map_cons, hspelt.slice_eq, htail.2]

theorem not_wordByte_paren : ¬ WordByte 41 := fun hb => hb.2.1 (by decide)

theorem at_paren (h : At m p (40 :: (s ++ 41 :: s'))) : At m (p + 1) s ∧ m[p + 1 + s.length]? = some 41 ∧ At m (p + s.length + 2) s' := by
  have hafter := h.tail.right.tail
  have hpos : p + 1 + s.length + 1 = p + s.length + 2 := by omega
  rw [hpos] at hafter
  exact ⟨h.tail.left, h.tail.right.head, hafter⟩

theorem spells_two {left right : Cmd (List UInt8)} {c : UInt8}
    (hl : ∀ {p}, At m p (text left) → (∃ b, m[p + (text left).length]? = some b ∧ ¬ WordByte b) → Spells m (place left p) left)
    (hr : ∀ {p}, At m p (text right) → (∃ b, m[p + (text right).length]? = some b ∧ ¬ WordByte b) → Spells m (place right p) right)
    (hat : At m p (40 :: (text left ++ 41 :: c :: 40 :: (text right ++ [41])))) :
    Spells m (place left (p + 1)) left ∧ Spells m (place right (p + (text left).length + 4)) right := by
  obtain ⟨hleft, hparen, hafter⟩ := at_paren hat
  obtain ⟨hright, hparen', -⟩ := at_paren hafter.tail
  exact ⟨hl hleft ⟨41, hparen, not_wordByte_paren⟩, hr hright ⟨41, hparen', not_wordByte_paren⟩⟩

theorem spells_place (ht : Typable t) (hat : At m p (text t)) (hstop : ∃ b, m[p + (text t).length]? = some b ∧ ¬ WordByte b) :
    Spells m (place t p) t := by
  induction t generalizing p with
  | exec argv =>
    obtain ⟨hspelt, hmap⟩ := spelt_placeWords ht.2 hat hstop
    exact ⟨hspelt, congrArg Cmd.exec hmap⟩
  | redir cmd file mode fd ih =>
    obtain ⟨hcmd, hparen, hafter⟩ := at_paren hat
    obtain ⟨hspelt, hmap⟩ := ih ht.1 hcmd ⟨41, hparen, not_wordByte_paren⟩
    have hend : p + (text (.redir cmd file mode fd)).length = p + (text cmd).length + 3 + file.length := by
      simp only [text, List.length_cons, List.length_append]
      omega
    rw [hend] at hstop
    have hfile : Spelt m (p + (text cmd).length + 3, p + (text cmd).length + 3 + file.length) file := ⟨ht.2.1, hafter.tail, rfl, hstop⟩
    refine ⟨?_, ?_⟩
    · rw [place, Cmd.leaves, List.forall_mem_append, List.forall_mem_singleton]
      exact ⟨hspelt, file, hfile⟩
    · rw [place, Cmd.map, hmap, hfile.slice_eq]
  | pipe left right ihl ihr =>
    obtain ⟨⟨hspelt, hmap⟩, hspelt', hmap'⟩ := spells_two (ihl ht.1) (ihr ht.2) hat
    refine ⟨?_, ?_⟩
    · rw [place, Cmd.leaves, List.forall_mem_append]
      exact ⟨hspelt, hspelt'⟩
    · rw [place, Cmd.map, hmap, hmap']
  | list left right ihl ihr =>
    obtain ⟨⟨hspelt, hmap⟩, hspelt', hmap'⟩ := spells_two (ihl ht.1) (ihr ht.2) hat
    refine ⟨?_, ?_⟩
    · rw [place, Cmd.leaves, List.forall_mem_append]
      exact ⟨hspelt, hspelt'⟩
    · rw [place, Cmd.map, hmap, hmap']
  | back cmd ih =>
    obtain ⟨hcmd, hparen, -⟩ := at_paren hat
    obtain ⟨hspelt, hmap⟩ := ih ht hcmd ⟨41, hparen, not_wordByte_paren⟩
    exact ⟨hspelt, congrArg Cmd.back hmap⟩

theorem Cmd.map_congr {f g : α → β} {cmd : Cmd α} (h : ∀ a ∈ cmd.leaves, f a = g a) : cmd.map f = cmd.map g := by
  induction cmd with
  | exec argv => exact congrArg Cmd.exec (List.map_congr_left h)
  | redir cmd file mode fd ih =>
    obtain ⟨hcmd, hfile⟩ := List.forall_mem_append.1 h
    rw [Cmd.map, Cmd.map, ih hcmd, hfile file (List.mem_singleton_self file)]
  | pipe left right ihl ihr =>
    obtain ⟨hl, hr⟩ := List.forall_mem_append.1 h
    rw [Cmd.map, Cmd.map, ihl hl, ihr hr]
  | list left right ihl ihr =>
    obtain ⟨hl, hr⟩ := List.forall_mem_append.1 h
    rw [Cmd.map, Cmd.map, ihl hl, ihr hr]
  | back cmd ih => rw [Cmd.map, Cmd.map, ih h]

theorem Spelt.cstrAt_cut {l : List Span} (hl : ∀ a ∈ l, ∃ w, Spelt m a w) {a : Span} (ha : a ∈ l) :
    cstrAt (l.foldl (fun m a => m.set a.2 0) m) a.1 = slice m a := by
  obtain ⟨w, hw⟩ := hl a ha
  rw [hw.slice_eq]
  refine StrAt.cstrAt_eq ⟨fun h0 => (hw.word.bytes 0 h0).2.2 rfl, fun i hi => ?_, ?_⟩
  · have hbyte : m[a.1 + i]? = some w[i] := (hw.bytes i hi).trans (List.getElem?_eq_getElem hi)
    rw [cut_of_ne _ m, hbyte]
    intro a' ha' he
    obtain ⟨w', hw'⟩ := hl a' ha'
    obtain ⟨b, hb, hnot⟩ := hw'.stop
    rw [he, hbyte] at hb
    cases hb
    exact hnot (hw.word.bytes _ (List.getElem_mem hi))
  · obtain ⟨b, hb, -⟩ := hw.stop
    rw [← hw.length]
    exact cut_of_mem ha (List.getElem?_eq_some_iff.1 hb).1

theorem Spells.map_nulterminate (h : Spells m cmd t) : cmd.map (fun a => cstrAt (nulterminate cmd m) a.1) = t := by
  rw [← h.2, nulterminate_eq]
  exact Cmd.map_congr fun a ha => Spelt.cstrAt_cut h.1 ha

/-- The parser reads every command back from its text, word for word, and it comes to an end on every string. -/
theorem parsecmd_text :
    (∀ t, Typable t → ∀ n, 4 * (text t).length + 4 ≤ n →
      ∃ cmd m, parsecmd n (text t) = .ok (cmd, m) ∧ cmd.map (fun a => cstrAt m a.1) = t) ∧
    ∀ s n, 4 * s.length + 4 ≤ n → parsecmd n s ≠ .error .endless := by
  refine ⟨fun t ht n hn => ?_, fun s n hn => parsecmd_ends s hn⟩
  have hparse := parses ht 0 [] n (.inl rfl) (by rwa [List.append_nil])
  rw [List.append_nil, Nat.zero_add] at hparse
  have hat : At (text t ++ [0]) 0 (text t) := fun i hi => by rw [Nat.zero_add, List.getElem?_append_left hi]
  have hnul : (text t ++ [0])[0 + (text t).length]? = some 0 := by rw [Nat.zero_add, List.getElem?_concat_length]
  have hspells := spells_place ht hat ⟨0, hnul, fun hb => hb.2.2 rfl⟩
  refine ⟨place t 0, _, ?_, hspells.map_nulterminate⟩
  rw [parsecmd, hparse, ok_bind]
  rfl

def lsPipe : Cmd (List UInt8) := .redir (.pipe (.exec [[108, 115], [45, 108]]) (.exec [[119, 99]])) [102] (O_WRONLY ||| O_CREATE) 1

theorem parsecmd_lsPipe : (∃ cmd m, parsecmd 100 (text lsPipe) = .ok (cmd, m) ∧ cmd.map (fun a => cstrAt m a.1) = lsPipe) ∧
    parsecmd 20 [40, 40, 59] ≠ .error .endless := by
  have ht : Typable lsPipe := ⟨⟨⟨by decide, by decide⟩, ⟨by decide, by decide⟩⟩, by decide, .inr ⟨rfl, rfl⟩⟩
  exact ⟨parsecmd_text.1 lsPipe ht 100 (by decide), parsecmd_text.2 [40, 40, 59] 20 (by decide)⟩

end Ostep.Xv6.Sh
