import Mathlib.Data.List.Basic

/-!
# `grep` (`grep.c`)

Patterns and texts are C strings without their terminator. The matcher backtracks; `matchre_iff` says what it looks for. The loop
over the reads keeps an unfinished line for the next read, but only if the buffer has a newline in front of it.
-/

namespace Ostep.Xv6.Grep

/-! ### The matcher -/

mutual

def matchhere (re text : List UInt8) : Bool :=
  match re with
  | [] => true
  | c :: re =>
    if re.head? = some 42 then matchstar c re.tail text
    else if c = 36 ∧ re = [] then text.isEmpty
    else
      match text with
      | [] => false
      | t :: text => if c = 46 ∨ c = t then matchhere re text else false
termination_by (re.length, text.length, 0)
decreasing_by
  · exact Prod.Lex.left _ _ (Nat.lt_succ_of_le (List.length_tail ▸ Nat.sub_le _ _))
  · exact Prod.Lex.left _ _ (Nat.lt_succ_self _)

def matchstar (c : UInt8) (re text : List UInt8) : Bool :=
  if matchhere re text then true
  else
    match text with
    | [] => false
    | t :: text => if t = c ∨ c = 46 then matchstar c re text else false
termination_by (re.length, text.length, 1)
decreasing_by
  · exact Prod.Lex.right _ (Prod.Lex.right _ Nat.zero_lt_one)
  · exact Prod.Lex.right _ (Prod.Lex.left _ _ (Nat.lt_succ_self _))

end

def matchAny (re : List UInt8) : List UInt8 → Bool
  | [] => matchhere re []
  | t :: text => if matchhere re (t :: text) then true else matchAny re text

def matchre (re text : List UInt8) : Bool := if re.head? = some 94 then matchhere re.tail text else matchAny re text

/-! ### Patterns -/

/-- One character, with a `*` if one follows it. -/
structure Item where
  c : UInt8
  star : Bool
deriving DecidableEq

def items : List UInt8 → List Item
  | [] => []
  | [c] => [⟨c, false⟩]
  | c :: d :: re => if d = 42 then ⟨c, true⟩ :: items re else ⟨c, false⟩ :: items (d :: re)

/-- `.` stands for any character. -/
def Fits (c t : UInt8) : Prop := c = 46 ∨ c = t

/-- The items match the whole string. -/
inductive Matches : List Item → List UInt8 → Prop
  | nil : Matches [] []
  | one {c t : UInt8} {is : List Item} {s : List UInt8} : Fits c t → Matches is s → Matches (⟨c, false⟩ :: is) (t :: s)
  | star {c : UInt8} {is : List Item} {u s : List UInt8} : (∀ t ∈ u, Fits c t) → Matches is s → Matches (⟨c, true⟩ :: is) (u ++ s)

/-- The last item is a `$` without a star, which stands for the end of the text. -/
def ToEnd (is : List Item) : Prop := is.getLast? = some ⟨36, false⟩

instance (is : List Item) : Decidable (ToEnd is) := inferInstanceAs (Decidable (is.getLast? = some ⟨36, false⟩))

/-- The items without that `$`. -/
def core (is : List Item) : List Item := if ToEnd is then is.dropLast else is

/-- The items match the beginning of the text, or all of it if they end with `$`. -/
def Here (is : List Item) (text : List UInt8) : Prop := ∃ u b, text = u ++ b ∧ Matches (core is) u ∧ (ToEnd is → b = [])

variable {c : UInt8} {is : List Item} {re text : List UInt8} {i : Item}

theorem items_cons (c : UInt8) (re : List UInt8) :
    items (c :: re) = if re.head? = some 42 then ⟨c, true⟩ :: items re.tail else ⟨c, false⟩ :: items re := by
  cases re with
  | nil => rfl
  | cons d re => simp [items]

theorem items_ne_nil (c : UInt8) (re : List UInt8) : items (c :: re) ≠ [] := by
  rw [items_cons]
  split <;> nofun

theorem toEnd_cons (h : ¬ (i = ⟨36, false⟩ ∧ is = [])) : ToEnd (i :: is) ↔ ToEnd is := by
  unfold ToEnd
  cases is with
  | nil => simpa using h
  | cons j is => rw [List.getLast?_cons_cons]

theorem core_cons (h : ¬ (i = ⟨36, false⟩ ∧ is = [])) : core (i :: is) = i :: core is := by
  unfold core
  rw [if_congr (toEnd_cons h) rfl rfl]
  split
  · next hend =>
    cases is with
    | nil => cases hend
    | cons j is => rfl
  · rfl

theorem here_nil (text : List UInt8) : Here [] text := ⟨[], text, rfl, .nil, nofun⟩

theorem here_dollar : Here [⟨36, false⟩] text ↔ text = [] := by
  constructor
  · rintro ⟨u, b, rfl, hm, hb⟩
    cases hm
    exact hb rfl
  · rintro rfl
    exact ⟨[], [], rfl, .nil, fun _ => rfl⟩

theorem here_one (h : ¬ (c = 36 ∧ is = [])) : Here (⟨c, false⟩ :: is) text ↔ ∃ t s, text = t :: s ∧ Fits c t ∧ Here is s := by
  have h' : ¬ ((⟨c, false⟩ : Item) = ⟨36, false⟩ ∧ is = []) := fun ⟨he, hn⟩ => h ⟨congrArg Item.c he, hn⟩
  unfold Here
  rw [core_cons h']
  simp only [toEnd_cons h']
  constructor
  · rintro ⟨u, b, rfl, hm, hb⟩
    cases hm with
    | one hf hm => exact ⟨_, _, rfl, hf, _, b, rfl, hm, hb⟩
  · rintro ⟨t, -, rfl, hf, u, b, rfl, hm, hb⟩
    exact ⟨t :: u, b, rfl, .one hf hm, hb⟩

theorem here_star : Here (⟨c, true⟩ :: is) text ↔ ∃ u s, text = u ++ s ∧ (∀ t ∈ u, Fits c t) ∧ Here is s := by
  have h' : ¬ ((⟨c, true⟩ : Item) = ⟨36, false⟩ ∧ is = []) := fun ⟨he, _⟩ => Bool.true_eq_false.mp (congrArg Item.star he)
  unfold Here
  rw [core_cons h']
  simp only [toEnd_cons h']
  constructor
  · rintro ⟨u, b, rfl, hm, hb⟩
    cases hm with
    | star hf hm => exact ⟨_, _, List.append_assoc .., hf, _, b, rfl, hm, hb⟩
  · rintro ⟨v, -, rfl, hf, u, b, rfl, hm, hb⟩
    exact ⟨v ++ u, b, (List.append_assoc ..).symm, .star hf hm, hb⟩

/-! ### What the matcher finds -/

theorem matchstar_iff (c : UInt8) (re text : List UInt8) :
    matchstar c re text = true ↔ ∃ u s, text = u ++ s ∧ (∀ t ∈ u, Fits c t) ∧ matchhere re s = true := by
  induction text with
  | nil =>
    rw [matchstar]
    simp
  | cons t text ih =>
    rw [matchstar]
    constructor
    · intro h
      split at h
      · next hhere => exact ⟨[], t :: text, rfl, nofun, hhere⟩
      · split at h
        · next ht =>
          obtain ⟨u, s, rfl, hu, hs⟩ := ih.1 h
          refine ⟨t :: u, s, rfl, fun x hx => ?_, hs⟩
          rcases List.mem_cons.1 hx with rfl | hx
          · exact ht.symm.imp_right Eq.symm
          · exact hu x hx
        · cases h
    · rintro ⟨u, s, heq, hu, hs⟩
      cases u with
      | nil =>
        rw [List.nil_append] at heq
        rw [heq, if_pos hs]
      | cons x u =>
        obtain ⟨rfl, rfl⟩ := List.cons.inj heq
        have ht : t = c ∨ c = 46 := (hu t List.mem_cons_self).symm.imp_left Eq.symm
        have hrest := ih.2 ⟨u, s, rfl, fun y hy => hu y (List.mem_cons_of_mem t hy), hs⟩
        simp only [if_pos ht, hrest, ite_self]

theorem matchhere_cons (c : UInt8) (re text : List UInt8) : matchhere (c :: re) text =
    if re.head? = some 42 then matchstar c re.tail text
    else if c = 36 ∧ re = [] then text.isEmpty
    else
      match text with
      | [] => false
      | t :: text => if c = 46 ∨ c = t then matchhere re text else false := by
  rw [matchhere.eq_def]

theorem matchhere_iff (re text : List UInt8) : matchhere re text = true ↔ Here (items re) text := by
  induction hn : re.length using Nat.strongRecOn generalizing re text with
  | ind n ih =>
    subst hn
    cases re with
    | nil =>
      refine iff_of_true ?_ (here_nil text)
      simp [matchhere]
    | cons c re =>
      rw [matchhere_cons, items_cons]
      by_cases hstar : re.head? = some 42
      · have htail : re.tail.length < (c :: re).length := by
          rw [List.length_tail, List.length_cons]
          omega
        rw [if_pos hstar, if_pos hstar, matchstar_iff, here_star]
        simp only [ih _ htail re.tail _ rfl]
      rw [if_neg hstar, if_neg hstar]
      by_cases hend : c = 36 ∧ re = []
      · obtain ⟨rfl, rfl⟩ := hend
        rw [if_pos ⟨rfl, rfl⟩, items, here_dollar, List.isEmpty_iff]
      · have hend' : ¬ (c = 36 ∧ items re = []) := by
          rintro ⟨rfl, hnil⟩
          cases re with
          | nil => exact hend ⟨rfl, rfl⟩
          | cons d re => exact items_ne_nil d re hnil
        rw [if_neg hend, here_one hend']
        cases text with
        | nil => simp
        | cons t text =>
          have hrest := ih re.length (Nat.lt_succ_self _) re text rfl
          by_cases ht : c = 46 ∨ c = t
          · simp [ht, hrest, Fits]
          · simp [ht, Fits]

theorem matchAny_iff (re text : List UInt8) : matchAny re text = true ↔ ∃ a s, text = a ++ s ∧ matchhere re s = true := by
  induction text with
  | nil => simp [matchAny]
  | cons t text ih =>
    rw [matchAny]
    constructor
    · intro h
      split at h
      · next hhere => exact ⟨[], t :: text, rfl, hhere⟩
      · obtain ⟨a, s, rfl, hs⟩ := ih.1 h
        exact ⟨t :: a, s, rfl, hs⟩
    · rintro ⟨a, s, heq, hs⟩
      cases a with
      | nil =>
        rw [List.nil_append] at heq
        rw [heq, if_pos hs]
      | cons x a =>
        obtain ⟨rfl, rfl⟩ := List.cons.inj heq
        rw [ih.2 ⟨a, s, rfl, hs⟩, ite_self]

/-- What follows a `^` at the start of the pattern. -/
def body (re : List UInt8) : List UInt8 := if re.head? = some 94 then re.tail else re

/-- `match` finds a part of the text that the items of the pattern match, at the start of the text behind a `^` and at its end in
front of a last `$`. -/
theorem matchre_iff (re text : List UInt8) : matchre re text = true ↔
    ∃ a u b, text = a ++ u ++ b ∧ Matches (core (items (body re))) u ∧ (re.head? = some 94 → a = []) ∧ (ToEnd (items (body re)) → b = []) := by
  unfold matchre body
  by_cases hstart : re.head? = some 94
  · rw [if_pos hstart, if_pos hstart, matchhere_iff]
    simp only [hstart, forall_const]
    constructor
    · rintro ⟨u, b, rfl, hm, hb⟩
      exact ⟨[], u, b, rfl, hm, rfl, hb⟩
    · rintro ⟨a, u, b, rfl, hm, rfl, hb⟩
      exact ⟨u, b, rfl, hm, hb⟩
  · rw [if_neg hstart, if_neg hstart, matchAny_iff]
    simp only [matchhere_iff]
    constructor
    · rintro ⟨a, s, rfl, u, b, rfl, hm, hb⟩
      exact ⟨a, u, b, (List.append_assoc ..).symm, hm, fun h => absurd h hstart, hb⟩
    · rintro ⟨a, u, b, rfl, hm, -, hb⟩
      exact ⟨a, u ++ b, List.append_assoc .., u, b, rfl, hm, hb⟩

/-! ### The loop over the reads -/

def BUFSIZE : Nat := 1024

/-- The loop over the lines in the buffer, from `p` on: what is written, and where `p` is at the end. -/
def grepLines (pattern : List UInt8) : Nat → List UInt8 → List UInt8 × List UInt8
  | 0, p => ([], p)
  | fuel + 1, p =>
    if 10 ∈ p then
      let line := p.takeWhile (· ≠ 10)
      let (out, rest) := grepLines pattern fuel ((p.dropWhile (· ≠ 10)).drop 1)
      (if matchre pattern line then line ++ [10] ++ out else out, rest)
    else ([], p)

/-- `grep`, with `buf` the bytes that it has kept and the chunks that the reads return. A read that asks for no bytes returns 0. -/
def grepFrom (pattern : List UInt8) : List UInt8 → List (List UInt8) → List UInt8
  | _, [] => []
  | buf, chunk :: chunks =>
    if BUFSIZE - buf.length - 1 = 0 then []
    else
      let buf := buf ++ chunk
      let (out, p) := grepLines pattern buf.length buf
      -- nothing is kept when `p` has not moved
      out ++ grepFrom pattern (if p.length = buf.length then [] else p) chunks

def grep (pattern : List UInt8) (chunks : List (List UInt8)) : List UInt8 := grepFrom pattern [] chunks

def unlines (ls : List (List UInt8)) : List UInt8 := ls.flatMap (· ++ [10])

/-- A line that fits into the buffer with its newline. -/
def IsLine (l : List UInt8) : Prop := 10 ∉ l ∧ 0 ∉ l ∧ l.length ≤ 1022

variable {pattern buf p l : List UInt8} {ls : List (List UInt8)} {chunks : List (List UInt8)} {fuel : Nat}

theorem unlines_cons (l : List UInt8) (ls : List (List UInt8)) : unlines (l :: ls) = l ++ 10 :: unlines ls := by
  simp [unlines]

theorem takeWhile_line (hl : 10 ∉ l) (r : List UInt8) : (l ++ 10 :: r).takeWhile (· ≠ 10) = l ∧ ((l ++ 10 :: r).dropWhile (· ≠ 10)).drop 1 = r := by
  have hne : ∀ x ∈ l, decide (x ≠ 10) = true := fun x hx => decide_eq_true fun h => hl (h ▸ hx)
  constructor
  · rw [List.takeWhile_append_of_pos hne, List.takeWhile_cons_of_neg (by simp), List.append_nil]
  · rw [List.dropWhile_append_of_pos hne, List.dropWhile_cons_of_neg (by simp)]
    rfl

/-- The buffer holds some lines and the beginning of another. -/
theorem grepLines_lines (hl : ∀ l ∈ ls, 10 ∉ l) (hp : 10 ∉ p) (hfuel : ls.length ≤ fuel) :
    grepLines pattern fuel (unlines ls ++ p) = (unlines (ls.filter (matchre pattern)), p) := by
  induction ls generalizing fuel with
  | nil =>
    cases fuel with
    | zero => rfl
    | succ fuel => exact if_neg hp
  | cons l ls ih =>
    cases fuel with
    | zero => exact absurd hfuel (Nat.not_succ_le_zero _)
    | succ fuel =>
      obtain ⟨htake, hdrop⟩ := takeWhile_line (hl l List.mem_cons_self) (unlines ls ++ p)
      have hrest := ih (fun l' h' => hl l' (List.mem_cons_of_mem l h')) (Nat.le_of_succ_le_succ hfuel)
      rw [unlines_cons, List.append_assoc, List.cons_append, grepLines, if_pos (by simp), htake, hdrop, hrest, List.filter_cons]
      dsimp only
      split
      · simp [unlines]
      · rfl

theorem exists_lines (p : List UInt8) : ∃ ls q, p = unlines ls ++ q ∧ (∀ l ∈ ls, 10 ∉ l) ∧ 10 ∉ q := by
  induction p with
  | nil => exact ⟨[], [], rfl, nofun, nofun⟩
  | cons c p ih =>
    obtain ⟨ls, q, rfl, hl, hq⟩ := ih
    by_cases hc : c = 10
    · refine ⟨[] :: ls, q, by rw [unlines_cons, hc]; rfl, fun l h => ?_, hq⟩
      rcases List.mem_cons.1 h with rfl | h
      · nofun
      · exact hl l h
    · cases ls with
      | nil => exact ⟨[], c :: q, rfl, nofun, by simp [Ne.symm hc, hq]⟩
      | cons l ls =>
        refine ⟨(c :: l) :: ls, q, by simp [unlines_cons], fun l' h => ?_, hq⟩
        rcases List.mem_cons.1 h with rfl | h
        · simp [Ne.symm hc, hl l List.mem_cons_self]
        · exact hl l' (List.mem_cons_of_mem l h)

theorem length_le_unlines (ls : List (List UInt8)) : ls.length ≤ (unlines ls).length := by
  induction ls with
  | nil => exact Nat.le_refl 0
  | cons l ls ih =>
    rw [unlines_cons, List.length_append, List.length_cons, List.length_cons]
    omega

theorem grepFrom_cons {q : List UInt8} {chunk : List UInt8} (hroom : buf.length < 1023) (heq : buf ++ chunk = unlines ls ++ q)
    (hl : ∀ l ∈ ls, 10 ∉ l) (hq : 10 ∉ q) : grepFrom pattern buf (chunk :: chunks) =
      unlines (ls.filter (matchre pattern)) ++ grepFrom pattern (if ls = [] then [] else q) chunks := by
  have hlen := length_le_unlines ls
  have hask : ¬ BUFSIZE - buf.length - 1 = 0 := by
    unfold BUFSIZE
    omega
  rw [grepFrom, if_neg hask, heq]
  dsimp only
  rw [grepLines_lines hl hq (by rw [List.length_append]; omega)]
  have hmoved : q.length = (unlines ls ++ q).length ↔ ls = [] := by
    rw [List.length_append]
    cases ls with
    | nil => simp [unlines]
    | cons l ls => simp [unlines_cons]
  simp only [hmoved]

theorem line_inj {l' r r' : List UInt8} (hl : 10 ∉ l) (hl' : 10 ∉ l') (h : l ++ 10 :: r = l' ++ 10 :: r') : l = l' ∧ r = r' := by
  obtain ⟨htake, hdrop⟩ := takeWhile_line hl r
  rw [h, (takeWhile_line hl' r').1] at htake
  rw [h, (takeWhile_line hl' r').2] at hdrop
  exact ⟨htake.symm, hdrop.symm⟩

theorem unlines_split {ls' : List (List UInt8)} {r : List UInt8} (hl : ∀ l ∈ ls, 10 ∉ l) (hl' : ∀ l ∈ ls', 10 ∉ l)
    (h : unlines ls' ++ r = unlines ls) : ∃ ls₂, ls = ls' ++ ls₂ ∧ r = unlines ls₂ := by
  induction ls' generalizing ls with
  | nil => exact ⟨ls, rfl, h⟩
  | cons l' ls' ih =>
    rw [unlines_cons, List.append_assoc, List.cons_append] at h
    cases ls with
    | nil => exact absurd h (by simp [unlines])
    | cons l ls =>
      rw [unlines_cons] at h
      obtain ⟨rfl, hrest⟩ := line_inj (hl' l' List.mem_cons_self) (hl l List.mem_cons_self) h
      obtain ⟨ls₂, rfl, hr⟩ := ih (fun x hx => hl x (List.mem_cons_of_mem _ hx)) (fun x hx => hl' x (List.mem_cons_of_mem _ hx)) hrest
      exact ⟨ls₂, rfl, hr⟩

theorem length_of_append_eq {r r' : List UInt8} (hbuf : 10 ∉ buf) (h : buf ++ r = l ++ 10 :: r') : buf.length ≤ l.length := by
  by_contra hlt
  have hat := congrArg (·[l.length]?) h
  rw [List.getElem?_append_left (by omega), List.getElem?_append_right (Nat.le_refl _), Nat.sub_self] at hat
  exact hbuf (List.mem_of_getElem? hat)

theorem grepFrom_of_newlines (hls : ∀ l ∈ ls, IsLine l) (hbuf : 10 ∉ buf) (heq : buf ++ chunks.flatten = unlines ls)
    (hnl : ∀ c ∈ chunks, 10 ∈ c) : grepFrom pattern buf chunks = unlines (ls.filter (matchre pattern)) := by
  have hl : ∀ l ∈ ls, 10 ∉ l := fun l h => (hls l h).1
  induction chunks generalizing buf ls with
  | nil =>
    cases ls with
    | nil => rfl
    | cons l ls =>
      rw [unlines_cons, List.flatten_nil, List.append_nil] at heq
      exact absurd (heq ▸ by simp) hbuf
  | cons chunk chunks ih =>
    have hchunk := hnl chunk List.mem_cons_self
    rw [List.flatten_cons, ← List.append_assoc] at heq
    obtain ⟨ls₁, q, hread, hl₁, hq⟩ := exists_lines (buf ++ chunk)
    have hne : ls₁ ≠ [] := by
      rintro rfl
      have hsame : buf ++ chunk = q := hread
      exact hq (hsame ▸ List.mem_append_right buf hchunk)
    have hall := heq
    rw [hread, List.append_assoc] at heq
    obtain ⟨ls₂, rfl, hrest⟩ := unlines_split hl hl₁ heq
    have hroom : buf.length < 1023 := by
      obtain ⟨l, ls₁, rfl⟩ := List.exists_cons_of_ne_nil hne
      rw [List.append_assoc, List.cons_append, unlines_cons] at hall
      have hle := length_of_append_eq hbuf hall
      have hmax := (hls l (by simp)).2.2
      omega
    rw [grepFrom_cons hroom hread hl₁ hq, if_neg hne, List.filter_append, unlines, unlines, List.flatMap_append]
    congr 1
    exact ih (fun l h => hls l (List.mem_append_right _ h)) hq hrest (fun c hc => hnl c (List.mem_cons_of_mem _ hc))
      fun l h => hl l (List.mem_append_right _ h)

theorem matchre_nil (text : List UInt8) : matchre [] text = true := by
  cases text <;> simp [matchre, matchAny, matchhere]

theorem length_grepFrom (hbuf : 10 ∉ buf) (hne : ∀ c ∈ chunks, c ≠ []) :
    (grepFrom [] buf chunks).length ≤ buf.length + chunks.flatten.length ∧
      ((∃ c ∈ chunks, 10 ∉ c) → (grepFrom [] buf chunks).length < buf.length + chunks.flatten.length) := by
  induction chunks generalizing buf with
  | nil => exact ⟨Nat.zero_le _, nofun⟩
  | cons chunk chunks ih =>
    have hpos := List.length_pos_iff.2 (hne chunk List.mem_cons_self)
    rw [List.flatten_cons, List.length_append]
    by_cases hroom : buf.length < 1023
    · obtain ⟨ls, q, hread, hl, hq⟩ := exists_lines (buf ++ chunk)
      have hlen := congrArg List.length hread
      rw [List.length_append, List.length_append] at hlen
      have hall : ls.filter (matchre []) = ls := List.filter_eq_self.2 fun l _ => matchre_nil l
      rw [grepFrom_cons hroom hread hl hq, hall, List.length_append]
      by_cases hnil : ls = []
      · obtain ⟨hle, -⟩ := ih List.not_mem_nil fun c hc => hne c (List.mem_cons_of_mem _ hc)
        rw [if_pos hnil, hnil]
        rw [List.length_nil] at hle
        have hzero : (unlines []).length = 0 := rfl
        omega
      · rw [if_neg hnil]
        obtain ⟨hle, hlt⟩ := ih hq fun c hc => hne c (List.mem_cons_of_mem _ hc)
        refine ⟨by omega, ?_⟩
        rintro ⟨c, hc, h10⟩
        rcases List.mem_cons.1 hc with rfl | hc
        · -- there is a newline in the buffer, which is that of the chunk
          obtain ⟨l, ls, rfl⟩ := List.exists_cons_of_ne_nil hnil
          have hmem : 10 ∈ buf ++ c := by
            rw [hread, unlines_cons]
            simp
          exact absurd hmem (by simp [hbuf, h10])
        · have := hlt ⟨c, hc, h10⟩
          omega
    · have hstop : grepFrom [] buf (chunk :: chunks) = [] := by
        rw [grepFrom, if_pos (by unfold BUFSIZE; omega)]
      rw [hstop, List.length_nil]
      exact ⟨Nat.zero_le _, fun _ => by omega⟩

/-- For all patterns `grep` writes the lines that match, exactly when every read brings a newline. -/
theorem grep_eq_iff (hls : ∀ l ∈ ls, IsLine l) (hne : ∀ c ∈ chunks, c ≠ []) (heq : chunks.flatten = unlines ls) :
    (∀ pattern, grep pattern chunks = unlines (ls.filter (matchre pattern))) ↔ ∀ c ∈ chunks, 10 ∈ c := by
  constructor
  · intro h
    by_contra hno
    obtain ⟨c, hc⟩ := not_forall.1 hno
    obtain ⟨hc, h10⟩ := Classical.not_imp.1 hc
    have hlt := (length_grepFrom List.not_mem_nil hne).2 ⟨c, hc, h10⟩
    have hall : ls.filter (matchre []) = ls := List.filter_eq_self.2 fun l _ => matchre_nil l
    have hout : grepFrom [] [] chunks = unlines (ls.filter (matchre [])) := h []
    rw [hout, hall, heq, List.length_nil] at hlt
    omega
  · intro h pattern
    exact grepFrom_of_newlines hls nofun heq h

/-- The line `ab`, cut after its first character. -/
theorem grep_loses_a : [[97], [98, 10]].flatten = unlines [[97, 98]] ∧ matchre [97] [97, 98] = true ∧
    grep [97] [[97], [98, 10]] = [] ∧ grep [97] [[97, 98, 10]] = [97, 98, 10] := by
  refine ⟨rfl, ?_, ?_, ?_⟩ <;> simp [grep, grepFrom, grepLines, matchre, matchAny, matchhere, BUFSIZE]

theorem grep_eq_iff_ab : grep [97] [[97, 98, 10, 97], [10]] = [97, 98, 10, 97, 10] := by
  have hcut : ([[97, 98, 10, 97], [10]] : List (List UInt8)).flatten = unlines [[97, 98], [97]] := rfl
  rw [(grep_eq_iff (by simp [IsLine]) (by simp) hcut).2 (by simp) [97]]
  simp [unlines, matchre, matchAny, matchhere]

end Ostep.Xv6.Grep
