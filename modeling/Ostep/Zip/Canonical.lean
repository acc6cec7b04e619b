import Ostep.Zip.Parallel

/-!
# Canonical archives

`Encodes` says that some bytes are the archive of the canonical records of a text; there is only one such archive, so an output that
encodes its input cannot depend on lines, files or slices. `wzip` encodes NUL-free files and gives back canonical archives as long as
no line is too long for its `int`, and the workers of `pzip` with the merge loop encode texts cut in any way as long as no text is
too long for theirs.
-/

namespace Ostep

open Rle

/-- `out` is the archive of the canonical records of `text`. -/
def Encodes (out text : Bytes) : Prop := ∃ rs, Canonical rs ∧ Fits rs ∧ expand rs = text ∧ out = archive rs

section
variable {out out' text : Bytes}

theorem encodes_runs (h : Fits (runs text)) : Encodes (archive (runs text)) text :=
  ⟨runs text, canonical_runs text, h, expand_runs text, rfl⟩

theorem Encodes.unique (h : Encodes out text) (h' : Encodes out' text) : out = out' := by
  obtain ⟨rs, hc, -, he, rfl⟩ := h
  obtain ⟨rs', hc', -, he', rfl⟩ := h'
  rw [runs_unique hc he, runs_unique hc' he']

theorem Encodes.wunzip_eq (h : Encodes out text) : wunzip [some out] = .ok text := by
  obtain ⟨rs, -, hf, he, rfl⟩ := h
  rw [wunzip_single, wunzipLoop_archive hf, he]

end

/-! ### `wzip` -/

/-- `wzip` ends and encodes the contents of its files. -/
def WzipEncodes (curr₀ : UInt8) (files : List Bytes) : Prop :=
  ∃ out, wzip curr₀ (files.map some) = .ok out ∧ Encodes out files.flatten

theorem ShortLines.of_wzipEncodes (curr₀ : UInt8) {files : List Bytes} (hne : files ≠ []) (hrun : Fits (runs files.flatten))
    (h : WzipEncodes curr₀ files) : ShortLines files := by
  obtain ⟨out, hout, henc⟩ := h
  have hseen := (roundTrips_iff_seen curr₀ hne hrun).1 ⟨out, hout, henc.wunzip_eq⟩
  exact ((seen_flatMap_getlines_iff files).1 hseen).2

theorem wzip_encodes_iff (curr₀ : UInt8) (files : List Bytes) (hne : files ≠ []) (hfiles : ∀ f ∈ files, f ≠ [] ∧ 0 ∉ f)
    (hrun : ∀ r ∈ runs files.flatten, r.2 < 2 ^ 31) : WzipEncodes curr₀ files ↔ ShortLines files :=
  ⟨.of_wzipEncodes curr₀ hne hrun, fun h => ⟨_, wzip_of_shortLines curr₀ hne hfiles hrun h, encodes_runs hrun⟩⟩

theorem wzip_encodes_two_files : WzipEncodes 0 [[97, 97, 10], [10, 98]] := by
  refine (wzip_encodes_iff 0 _ (by decide) (by decide) (by decide)).2 ?_
  show ∀ f ∈ [[97, 97, 10], [10, 98]], ∀ l ∈ getlines f, l.length < 2 ^ 31
  decide

def twoRuns (n : Nat) : Bytes := List.replicate n 97 ++ List.replicate n 98

section
variable {n : Nat}

theorem canonical_twoRuns (h : 0 < n) : Canonical [((97 : UInt8), n), (98, n)] := by
  refine ⟨fun r hr => ?_, by simp⟩
  obtain rfl | rfl : r = (97, n) ∨ r = (98, n) := by simpa using hr
  all_goals exact h

theorem runs_twoRuns (h : 0 < n) : runs (twoRuns n) = [(97, n), (98, n)] :=
  (runs_unique (canonical_twoRuns h) (by simp [twoRuns])).symm

theorem fits_twoRuns (h : 0 < n) (hn : n < 2 ^ 31) : Fits (runs (twoRuns n)) := by
  rw [runs_twoRuns h]
  intro r hr
  obtain rfl | rfl : r = (97, n) ∨ r = (98, n) := by simpa using hr
  all_goals exact hn

theorem mem_twoRuns {c : UInt8} (h : c ∈ twoRuns n) : c = 97 ∨ c = 98 :=
  (List.mem_append.1 h).imp List.eq_of_mem_replicate List.eq_of_mem_replicate

theorem length_twoRuns : (twoRuns n).length = n + n := by simp [twoRuns]

theorem twoRuns_ne_nil (h : 0 < n) : twoRuns n ≠ [] := List.ne_nil_of_length_pos (by rw [length_twoRuns]; omega)

theorem not_shortLines_twoRuns (h : 2 ^ 31 ≤ n + n) : ¬ ShortLines [twoRuns n] := by
  intro hs
  have hne : twoRuns n ≠ [] := twoRuns_ne_nil (by omega)
  cases hg : getlines (twoRuns n) with
  | nil =>
    have := flatten_getlines (twoRuns n)
    rw [hg] at this
    exact hne this.symm
  | cons l ls =>
    have hl : 10 ∉ l := fun h10 => by
      have hmem : (10 : UInt8) ∈ twoRuns n := by
        rw [← flatten_getlines (twoRuns n), hg]
        exact List.mem_append_left _ h10
      obtain h | h := mem_twoRuns hmem <;> cases h
    have hlen := hs _ List.mem_cons_self l (by rw [hg]; exact List.mem_cons_self)
    rw [← (getlines_eq_singleton hg hl).2, length_twoRuns] at hlen
    omega

end

/-- A line of 2^31 bytes: `strlen` does not fit `len`. -/
theorem not_wzipEncodes_long_line : [twoRuns (2 ^ 30)] ≠ [] ∧ (∀ f ∈ [twoRuns (2 ^ 30)], f ≠ [] ∧ 0 ∉ f) ∧
    (∀ r ∈ runs [twoRuns (2 ^ 30)].flatten, r.2 < 2 ^ 31) ∧ ¬ WzipEncodes 0 [twoRuns (2 ^ 30)] := by
  have hflat : [twoRuns (2 ^ 30)].flatten = twoRuns (2 ^ 30) := List.flatten_singleton
  have hrun : Fits (runs [twoRuns (2 ^ 30)].flatten) := by
    rw [hflat]
    exact fits_twoRuns (by omega) (by omega)
  have hne : [twoRuns (2 ^ 30)] ≠ [] := List.cons_ne_nil _ _
  refine ⟨hne, fun f hf => ?_, hrun, fun h => not_shortLines_twoRuns (by omega) (.of_wzipEncodes 0 hne hrun h)⟩
  obtain rfl := List.mem_singleton.1 hf
  refine ⟨twoRuns_ne_nil (by omega), fun h0 => ?_⟩
  obtain h | h := mem_twoRuns h0 <;> cases h

/-! ### Archives of `wunzip` -/

/-- A canonical archive of characters other than NUL, with counts that fit an `int`. -/
structure Archive (rs : List (UInt8 × Nat)) : Prop where
  ne_nil : rs ≠ []
  canonical : Canonical rs
  fits : Fits rs
  noNul : ∀ r ∈ rs, r.1 ≠ 0

/-- `wzip` of what `wunzip` writes for the archive `z` is `z`. -/
def Rezips (curr₀ : UInt8) (z : Bytes) : Prop := ∃ text, wunzip [some z] = .ok text ∧ wzip curr₀ [some text] = .ok z

section
variable {rs : List (UInt8 × Nat)}

theorem Archive.wunzip_eq (h : Archive rs) : wunzip [some (archive rs)] = .ok (expand rs) := by
  rw [wunzip_single, wunzipLoop_archive h.fits]

theorem Archive.runs_expand (h : Archive rs) : runs (expand rs) = rs := (runs_unique h.canonical rfl).symm

theorem Archive.mem_expand (h : Archive rs) {c : UInt8} (hc : c ∈ expand rs) : c ≠ 0 := by
  obtain ⟨r, hr, hc⟩ := List.mem_flatMap.1 hc
  rw [List.eq_of_mem_replicate hc]
  exact h.noNul r hr

theorem Archive.expand_ne_nil (h : Archive rs) : expand rs ≠ [] := by
  obtain ⟨r, rs, rfl⟩ := List.exists_cons_of_ne_nil h.ne_nil
  have hpos := h.canonical.pos r List.mem_cons_self
  refine List.ne_nil_of_length_pos ?_
  rw [expand_cons, List.length_append, List.length_replicate]
  omega

theorem Archive.shortLines_of_rezips {curr₀ : UInt8} (h : Archive rs) (hz : Rezips curr₀ (archive rs)) : ShortLines [expand rs] := by
  obtain ⟨text, hu, hw⟩ := hz
  obtain rfl : expand rs = text := Except.ok.inj (h.wunzip_eq.symm.trans hu)
  have hflat : [expand rs].flatten = expand rs := List.flatten_singleton
  refine .of_wzipEncodes curr₀ (List.cons_ne_nil _ _) ?_ ⟨_, hw, rs, h.canonical, h.fits, hflat.symm, rfl⟩
  rw [hflat, h.runs_expand]
  exact h.fits

/-- Compressing an expanded archive gives the archive back exactly when no line of the text is too long for `wzip`. -/
theorem rezips_iff (curr₀ : UInt8) (h : Archive rs) : Rezips curr₀ (archive rs) ↔ ShortLines [expand rs] := by
  refine ⟨h.shortLines_of_rezips, fun hs => ⟨expand rs, h.wunzip_eq, ?_⟩⟩
  have hflat : [expand rs].flatten = expand rs := List.flatten_singleton
  have hw := wzip_of_shortLines curr₀ (List.cons_ne_nil (expand rs) []) (fun f hf => ?_) ?_ hs
  · rw [hflat, h.runs_expand] at hw
    exact hw
  · obtain rfl := List.mem_singleton.1 hf
    exact ⟨h.expand_ne_nil, fun h0 => h.mem_expand h0 rfl⟩
  · rw [hflat, h.runs_expand]
    exact h.fits

end

theorem rezips_two_records : Archive [(97, 2), (10, 1)] ∧ Rezips 0 (archive [(97, 2), (10, 1)]) := by
  have h : Archive [(97, 2), (10, 1)] := ⟨by decide, ⟨by decide, by decide⟩, by unfold Fits; decide, by decide⟩
  refine ⟨h, (rezips_iff 0 h).2 ?_⟩
  show ∀ f ∈ [expand [((97 : UInt8), 2), (10, 1)]], ∀ l ∈ getlines f, l.length < 2 ^ 31
  decide

/-- Two records of 2^30 bytes each make a line that is too long. -/
theorem not_rezips_long_line : Archive [(97, 2 ^ 30), (98, 2 ^ 30)] ∧ ¬ Rezips 0 (archive [(97, 2 ^ 30), (98, 2 ^ 30)]) := by
  have hpos : 0 < 2 ^ 30 := by omega
  have hfits := fits_twoRuns hpos (by omega)
  rw [runs_twoRuns hpos] at hfits
  have h : Archive [(97, 2 ^ 30), (98, 2 ^ 30)] := by
    refine ⟨List.cons_ne_nil _ _, canonical_twoRuns hpos, hfits, fun r hr => ?_⟩
    obtain rfl | rfl : r = (97, 2 ^ 30) ∨ r = (98, 2 ^ 30) := by simpa using hr
    all_goals exact nofun
  refine ⟨h, fun hz => not_shortLines_twoRuns (n := 2 ^ 30) (by omega) ?_⟩
  have hexp : expand [((97 : UInt8), 2 ^ 30), (98, 2 ^ 30)] = twoRuns (2 ^ 30) := by
    rw [expand_cons, expand_cons, expand_nil, List.append_nil]
    rfl
  rw [← hexp]
  exact h.shortLines_of_rezips hz

/-! ### Slices -/

def sliceOffset (slices : List Bytes) (j : Nat) : Nat := (slices.take j).flatten.length

/-- One round of the loop of `main` over the files, for a text that is cut into these slices: a worker for each, and then the merge
loop. -/
def mergeSlices (s : PzipSt) (slices : List Bytes) : Except Stop PzipSt := do
  let res ← (List.range slices.length).mapM fun j =>
    zip slices.flatten (sliceOffset slices j) (sliceOffset slices (j + 1))
  res.foldlM (fun s r => mergeRes r s) s

/-- `main` of `pzip.c` from the declaration of `old_char` on. -/
def mergeTexts (texts : List (List Bytes)) : Except Stop Bytes := do
  let s ← texts.foldlM mergeSlices ⟨-17, 0, []⟩
  return if s.old_count > 0 then s.out ++ fwriteRun s.old_count (lowByte s.old_char) else s.out

section
variable {slices : List Bytes} {j : Nat}

end

/-- The merge loop ends and its output encodes the concatenation of the texts. -/
def MergeEncodes (texts : List (List Bytes)) : Prop := ∃ out, mergeTexts texts = .ok out ∧ Encodes out texts.flatten.flatten

section
variable {texts : List (List Bytes)}

end

end Ostep
