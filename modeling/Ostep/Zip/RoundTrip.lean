import Mathlib.Data.List.TakeDrop
import Mathlib.Data.List.TakeWhile
import Ostep.Zip.WzipSpec

/-!
# `wunzip` after `wzip`

`wunzip` inverts the archive that `wzip` writes, so the round trip gives back the text that `wzip` has
seen. It is the whole input exactly when no line is cut: no NUL byte, unless the first non-empty file
is a single NUL byte, and no line of 2^31 bytes or more.
-/

namespace Ostep

open Rle

/-! ### Lines -/

theorem flatten_getlines (f : Bytes) : (getlines f).flatten = f := by
  induction f with
  | nil => rfl
  | cons c cs ih =>
    unfold getlines
    split
    · simp [ih]
    · split
      · next h => rw [h] at ih; simp [← ih]
      · next h => rw [h] at ih; simp [← ih]

theorem nil_notMem_getlines (f : Bytes) : [] ∉ getlines f := by
  induction f with
  | nil => simp [getlines]
  | cons c cs ih =>
    unfold getlines
    split
    · simp [ih]
    · split
      · simp
      · next h => rw [h] at ih; simp at ih ⊢; exact ih.2

theorem flatten_flatMap_getlines (files : List Bytes) : (files.flatMap getlines).flatten = files.flatten := by
  induction files with
  | nil => rfl
  | cons f files ih => simp [ih, flatten_getlines]

theorem getlines_eq_singleton {f l : Bytes} {ls : List Bytes} (h : getlines f = l :: ls) (hl : 10 ∉ l) :
    ls = [] ∧ f = l := by
  induction f generalizing l ls with
  | nil => simp [getlines] at h
  | cons c cs ih =>
    unfold getlines at h
    split at h
    · next hc => simp only [List.cons.injEq] at h; obtain ⟨rfl, -⟩ := h; simp [hc] at hl
    · split at h
      · next hcs =>
        simp only [List.cons.injEq] at h
        obtain ⟨rfl, rfl⟩ := h
        have := flatten_getlines cs
        rw [hcs] at this
        simp [← this]
      · next l' ls' hcs =>
        simp only [List.cons.injEq] at h
        obtain ⟨rfl, rfl⟩ := h
        obtain ⟨rfl, rfl⟩ := ih hcs (fun hm => hl (List.mem_cons_of_mem _ hm))
        exact ⟨rfl, rfl⟩

/-! ### What a line loses -/

theorem strlen_le (l : Bytes) : strlen l ≤ l.length :=
  (List.takeWhile_sublist _).length_le

theorem strlen_eq_length_iff (l : Bytes) : strlen l = l.length ↔ 0 ∉ l := by
  unfold strlen
  constructor
  · intro h h0
    have hp := (List.takeWhile_prefix (fun x : UInt8 => decide (x ≠ 0)) (l := l)).eq_of_length h
    rw [← hp] at h0
    simpa using List.mem_takeWhile_imp h0
  · intro h
    rw [List.takeWhile_eq_self_iff.2]
    intro x hx
    simp only [decide_eq_true_eq]
    rintro rfl
    exact h hx

theorem seenLine_eq_take (first : Bool) {l : Bytes} (hl : l ≠ []) :
    seenLine first l = l.take (max (if first then 1 else 0) (toInt32 (strlen l)).toNat) := by
  cases first with
  | false => simp [seenLine]
  | true =>
    obtain ⟨c, cs, rfl⟩ := List.exists_cons_of_ne_nil hl
    simp only [seenLine, if_true, List.headD_cons]
    rcases (toInt32 (strlen (c :: cs))).toNat with _ | n
    · simp
    · rw [show max 1 (n + 1) = n + 1 by omega]
      simp

theorem seenLine_prefix_self (first : Bool) {l : Bytes} (hl : l ≠ []) : seenLine first l <+: l := by
  rw [seenLine_eq_take first hl]; exact List.take_prefix _ _

theorem seenLine_eq_self_iff (first : Bool) {l : Bytes} (hl : l ≠ []) :
    seenLine first l = l ↔ (0 ∉ l ∧ l.length < 2 ^ 31) ∨ (first = true ∧ l.length = 1) := by
  have hpos : 0 < l.length := List.length_pos_of_ne_nil hl
  have hle := strlen_le l
  have hto := toNat_toInt32_le (strlen l)
  rw [seenLine_eq_take first hl, List.take_eq_self_iff]
  have key : l.length ≤ (toInt32 (strlen l)).toNat ↔ 0 ∉ l ∧ l.length < 2 ^ 31 := by
    rw [← strlen_eq_length_iff]
    constructor
    · intro h
      have hs : strlen l = l.length := by omega
      exact ⟨hs, by rw [← hs]; exact (toNat_toInt32_eq_iff _).1 (by omega)⟩
    · rintro ⟨hs, h⟩
      rw [hs, (toNat_toInt32_eq_iff _).2 h]
  cases first with
  | false => simp [key]
  | true =>
    have hmax : l.length ≤ max 1 (toInt32 (strlen l)).toNat ↔ l.length = 1 ∨
        l.length ≤ (toInt32 (strlen l)).toNat := by omega
    simp only [if_true, hmax, key, true_and]
    exact or_comm

theorem append_eq_append_iff_prefix_le {p l q r : Bytes} (hp : p <+: l) (hq : q.length ≤ r.length) :
    p ++ q = l ++ r ↔ p = l ∧ q = r := by
  constructor
  · intro h
    have hlen := congrArg List.length h
    simp only [List.length_append] at hlen
    have hpl : p = l := hp.eq_of_length (by have := hp.length_le; omega)
    rw [hpl] at h
    exact ⟨hpl, List.append_cancel_left h⟩
  · rintro ⟨rfl, rfl⟩
    rfl

section
variable {g : Bytes → Bytes} {L : List Bytes}

theorem length_flatMap_le_flatten (hg : ∀ l ∈ L, g l <+: l) : (L.flatMap g).length ≤ L.flatten.length := by
  induction L with
  | nil => simp
  | cons l L ih =>
    have hl := (hg l (by simp)).length_le
    have hL := ih fun l hl => hg l (by simp [hl])
    simp only [List.flatMap_cons, List.flatten_cons, List.length_append]
    omega

/-- Cutting pieces short loses something unless every piece stays whole. -/
theorem flatMap_eq_flatten_iff (hg : ∀ l ∈ L, g l <+: l) : L.flatMap g = L.flatten ↔ ∀ l ∈ L, g l = l := by
  induction L with
  | nil => simp
  | cons l L ih =>
    have hL : ∀ l ∈ L, g l <+: l := fun l hl => hg l (by simp [hl])
    rw [List.flatMap_cons, List.flatten_cons, List.forall_mem_cons,
      append_eq_append_iff_prefix_le (hg l (by simp)) (length_flatMap_le_flatten hL), ih hL]

end

theorem seen_eq_flatten_iff {line : Bytes} {lines : List Bytes} (h : [] ∉ line :: lines) :
    seen (line :: lines) = (line :: lines).flatten ↔
      seenLine true line = line ∧ ∀ l ∈ lines, seenLine false l = l := by
  have hne : ∀ l ∈ line :: lines, l ≠ [] := fun l hl hn => h (hn ▸ hl)
  have hps : ∀ l ∈ lines, seenLine false l <+: l := fun l hl => seenLine_prefix_self false (hne l (by simp [hl]))
  rw [seen, List.flatten_cons, append_eq_append_iff_prefix_le (seenLine_prefix_self true (hne line (by simp)))
    (length_flatMap_le_flatten hps), flatMap_eq_flatten_iff hps]

/-! ### The round trip -/

/-- No NUL byte anywhere, unless the first non-empty file is just one NUL byte. -/
def NulFree (files : List Bytes) : Prop :=
  0 ∉ files.flatten ∨ ∃ rest, files.dropWhile (· = []) = [0] :: rest ∧ 0 ∉ rest.flatten

def ShortLines (files : List Bytes) : Prop := ∀ f ∈ files, ∀ l ∈ getlines f, l.length < 2 ^ 31

/-- `wunzip` of what `wzip` writes for these files is their contents. -/
def RoundTrips (curr₀ : UInt8) (files : List Bytes) : Prop :=
  ∃ z, wzip curr₀ (files.map some) = .ok z ∧ wunzip [some z] = .ok files.flatten

theorem flatMap_getlines_eq_nil {files : List Bytes} (h : files.flatMap getlines = []) :
    files.flatten = [] := by
  rw [← flatten_flatMap_getlines, h]; rfl

theorem roundTrips_iff_seen (curr₀ : UInt8) {files : List Bytes} (hne : files ≠ [])
    (hrun : Fits (runs files.flatten)) :
    RoundTrips curr₀ files ↔ seen (files.flatMap getlines) = files.flatten := by
  by_cases hl : files.flatMap getlines = []
  · rw [hl, flatMap_getlines_eq_nil hl]
    refine iff_of_true ⟨fwriteRun 0 curr₀, wzip_empty curr₀ hne hl, ?_⟩ rfl
    rw [wunzip_single, flatMap_getlines_eq_nil hl]
    have := wunzipLoop_fwriteRun (n := 0) (by omega) curr₀ []
    simpa [wunzipLoop] using this
  · rcases wzip_takes curr₀ hne hl with ⟨hz, hf⟩ | ⟨hz, hf⟩
    · rw [RoundTrips, hz]
      simp only [Except.ok.injEq, exists_eq_left', wunzip_single, wunzipLoop_archive hf, expand_runs]
    · refine iff_of_false ?_ fun h => hf (h ▸ hrun)
      rintro ⟨z, hz', -⟩
      rw [hz] at hz'; cases hz'

theorem flatMap_getlines_dropWhile (files : List Bytes) :
    (files.dropWhile (· = [])).flatMap getlines = files.flatMap getlines := by
  induction files with
  | nil => rfl
  | cons f files ih =>
    by_cases hf : f = []
    · subst hf; simpa [getlines] using ih
    · simp [hf]

theorem dropWhile_eq_cons {files : List Bytes} {line : Bytes} {lines : List Bytes}
    (h : files.flatMap getlines = line :: lines) :
    ∃ f fs ls, files.dropWhile (· = []) = f :: fs ∧ getlines f = line :: ls ∧
      lines = ls ++ fs.flatMap getlines := by
  rw [← flatMap_getlines_dropWhile] at h
  rcases hd : files.dropWhile (· = []) with _ | ⟨f, fs⟩
  · rw [hd] at h; simp at h
  · have hf : f ≠ [] := by
      have := List.head_dropWhile_not (fun f : Bytes => decide (f = [])) (l := files) (by simp [hd])
      simpa [hd] using this
    rcases hg : getlines f with _ | ⟨l, ls⟩
    · have := flatten_getlines f
      rw [hg] at this
      exact absurd this.symm hf
    · rw [hd, List.flatMap_cons, hg, List.cons_append, List.cons.injEq] at h
      obtain ⟨rfl, rfl⟩ := h
      exact ⟨f, fs, ls, rfl, hg, rfl⟩

theorem seen_flatMap_getlines_iff (files : List Bytes) :
    seen (files.flatMap getlines) = files.flatten ↔ NulFree files ∧ ShortLines files := by
  have hmem : ∀ l, l ∈ files.flatMap getlines ↔ ∃ f ∈ files, l ∈ getlines f := fun l => List.mem_flatMap
  have hnil : [] ∉ files.flatMap getlines := fun h => by
    obtain ⟨f, -, hf⟩ := (hmem []).1 h
    exact nil_notMem_getlines f hf
  rcases hls : files.flatMap getlines with _ | ⟨line, lines⟩
  · have hfl := flatMap_getlines_eq_nil hls
    refine iff_of_true (by rw [hfl]; rfl) ⟨.inl (by simp [hfl]), fun f hf l hl => ?_⟩
    have := (hmem l).2 ⟨f, hf, hl⟩
    rw [hls] at this; simp at this
  have hflat : (line :: lines).flatten = files.flatten := by rw [← hls, flatten_flatMap_getlines]
  have hne : ∀ l ∈ line :: lines, l ≠ [] := fun l hl hn => hnil (by rw [hls]; exact hn ▸ hl)
  have hshort : ShortLines files ↔ ∀ l ∈ line :: lines, l.length < 2 ^ 31 := by
    rw [← hls]
    exact ⟨fun h l hl => by obtain ⟨f, hf, hlf⟩ := (hmem l).1 hl; exact h f hf l hlf,
      fun h f hf l hl => h l ((hmem l).2 ⟨f, hf, hl⟩)⟩
  have hrest : (∀ l ∈ lines, seenLine false l = l) ↔ ∀ l ∈ lines, 0 ∉ l ∧ l.length < 2 ^ 31 := by
    refine forall₂_congr fun l hl => ?_
    rw [seenLine_eq_self_iff false (hne l (by simp [hl]))]; simp
  rw [hshort, ← hflat, seen_eq_flatten_iff (hls ▸ hnil), seenLine_eq_self_iff true (hne line (by simp)), hrest,
    List.forall_mem_cons]
  constructor
  · rintro ⟨hline, hlines⟩
    refine ⟨?_, ?_, fun l hl => (hlines l hl).2⟩
    · by_cases h0 : 0 ∈ line
      · -- a NUL that survives is the whole first line, so the whole first non-empty file
        have hl1 : line.length = 1 := by
          rcases hline with hline | hline
          · exact absurd h0 hline.1
          · exact hline.2
        obtain ⟨c, rfl⟩ := List.length_eq_one_iff.1 hl1
        obtain rfl : 0 = c := by simpa using h0
        obtain ⟨f, fs, ls, hd, hf, hlseq⟩ := dropWhile_eq_cons hls
        obtain ⟨rfl, rfl⟩ := getlines_eq_singleton hf (by simp)
        refine .inr ⟨fs, hd, fun hm => ?_⟩
        rw [← flatten_flatMap_getlines, List.mem_flatten] at hm
        obtain ⟨l, hl, h0l⟩ := hm
        exact (hlines l (by rw [hlseq]; simpa using hl)).1 h0l
      · refine .inl fun hm => ?_
        rw [← hflat, List.flatten_cons, List.mem_append, List.mem_flatten] at hm
        rcases hm with hm | ⟨l, hl, hm⟩
        · exact h0 hm
        · exact (hlines l hl).1 hm
    · rcases hline with hline | hline
      · exact hline.2
      · rw [hline.2]; omega
  · rintro ⟨hnul, hlen, hlens⟩
    rcases hnul with hnul | ⟨rest, hd, hnul⟩
    · rw [← hflat, List.flatten_cons, List.mem_append, List.mem_flatten, not_or, not_exists] at hnul
      exact ⟨.inl ⟨hnul.1, hlen⟩, fun l hl => ⟨fun h0 => hnul.2 l ⟨hl, h0⟩, hlens l hl⟩⟩
    · obtain ⟨f, fs, ls, hd', hf, hlseq⟩ := dropWhile_eq_cons hls
      rw [hd, List.cons.injEq] at hd'
      obtain ⟨rfl, rfl⟩ := hd'
      have hg : getlines [0] = [[0]] := rfl
      rw [hg, List.cons.injEq] at hf
      obtain ⟨rfl, rfl⟩ := hf
      refine ⟨.inr ⟨rfl, rfl⟩, fun l hl => ⟨fun h0 => hnul ?_, hlens l hl⟩⟩
      rw [← flatten_flatMap_getlines, List.mem_flatten]
      exact ⟨l, by simpa [hlseq] using hl, h0⟩

/-- On NUL-free files without long lines the output is the archive of the runs. -/
theorem wzip_of_shortLines (curr₀ : UInt8) {files : List Bytes} (hne : files ≠ []) (hfiles : ∀ f ∈ files, f ≠ [] ∧ 0 ∉ f)
    (hrun : Fits (runs files.flatten)) (hshort : ShortLines files) :
    wzip curr₀ (files.map some) = .ok (archive (runs files.flatten)) := by
  have hnul : 0 ∉ files.flatten := fun h0 => by
    obtain ⟨f, hf, h0⟩ := List.mem_flatten.1 h0
    exact (hfiles f hf).2 h0
  have hl : files.flatMap getlines ≠ [] := fun h => by
    obtain ⟨f, fs, rfl⟩ := List.exists_cons_of_ne_nil hne
    have hnil := flatMap_getlines_eq_nil h
    rw [List.flatten_cons, List.append_eq_nil_iff] at hnil
    exact (hfiles f List.mem_cons_self).1 hnil.1
  have hseen := (seen_flatMap_getlines_iff files).2 ⟨.inl hnul, hshort⟩
  obtain ⟨hz, -⟩ | ⟨-, hf⟩ := wzip_takes curr₀ hne hl
  · rw [hz, hseen]
  · rw [hseen] at hf
    exact absurd hrun hf

theorem wunzip_wzip_iff (curr₀ : UInt8) (files : List Bytes) (hne : files ≠ [])
    (hrun : ∀ r ∈ runs files.flatten, r.2 < 2 ^ 31) :
    RoundTrips curr₀ files ↔ NulFree files ∧ ShortLines files := by
  rw [roundTrips_iff_seen curr₀ hne hrun, seen_flatMap_getlines_iff]

theorem wunzip_wzip_two_files : [[97, 97, 10], [10, 98]] ≠ ([] : List Bytes) ∧
    (∀ r ∈ runs (List.flatten [[97, 97, 10], [10, (98 : UInt8)]]), r.2 < 2 ^ 31) ∧
    RoundTrips 0 [[97, 97, 10], [10, 98]] := by
  have hrun : ∀ r ∈ runs (List.flatten [[97, 97, 10], [10, (98 : UInt8)]]), r.2 < 2 ^ 31 := by decide
  refine ⟨by decide, hrun, (wunzip_wzip_iff 0 _ (by decide) hrun).2 ⟨.inl (by decide), ?_⟩⟩
  show ∀ f ∈ [[97, 97, 10], [10, 98]], ∀ l ∈ getlines f, l.length < 2 ^ 31
  decide

/-- The bytes after the NUL of `a\0b` are lost. -/
theorem not_roundTrips_nul : [[97, 0, 98]] ≠ ([] : List Bytes) ∧
    (∀ r ∈ runs (List.flatten [[97, 0, (98 : UInt8)]]), r.2 < 2 ^ 31) ∧ ¬ RoundTrips 0 [[97, 0, 98]] := by
  refine ⟨by decide, by decide, ?_⟩
  rintro ⟨z, hz, hu⟩
  have hw : wzip 0 ([[97, 0, 98]].map some) = .ok [1, 0, 0, 0, 97] := by decide
  rw [hw, Except.ok.injEq] at hz
  subst hz
  rw [wunzip_single] at hu
  revert hu
  decide

end Ostep
