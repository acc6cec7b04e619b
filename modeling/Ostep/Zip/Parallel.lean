import Ostep.Zip.PzipSpec

/-!
# `pzip` against `wzip`

Both programs write the archive of the runs of the text they have read. `wzip` reads NUL-free files
whole, and so does `pzip` when each file has at least one byte for every worker. With fewer bytes than
workers every slice but the last is empty, each of these workers still counts the first byte of the
file, and the two archives differ. A file of 2^31 bytes or more is out of reach of the workers' `int`
index.
-/

namespace Ostep

open Rle

def pzipText (N : Nat) (files : List Bytes) : Bytes := files.flatMap fun f => (workerTexts N f).flatten

theorem expand_flatMap_runs (ws : List Bytes) : expand (ws.flatMap runs) = ws.flatten := by
  induction ws with
  | nil => rfl
  | cons w ws ih => rw [List.flatMap_cons, expand_append, ih, expand_runs, List.flatten_cons]

/-- The end of `main`, after a loop over inputs each of which is read as some texts: the output is the archive of the runs of all of
them. -/
theorem merge_takes {τ : Type} (step : PzipSt → τ → Except Stop PzipSt) (texts : τ → List Bytes) {l : List τ}
    (hstep : ∀ s e, ∀ t ∈ l, PzipRep s e →
      (∃ s', step s t = .ok s' ∧ PzipRep s' (e.pushAll ((texts t).flatMap runs))) ∨
        (step s t = .error .undefined ∧ ¬ Fits (e.pushAll ((texts t).flatMap runs)).all)) :
    let out := (do
      let s ← l.foldlM step ⟨-17, 0, []⟩
      return if s.old_count > 0 then s.out ++ fwriteRun s.old_count (lowByte s.old_char) else s.out : Except Stop Bytes)
    let text := l.flatMap fun t => (texts t).flatten
    (out = .ok (archive (runs text)) ∧ Fits (runs text)) ∨ (out = .error .undefined ∧ ¬ Fits (runs text)) := by
  have hexp : expand (l.flatMap fun t => (texts t).flatMap runs) = l.flatMap fun t => (texts t).flatten := by
    clear hstep
    induction l with
    | nil => rfl
    | cons t l ih => rw [List.flatMap_cons, expand_append, ih, expand_flatMap_runs, List.flatMap_cons]
  have hall : (l.foldl (fun e t => Enc.pushAll e ((texts t).flatMap runs)) {}).all = runs (l.flatMap fun t => (texts t).flatten) := by
    rw [← hexp, ← all_pushAll_eq_runs, Enc.pushAll, List.foldl_flatMap]
    · rfl
    · intro r hr
      obtain ⟨t, -, hr⟩ := List.mem_flatMap.1 hr
      obtain ⟨w, -, hr⟩ := List.mem_flatMap.1 hr
      exact (canonical_runs w).pos r hr
  have h₀ : PzipRep ⟨-17, 0, []⟩ {} := ⟨rfl, fun _ => ⟨rfl, rfl⟩, by simp, by simp [Fits]⟩
  dsimp only
  rw [← hall]
  rcases foldlM_sim (R := PzipRep) (B := fun e => ¬ Fits e.all) (fun e t he => not_fits_pushAll he _) l hstep h₀ with
    ⟨s, hs, h⟩ | ⟨hs, hbad⟩
  · refine .inl ⟨?_, h.fits⟩
    rw [hs, ok_bind]
    rcases hcur : (l.foldl (fun e t => Enc.pushAll e ((texts t).flatMap runs)) {}).cur with _ | ⟨c, n⟩
    · simp [Enc.all, hcur, (h.idle hcur).2, h.out, pure, Except.pure]
    · obtain ⟨hchar, hcount, hn⟩ := h.cur c n hcur
      simp [Enc.all, hcur, hchar, hcount, hn, h.out, pure, Except.pure]
  · exact .inr ⟨by rw [hs, error_bind], hbad⟩

theorem pzip_takes {N : Nat} {files : List Bytes} (hne : files ≠ [])
    (hfiles : ∀ f ∈ files, f ≠ [] ∧ f.length < 2 ^ 31 ∧ SmallResults N f) :
    (pzip N (files.map some) = .ok (archive (runs (pzipText N files))) ∧ Fits (runs (pzipText N files))) ∨
      (pzip N (files.map some) = .error .undefined ∧ ¬ Fits (runs (pzipText N files))) := by
  rw [pzip, if_neg (by simpa using hne), List.foldlM_map]
  exact merge_takes (fun s f => pzipFile N s (some f)) (workerTexts N) fun s e f hf he =>
    pzipFile_takes he (hfiles f hf).1 (hfiles f hf).2.1 (hfiles f hf).2.2

theorem flatten_workerTexts {N : Nat} {txt : Bytes} (hN : 0 < N) (h : N ≤ txt.length) :
    (workerTexts N txt).flatten = txt := by
  obtain ⟨n, rfl⟩ : ∃ n, N = n + 1 := ⟨N - 1, by omega⟩
  set part := txt.length / (n + 1) with hpart
  have hp : 0 < part := Nat.div_pos h hN
  have hle : part * (n + 1) ≤ txt.length := Nat.div_mul_le_self _ _
  -- the first `k` workers read the first `part * k` bytes
  have hpre : ∀ k ≤ n, ((List.range k).map fun j => zipText txt (sliceStart (n + 1) txt.length j)
      (sliceEnd (n + 1) txt.length j)).flatten = txt.take (part * k) := by
    intro k hk
    induction k with
    | zero => simp
    | succ k ih =>
      rw [List.range_succ, List.map_append, List.flatten_append, ih (by omega)]
      have hz : zipText txt (sliceStart (n + 1) txt.length k) (sliceEnd (n + 1) txt.length k) =
          (txt.drop (part * k)).take part := by
        unfold zipText sliceStart sliceEnd
        rw [← hpart, if_neg (by omega)]
        congr 1
        omega
      rw [List.map_singleton, List.flatten_singleton, hz, Nat.mul_succ, List.take_add]
  have hlast : zipText txt (sliceStart (n + 1) txt.length n) (sliceEnd (n + 1) txt.length n) =
      txt.drop (part * n) := by
    have : part * n + part ≤ txt.length := by rw [← Nat.mul_succ]; exact hle
    unfold zipText sliceStart sliceEnd
    rw [← hpart, if_pos (by omega), List.take_of_length_le]
    rw [List.length_drop]
    omega
  rw [workerTexts, List.range_succ, List.map_append, List.flatten_append, hpre n (Nat.le_refl _),
    List.map_singleton, List.flatten_singleton, hlast, List.take_append_drop]

theorem length_flatten_workerTexts_lt {N : Nat} {txt : Bytes} (hne : txt ≠ []) (h : txt.length < N) :
    txt.length < (workerTexts N txt).flatten.length := by
  obtain ⟨n, rfl⟩ : ∃ n, N = n + 1 := ⟨N - 1, by omega⟩
  have hpos : 0 < txt.length := List.length_pos_of_ne_nil hne
  have hpart : txt.length / (n + 1) = 0 := Nat.div_eq_of_lt h
  have hlast : zipText txt (sliceStart (n + 1) txt.length n) (sliceEnd (n + 1) txt.length n) = txt := by
    unfold zipText sliceStart sliceEnd
    rw [hpart, if_pos (by omega), Nat.zero_mul, List.drop_zero, List.take_of_length_le (by omega)]
  have hfirst : zipText txt (sliceStart (n + 1) txt.length 0) (sliceEnd (n + 1) txt.length 0) ≠ [] := by
    rw [zipText_eq_cons (by rw [sliceStart, hpart]; simpa using hpos)]
    simp
  obtain ⟨m, rfl⟩ : ∃ m, n = m + 1 := ⟨n - 1, by omega⟩
  rw [workerTexts, List.range_succ, List.range_succ_eq_map, List.map_append, List.flatten_append,
    List.map_singleton, List.flatten_singleton, hlast, List.map_cons, List.flatten_cons]
  have := List.length_pos_of_ne_nil hfirst
  simp only [List.length_append]
  omega

theorem pzipText_eq_flatten {N : Nat} {files : List Bytes} (hN : 0 < N) (h : ∀ f ∈ files, N ≤ f.length) :
    pzipText N files = files.flatten := by
  have hmap : files.map (fun f => (workerTexts N f).flatten) = files.map id :=
    List.map_congr_left fun f hf => flatten_workerTexts hN (h f hf)
  rw [pzipText, List.flatMap, hmap, List.map_id]

theorem length_pzipText_le {N : Nat} {files : List Bytes} (hN : 0 < N) (hne : ∀ f ∈ files, f ≠ []) :
    files.flatten.length ≤ (pzipText N files).length ∧
      ((∃ f ∈ files, f.length < N) → files.flatten.length < (pzipText N files).length) := by
  induction files with
  | nil => simp
  | cons f files ih =>
    obtain ⟨ih₁, ih₂⟩ := ih fun g hg => hne g (by simp [hg])
    have hf : f.length ≤ (workerTexts N f).flatten.length ∧
        (f.length < N → f.length < (workerTexts N f).flatten.length) := by
      rcases Nat.lt_or_ge f.length N with h | h
      · have := length_flatten_workerTexts_lt (hne f (by simp)) h
        exact ⟨Nat.le_of_lt this, fun _ => this⟩
      · rw [flatten_workerTexts hN h]
        exact ⟨Nat.le_refl _, fun h' => absurd h' (Nat.not_lt.2 h)⟩
    rw [pzipText, List.flatMap_cons, List.flatten_cons, List.length_append, List.length_append]
    refine ⟨Nat.add_le_add hf.1 ih₁, ?_⟩
    rintro ⟨g, hg, hlt⟩
    rcases List.mem_cons.1 hg with rfl | hg
    · exact Nat.add_lt_add_of_lt_of_le (hf.2 hlt) ih₁
    · exact Nat.add_lt_add_of_le_of_lt hf.1 (ih₂ ⟨g, hg, hlt⟩)

/-! ### Files too long for the workers -/

theorem mem_of_mapM_ok {α β : Type} {f : α → Except Stop β} {l : List α} {L : List β}
    (h : l.mapM f = .ok L) : ∀ a ∈ l, ∃ b, f a = .ok b := by
  induction l generalizing L with
  | nil => simp
  | cons a l ih =>
    rw [List.mapM_cons] at h
    obtain ⟨b, hb, h⟩ := bind_ok h
    obtain ⟨L', hL', -⟩ := bind_ok h
    intro a' ha'
    rcases List.mem_cons.1 ha' with rfl | ha'
    · exact ⟨b, hb⟩
    · exact ih hL' a' ha'

theorem mem_of_foldlM_ok {σ τ : Type} {f : σ → τ → Except Stop σ} {l : List τ} {s s' : σ}
    (h : l.foldlM f s = .ok s') : ∀ t ∈ l, ∃ s₁ s₂, f s₁ t = .ok s₂ := by
  induction l generalizing s with
  | nil => simp
  | cons t l ih =>
    rw [List.foldlM_cons] at h
    obtain ⟨s₁, hs₁, h⟩ := bind_ok h
    intro t' ht'
    rcases List.mem_cons.1 ht' with rfl | ht'
    · exact ⟨s, s₁, hs₁⟩
    · exact ih h t' ht'

theorem zip_not_ok {txt : Bytes} {start stop : Nat} (h : 2 ^ 31 ≤ stop) (res : List (UInt8 × Int)) :
    zip txt start stop ≠ .ok res := by
  intro hz
  unfold zip at hz
  obtain ⟨c, hc, hz⟩ := bind_ok hz
  obtain ⟨i, hi, hz⟩ := bind_ok hz
  obtain ⟨s, hs, -⟩ := bind_ok hz
  have h0 : 0 ≤ toInt32 start := by
    unfold txtAt at hc
    split at hc
    · cases hc
    · omega
  unfold incInt at hi
  split at hi
  · simp only [Except.ok.injEq] at hi
    subst hi
    refine zipLoop_not_ok txt _ _ _ s (by omega) ?_ hs
    rw [INT_MAX]
    omega
  · cases hi

theorem length_lt_of_pzip_ok {N : Nat} {files : List Bytes} (hN : 0 < N) {out : Bytes}
    (h : pzip N (files.map some) = .ok out) : ∀ f ∈ files, f.length < 2 ^ 31 := by
  intro f hf
  unfold pzip at h
  split at h
  · cases h
  obtain ⟨s, hs, -⟩ := bind_ok h
  obtain ⟨s₁, s₂, hfile⟩ := mem_of_foldlM_ok hs (some f) (List.mem_map_of_mem hf)
  obtain ⟨L, hL, -⟩ := bind_ok hfile
  obtain ⟨res, hres⟩ := mem_of_mapM_ok hL (N - 1) (List.mem_range.2 (by omega))
  rw [sliceEnd, if_pos rfl] at hres
  by_contra hlen
  exact zip_not_ok (Nat.not_lt.1 hlen) res hres

/-! ### The comparison -/

/-- The two programs end and write the same bytes. -/
def SameOutput (N : Nat) (curr₀ : UInt8) (files : List Bytes) : Prop :=
  ∃ out, pzip N (files.map some) = .ok out ∧ wzip curr₀ (files.map some) = .ok out

def slice (N : Nat) (txt : Bytes) (j : Nat) : Bytes :=
  (txt.take (sliceEnd N txt.length j)).drop (sliceStart N txt.length j)

theorem smallResults_of_slice {N : Nat} {txt : Bytes} (hne : txt ≠ [])
    (h : ∀ j < N, (runs (slice N txt j)).length < 999999) : SmallResults N txt := by
  intro w hw
  obtain ⟨j, hj, rfl⟩ := List.mem_map.1 hw
  have hj' := List.mem_range.1 hj
  have hlt := sliceStart_lt hj' (List.length_pos_of_ne_nil hne)
  rcases Nat.lt_or_ge (sliceStart N txt.length j) (sliceEnd N txt.length j) with hs | hs
  · have := h j hj'
    rwa [slice, List.drop_take, show sliceEnd N txt.length j - sliceStart N txt.length j =
      max 1 (sliceEnd N txt.length j - sliceStart N txt.length j) by omega] at this
  · rw [zipText_eq_cons hlt, show sliceEnd N txt.length j - (sliceStart N txt.length j + 1) = 0 by omega]
    simp [runs, ones, Enc.push, Enc.all]

theorem wzip_of_nulFree (curr₀ : UInt8) {files : List Bytes} (hne : files ≠ [])
    (hfiles : ∀ f ∈ files, f ≠ [] ∧ 0 ∉ f) (hrun : Fits (runs files.flatten))
    (hlen : ∀ f ∈ files, f.length < 2 ^ 31) :
    wzip curr₀ (files.map some) = .ok (archive (runs files.flatten)) := by
  refine wzip_of_shortLines curr₀ hne hfiles hrun fun f hf l hl => ?_
  have hsub := (List.sublist_flatten_of_mem hl).length_le
  rw [flatten_getlines] at hsub
  exact Nat.lt_of_le_of_lt hsub (hlen f hf)

theorem pzip_eq_wzip_iff (N : Nat) (curr₀ : UInt8) (files : List Bytes) (hN : 1 ≤ N) (hne : files ≠ [])
    (hfiles : ∀ f ∈ files, f ≠ [] ∧ 0 ∉ f) (hrun : ∀ r ∈ runs files.flatten, r.2 < 2 ^ 31)
    (hslice : ∀ f ∈ files, ∀ j < N, (runs (slice N f j)).length < 999999) :
    SameOutput N curr₀ files ↔ ∀ f ∈ files, N ≤ f.length ∧ f.length < 2 ^ 31 := by
  have hsmall : ∀ f ∈ files, SmallResults N f := fun f hf => smallResults_of_slice (hfiles f hf).1 (hslice f hf)
  constructor
  · rintro ⟨out, hp, hw⟩ f hf
    have hlen := length_lt_of_pzip_ok hN hp
    refine ⟨?_, hlen f hf⟩
    by_contra hshort
    rw [wzip_of_nulFree curr₀ hne hfiles hrun hlen, Except.ok.injEq] at hw
    rcases pzip_takes hne (fun f hf => ⟨(hfiles f hf).1, hlen f hf, hsmall f hf⟩) with ⟨hz, hfit⟩ | ⟨hz, -⟩
    · -- equal archives stand for equal texts, but `pzip` has read more bytes
      rw [hz, Except.ok.injEq, ← hw] at hp
      have htext := congrArg wunzipLoop hp
      rw [wunzipLoop_archive hfit, wunzipLoop_archive hrun, expand_runs, expand_runs] at htext
      have := (length_pzipText_le hN fun f hf => (hfiles f hf).1).2 ⟨f, hf, Nat.not_le.1 hshort⟩
      rw [htext] at this
      exact Nat.lt_irrefl _ this
    · rw [hz] at hp; cases hp
  · intro h
    have htext : pzipText N files = files.flatten := pzipText_eq_flatten hN fun f hf => (h f hf).1
    refine ⟨archive (runs files.flatten), ?_,
      wzip_of_nulFree curr₀ hne hfiles hrun fun f hf => (h f hf).2⟩
    rcases pzip_takes hne (fun f hf => ⟨(hfiles f hf).1, (h f hf).2, hsmall f hf⟩) with ⟨hz, -⟩ | ⟨-, hfit⟩
    · rw [hz, htext]
    · rw [htext] at hfit; exact absurd hrun hfit

theorem pzip_eq_wzip_two_files : SameOutput 2 0 [[97, 97, 10], [10, 98]] := by
  refine (pzip_eq_wzip_iff 2 0 [[97, 97, 10], [10, 98]] (by decide) (by decide) (by decide) (by decide)
    (by decide)).2 ?_
  show ∀ f ∈ [[97, 97, 10], [10, 98]], 2 ≤ f.length ∧ f.length < 2 ^ 31
  decide

/-- Two workers count the single byte of the file `a` twice. -/
theorem not_sameOutput_one_byte : ([[97]] ≠ ([] : List Bytes)) ∧
    (∀ f ∈ ([[97]] : List Bytes), f ≠ [] ∧ 0 ∉ f) ∧
    (∀ r ∈ runs (List.flatten [[(97 : UInt8)]]), r.2 < 2 ^ 31) ∧
    (∀ f ∈ ([[97]] : List Bytes), ∀ j < 2, (runs (slice 2 f j)).length < 999999) ∧
    ¬ SameOutput 2 0 [[97]] := by
  refine ⟨by decide, by decide, by decide, by decide, ?_⟩
  rintro ⟨out, hp, hw⟩
  have hp' : pzip 2 ([[97]].map some) = .ok [2, 0, 0, 0, 97] := by decide
  have hw' : wzip 0 ([[97]].map some) = .ok [1, 0, 0, 0, 97] := by decide
  rw [hp', Except.ok.injEq] at hp
  rw [hw', ← hp, Except.ok.injEq] at hw
  exact absurd hw (by decide)

end Ostep
