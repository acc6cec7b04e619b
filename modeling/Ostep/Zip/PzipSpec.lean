import Ostep.Zip.Pzip
import Ostep.Zip.RoundTrip

/-!
# What `pzip` writes

A worker counts the runs of the text it reads (`zipText`: its slice, but never less than one byte) and
the merge loop pushes the records of all workers into one encoder, so `pzip` writes the archive of the
runs of the texts its workers have read, one after the other. These are the files when no slice is
empty; a file shorter than `NO_OF_PROC` is read with its first byte repeated.
-/

namespace Ostep

open Rle

/-! ### The worker -/

structure ZipRep (s : ZipSt) (e : Enc UInt8) : Prop where
  res : s.res = e.done.map fun r => (r.1, (r.2 : Int))
  cur : e.cur = some (s.curr, s.count.toNat)
  pos : 0 < s.count
  fits : Fits e.all

/-- The worker's encoder is past what its variables can hold. -/
def TooBig (rs : List (UInt8 × Nat)) : Prop := ¬ Fits rs ∨ 999999 ≤ rs.length

theorem TooBig.push {e : Enc UInt8} (h : TooBig e.all) (r : UInt8 × Nat) : TooBig (e.push r).all := by
  rcases h with h | h
  · exact .inl (not_fits_pushAll h [r])
  · exact .inr (Nat.le_trans h (Enc.length_all_le_push e r))

theorem zipByte_takes {s : ZipSt} {e : Enc UInt8} (h : ZipRep s e) (d : UInt8) :
    (∃ s', zipByte s d = .ok s' ∧ ZipRep s' (e.push (d, 1))) ∨
      (zipByte s d = .error .undefined ∧ TooBig (e.push (d, 1)).all) := by
  have hall : Fits (e.done ++ [(s.curr, s.count.toNat)]) := by simpa [Enc.all, h.cur] using h.fits
  have hpos := h.pos
  have hlt : s.count.toNat < 2 ^ 31 := hall (s.curr, s.count.toNat) (by simp)
  by_cases hd : s.curr = d
  · subst hd
    rw [Enc.push_of_eq h.cur]
    rcases Nat.lt_or_ge (s.count.toNat + 1) (2 ^ 31) with hs | hs
    · refine .inl ⟨{ s with count := s.count + 1 }, ?_, h.res, ?_, by show 0 < s.count + 1; omega,
        Fits.all_cur (fun r hr => hall r (by simp [hr])) hs⟩
      · have hmax : s.count < INT_MAX := by rw [INT_MAX]; omega
        simp [zipByte, incInt, hmax, pure, Except.pure]
      · have : (s.count + 1).toNat = s.count.toNat + 1 := by omega
        rw [this]
    · refine .inr ⟨?_, .inl fun hf => ?_⟩
      · have hmax : ¬ s.count < INT_MAX := by rw [INT_MAX]; omega
        simp [zipByte, incInt, hmax]
      · exact absurd (hf (s.curr, s.count.toNat + 1) (by simp [Enc.all])) (Nat.not_lt.2 hs)
  · rw [Enc.push_of_ne h.cur hd]
    by_cases hr : s.res.length < RES_SIZE
    · refine .inl ⟨⟨d, 1, s.res ++ [(s.curr, s.count)]⟩, ?_, ?_, rfl, Int.one_pos, hall.all_cur (by omega)⟩
      · simp [zipByte, hd, storeRes, hr, pure, Except.pure]
      · have : ((s.count.toNat : Nat) : Int) = s.count := by omega
        simp [h.res, this]
    · refine .inr ⟨by simp [zipByte, hd, storeRes, hr], .inr ?_⟩
      rw [h.res, List.length_map, RES_SIZE] at hr
      simp only [Enc.all, List.length_append]
      omega

theorem zipLoop_eq_foldlM (txt : Bytes) (k i : Nat) (s : ZipSt) (hk : i + k ≤ txt.length)
    (hlen : txt.length < 2 ^ 31) :
    zipLoop txt k i s = ((txt.drop i).take k).foldlM zipByte s := by
  induction k generalizing i s with
  | zero => simp [zipLoop, pure, Except.pure]
  | succ k ih =>
    have hi : i < txt.length := by omega
    have hmax : (i : Int) < INT_MAX := by rw [INT_MAX]; omega
    have hat : txtAt txt i = .ok txt[i] := by
      simp [txtAt, hi, show ¬ (i : Int) < 0 by omega]
    rw [List.drop_eq_getElem_cons hi, List.take_succ_cons, List.foldlM_cons, zipLoop, hat, ok_bind, incInt,
      if_pos hmax]
    congr 1; funext s'
    exact ih (i + 1) s' (by omega)

theorem zipLoop_not_ok (txt : Bytes) (k : Nat) (i : Int) (s s' : ZipSt) (hi : i ≤ INT_MAX)
    (hk : INT_MAX < i + k) : zipLoop txt k i s ≠ .ok s' := by
  induction k generalizing i s with
  | zero => omega
  | succ k ih =>
    intro h
    obtain ⟨c, -, h⟩ := bind_ok h
    obtain ⟨s₁, -, h⟩ := bind_ok h
    obtain ⟨i', hi', h⟩ := bind_ok h
    unfold incInt at hi'
    split at hi'
    · simp only [Except.ok.injEq] at hi'
      subst hi'
      exact ih (i + 1) s₁ (by omega) (by push_cast at hk ⊢; omega) h
    · cases hi'

/-- What a worker reads: its slice, and at least one byte. -/
def zipText (txt : Bytes) (start stop : Nat) : Bytes := (txt.drop start).take (max 1 (stop - start))

theorem zipText_eq_cons {txt : Bytes} {start : Nat} (h : start < txt.length) (stop : Nat) :
    zipText txt start stop = txt[start] :: (txt.drop (start + 1)).take (stop - (start + 1)) := by
  obtain ⟨k, hk⟩ : ∃ k, max 1 (stop - start) = k + 1 := ⟨max 1 (stop - start) - 1, by omega⟩
  rw [zipText, hk, List.drop_eq_getElem_cons h, List.take_succ_cons]
  congr 2
  omega

theorem zip_takes {txt : Bytes} {start stop : Nat} (hs : start < txt.length) (he : stop ≤ txt.length)
    (hlen : txt.length < 2 ^ 31) :
    (∃ c, zip txt start stop =
        .ok ((runs (zipText txt start stop)).map (fun r => (r.1, (r.2 : Int))) ++ [(c, -1)]) ∧
        Fits (runs (zipText txt start stop))) ∨
      (zip txt start stop = .error .undefined ∧ TooBig (runs (zipText txt start stop))) := by
  have hat : txtAt txt start = .ok txt[start] := by
    simp [txtAt, hs, show ¬ (start : Int) < 0 by omega]
  have hmax : (start : Int) < INT_MAX := by rw [INT_MAX]; omega
  have hrep : ZipRep ⟨txt[start], 1, []⟩ (Enc.push {} (txt[start], 1)) :=
    ⟨rfl, rfl, Int.one_pos, Fits.all_cur (by simp [Fits]) (by omega)⟩
  have hsub : zip txt start stop = (do
      let s ← ((txt.drop (start + 1)).take (stop - (start + 1))).foldlM zipByte ⟨txt[start], 1, []⟩
      let res ← storeRes s.res s.curr s.count
      storeRes res s.curr (-1)) := by
    rw [zip, toInt32_of_lt (by omega)]
    simp only [hat, ok_bind, incInt, if_pos hmax]
    rw [show ((start : Int) + 1) = ((start + 1 : Nat) : Int) by omega, Int.toNat_natCast]
    rcases Nat.lt_or_ge start stop with hlt | hge
    · rw [zipLoop_eq_foldlM txt _ _ _ (by omega) hlen]
    · rw [show stop - (start + 1) = 0 by omega]; simp [zipLoop, pure, Except.pure]
  have hruns : runs (zipText txt start stop) =
      (((txt.drop (start + 1)).take (stop - (start + 1))).foldl (fun e c => e.push (c, 1))
        (Enc.push {} (txt[start], 1))).all := by
    rw [zipText_eq_cons hs, runs, ones, List.map_cons, Enc.pushAll_cons, Enc.pushAll, List.foldl_map]
  rw [hsub, hruns]
  rcases foldlM_sim (R := ZipRep) (B := fun e => TooBig e.all) (fun e c he => he.push (c, 1)) _
    (fun s e c _ h => zipByte_takes h c) hrep with ⟨s', hs', h'⟩ | ⟨hs', hbad⟩
  · rw [hs']
    have hcount : ((s'.count.toNat : Nat) : Int) = s'.count := by have := h'.pos; omega
    have hres : s'.res ++ [(s'.curr, s'.count)] = (List.foldl (fun e c => e.push (c, 1))
        (Enc.push {} (txt[start], 1)) ((txt.drop (start + 1)).take (stop - (start + 1)))).all.map
          fun r => (r.1, (r.2 : Int)) := by
      simp [Enc.all, h'.cur, h'.res, hcount]
    by_cases hroom : s'.res.length + 1 < RES_SIZE
    · refine .inl ⟨s'.curr, ?_, h'.fits⟩
      rw [ok_bind, storeRes, if_pos (by omega), ok_bind, storeRes, if_pos (by simpa using hroom), hres]
    · refine .inr ⟨?_, .inr ?_⟩
      · rw [ok_bind]
        unfold storeRes
        split
        · rw [ok_bind, if_neg (by simpa using hroom)]
        · rfl
      · have hl := congrArg List.length hres
        simp only [List.length_append, List.length_map, List.length_singleton] at hl
        rw [RES_SIZE] at hroom
        omega
  · exact .inr ⟨by rw [hs']; rfl, hbad⟩

/-! ### The merge loop -/

structure PzipRep (s : PzipSt) (e : Enc UInt8) : Prop where
  out : s.out = archive e.done
  idle : e.cur = none → s.old_char = -17 ∧ s.old_count = 0
  cur : ∀ c n, e.cur = some (c, n) → s.old_char = charInt c ∧ s.old_count = n ∧ 0 < n
  fits : Fits e.all

theorem PzipRep.mk_cur {s : PzipSt} {done : List (UInt8 × Nat)} {c : UInt8} {n : Nat}
    (hout : s.out = archive done) (hchar : s.old_char = charInt c) (hcount : s.old_count = n) (hn : 0 < n)
    (hd : Fits done) (hlt : n < 2 ^ 31) : PzipRep s { done := done, cur := some (c, n) } := by
  refine ⟨hout, by simp, ?_, hd.all_cur hlt⟩
  rintro c' n' hcn
  simp only [Option.some.injEq, Prod.mk.injEq] at hcn
  obtain ⟨rfl, rfl⟩ := hcn
  exact ⟨hchar, hcount, hn⟩

theorem mergeRes_cons {s : PzipSt} {e : Enc UInt8} (h : PzipRep s e) {c : UInt8} {n : Nat} (hn : 0 < n)
    (hlt : n < 2 ^ 31) (res : List (UInt8 × Int)) :
    (∃ s', mergeRes ((c, (n : Int)) :: res) s = mergeRes res s' ∧ PzipRep s' (e.push (c, n))) ∨
      (mergeRes ((c, (n : Int)) :: res) s = .error .undefined ∧ ¬ Fits (e.push (c, n)).all) := by
  have hn1 : (n : Int) ≠ -1 := by omega
  have hnil : Fits [] := fun r hr => by simp at hr
  rcases hcur : e.cur with _ | ⟨d, m⟩
  · -- nothing counted yet: no record is written, also when the first byte happens to be `'\357'`
    obtain ⟨hchar, hcount⟩ := h.idle hcur
    have hpush : e.push (c, n) = { done := [], cur := some (c, n) } := by
      simp [Enc.push, hcur, e.idle hcur]
    have hout : s.out = archive [] := by rw [h.out, e.idle hcur]
    rw [hpush]
    by_cases hc : charInt c = -17
    · refine .inl ⟨{ s with old_count := n }, ?_,
        PzipRep.mk_cur hout (hchar.trans hc.symm) rfl hn hnil hlt⟩
      have hadd : addInt s.old_count n = .ok (n : Int) := by
        rw [hcount, addInt, INT_MAX, if_pos (by omega), Int.zero_add]
      simp [mergeRes, hn1, hchar, hc, hadd]
    · refine .inl ⟨⟨charInt c, n, s.out⟩, ?_, PzipRep.mk_cur hout rfl rfl hn hnil hlt⟩
      simp [mergeRes, hn1, hchar, hcount, Ne.symm hc]
  · obtain ⟨hchar, hcount, hm⟩ := h.cur d m hcur
    have hall : Fits (e.done ++ [(d, m)]) := by simpa [Enc.all, hcur] using h.fits
    by_cases hdc : d = c
    · subst hdc
      rw [Enc.push_of_eq hcur]
      rcases Nat.lt_or_ge (m + n) (2 ^ 31) with hs | hs
      · refine .inl ⟨{ s with old_count := (m + n : Nat) }, ?_,
          PzipRep.mk_cur h.out hchar rfl (by omega) (fun r hr => hall r (by simp [hr])) hs⟩
        have hadd : addInt s.old_count n = .ok ((m + n : Nat) : Int) := by
          rw [hcount, addInt, INT_MAX, if_pos (by omega), Int.natCast_add]
        simp [mergeRes, hn1, hchar, hadd]
      · refine .inr ⟨?_, fun hf => ?_⟩
        · have hadd : addInt s.old_count n = .error .undefined := by
            rw [hcount, addInt, INT_MAX, if_neg (by omega)]
          simp [mergeRes, hn1, hchar, hadd]
        · exact absurd (hf (d, m + n) (by simp [Enc.all])) (Nat.not_lt.2 hs)
    · rw [Enc.push_of_ne hcur hdc]
      refine .inl ⟨⟨charInt c, n, s.out ++ fwriteRun s.old_count (lowByte s.old_char)⟩, ?_,
        PzipRep.mk_cur ?_ rfl rfl hn hall hlt⟩
      · have hne : charInt d ≠ charInt c := fun h => hdc (charInt_injective h)
        have hm0 : m ≠ 0 := by omega
        simp [mergeRes, hn1, hchar, hne, hcount, hm0]
      · simp [h.out, hchar, hcount]

theorem mergeRes_takes {s : PzipSt} {e : Enc UInt8} (h : PzipRep s e) (c : UInt8)
    {rs : List (UInt8 × Nat)} (hpos : ∀ r ∈ rs, 0 < r.2) (hf : Fits rs) :
    (∃ s', mergeRes (rs.map (fun r => (r.1, (r.2 : Int))) ++ [(c, -1)]) s = .ok s' ∧
        PzipRep s' (e.pushAll rs)) ∨
      (mergeRes (rs.map (fun r => (r.1, (r.2 : Int))) ++ [(c, -1)]) s = .error .undefined ∧
        ¬ Fits (e.pushAll rs).all) := by
  induction rs generalizing s e with
  | nil => exact .inl ⟨s, rfl, h⟩
  | cons r rs ih =>
    rw [List.map_cons, List.cons_append, Enc.pushAll_cons]
    rcases mergeRes_cons h (hpos r (by simp)) (hf r (by simp))
      (rs.map (fun r => (r.1, (r.2 : Int))) ++ [(c, -1)]) with ⟨s', hs', h'⟩ | ⟨hs', hbad⟩
    · rw [hs']
      exact ih h' (fun q hq => hpos q (by simp [hq])) fun q hq => hf q (by simp [hq])
    · exact .inr ⟨hs', not_fits_pushAll hbad _⟩

/-! ### A file -/

def workerTexts (NO_OF_PROC : Nat) (txt : Bytes) : List Bytes :=
  (List.range NO_OF_PROC).map fun j =>
    zipText txt (sliceStart NO_OF_PROC txt.length j) (sliceEnd NO_OF_PROC txt.length j)

/-- Every worker's result fits its arrays. -/
def SmallResults (NO_OF_PROC : Nat) (txt : Bytes) : Prop :=
  ∀ w ∈ workerTexts NO_OF_PROC txt, (runs w).length < 999999

theorem mapM_zip {txt : Bytes} (hlen : txt.length < 2 ^ 31) (js : List Nat) {f g : Nat → Nat}
    (hf : ∀ j ∈ js, f j < txt.length) (hg : ∀ j ∈ js, g j ≤ txt.length) :
    (∃ L, js.mapM (fun j => zip txt (f j) (g j)) = .ok L ∧
        List.Forall₂ (fun r w => (∃ c, r = (runs w).map (fun r => (r.1, (r.2 : Int))) ++ [(c, -1)]) ∧
          Fits (runs w)) L (js.map fun j => zipText txt (f j) (g j))) ∨
      (js.mapM (fun j => zip txt (f j) (g j)) = .error .undefined ∧
        ∃ w ∈ js.map fun j => zipText txt (f j) (g j), TooBig (runs w)) := by
  induction js with
  | nil => exact .inl ⟨[], rfl, .nil⟩
  | cons j js ih =>
    rw [List.mapM_cons, List.map_cons]
    rcases zip_takes (hf j (by simp)) (hg j (by simp)) hlen with ⟨c, hz, hfit⟩ | ⟨hz, hbig⟩
    · rw [hz, ok_bind]
      rcases ih (fun i hi => hf i (by simp [hi])) (fun i hi => hg i (by simp [hi])) with
        ⟨L, hL, hall⟩ | ⟨hL, w, hw, hbig⟩
      · exact .inl ⟨_, by rw [hL, ok_bind]; rfl, .cons ⟨⟨c, rfl⟩, hfit⟩ hall⟩
      · exact .inr ⟨by rw [hL, error_bind], w, List.mem_cons_of_mem _ hw, hbig⟩
    · exact .inr ⟨by rw [hz, error_bind], _, List.mem_cons_self .., hbig⟩

theorem foldlM_mergeRes {L : List (List (UInt8 × Int))} {ws : List Bytes}
    (hL : List.Forall₂ (fun r w => (∃ c, r = (runs w).map (fun r => (r.1, (r.2 : Int))) ++ [(c, -1)]) ∧
      Fits (runs w)) L ws) {s : PzipSt} {e : Enc UInt8} (h : PzipRep s e) :
    (∃ s', L.foldlM (fun s r => mergeRes r s) s = .ok s' ∧ PzipRep s' (e.pushAll (ws.flatMap runs))) ∨
      (L.foldlM (fun s r => mergeRes r s) s = .error .undefined ∧
        ¬ Fits (e.pushAll (ws.flatMap runs)).all) := by
  induction hL generalizing s e with
  | nil => exact .inl ⟨s, rfl, h⟩
  | @cons r w L ws hr _ ih =>
    obtain ⟨⟨c, rfl⟩, hfit⟩ := hr
    rw [List.foldlM_cons, List.flatMap_cons, Enc.pushAll_append]
    rcases mergeRes_takes h c (canonical_runs w).pos hfit with ⟨s', hs', h'⟩ | ⟨hs', hbad⟩
    · rw [hs', ok_bind]
      exact ih h'
    · exact .inr ⟨by rw [hs', error_bind], not_fits_pushAll hbad _⟩

section
variable {N len j : Nat}

theorem div_mul_le_of_lt (len : Nat) (hj : j < N) : len / N * (j + 1) ≤ len :=
  Nat.le_trans (Nat.mul_le_mul_left _ hj) (Nat.div_mul_le_self len N)

theorem sliceStart_lt (hj : j < N) (hlen : 0 < len) : sliceStart N len j < len := by
  have h := div_mul_le_of_lt len hj
  rw [Nat.mul_succ] at h
  unfold sliceStart
  rcases Nat.eq_zero_or_pos (len / N) with h0 | hpos
  · rw [h0, Nat.zero_mul]; exact hlen
  · omega

theorem sliceEnd_le (hj : j < N) : sliceEnd N len j ≤ len := by
  have h := div_mul_le_of_lt len hj
  rw [Nat.mul_succ] at h
  unfold sliceEnd
  split
  · exact Nat.le_refl _
  · exact h

end

theorem pzipFile_takes {N : Nat} {s : PzipSt} {e : Enc UInt8} (h : PzipRep s e) {txt : Bytes}
    (hne : txt ≠ []) (hlen : txt.length < 2 ^ 31) (hsmall : SmallResults N txt) :
    (∃ s', pzipFile N s (some txt) = .ok s' ∧ PzipRep s' (e.pushAll ((workerTexts N txt).flatMap runs))) ∨
      (pzipFile N s (some txt) = .error .undefined ∧
        ¬ Fits (e.pushAll ((workerTexts N txt).flatMap runs)).all) := by
  have hpos : 0 < txt.length := List.length_pos_of_ne_nil hne
  rcases mapM_zip (f := sliceStart N txt.length) (g := sliceEnd N txt.length) hlen (List.range N)
    (fun j hj => sliceStart_lt (List.mem_range.1 hj) hpos) (fun j hj => sliceEnd_le (List.mem_range.1 hj)) with
    ⟨L, hL, hall⟩ | ⟨hL, w, hw, hbig⟩
  · rw [pzipFile, hL, ok_bind]
    exact foldlM_mergeRes hall h
  · refine .inr ⟨by rw [pzipFile, hL, error_bind], fun hf => ?_⟩
    rcases hbig with hbig | hbig
    · refine hbig fun r hr => ?_
      obtain ⟨q, hq, hle⟩ := Enc.exists_le_of_mem_pushAll
        (List.mem_flatMap.2 ⟨w, hw, hr⟩ : r ∈ (workerTexts N txt).flatMap runs) e
      exact Nat.lt_of_le_of_lt hle (hf q hq)
    · exact absurd (hsmall w hw) (Nat.not_lt.2 hbig)

end Ostep
