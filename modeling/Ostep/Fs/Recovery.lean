import Ostep.Lib.Crash
import Ostep.Fs.Log

/-!
# Crashes during commit and recovery

A commit sends the new blocks to the log, the header, the new blocks to their home locations, and an empty header. Wherever it is
cut, the disk is in one of three phases: the header is empty and the home blocks are old; or the header and the log describe the
transaction and each home block is old or new; or the header is empty again and the home blocks are new. A recovery, cut or not,
never leads back to an earlier phase, and a complete one leaves an empty header.
-/

namespace Ostep.Fs.Log

variable {start size : Nat} {lh : List Nat} {d d' c : Nat → Block}

/-- A transaction whose home blocks lie outside the log area, and which fits in the log and its header. -/
structure Transaction (start size : Nat) (lh : List Nat) : Prop where
  size_pos : 0 < size
  fits : lh.length ≤ size - 1
  header : lh.length ≤ LOGSIZE
  outside : ∀ b ∈ lh, ¬ (start ≤ b ∧ b < start + size)
  uint : ∀ b ∈ lh, b < 2 ^ 32

/-! ### The header -/

theorem word_putHead {i : Nat} (hi : i < lh.length + 1) (hword : (lh.length :: lh).getD i 0 < 2 ^ 32) (h : Block) :
    word (putHead lh h) i = (lh.length :: lh).getD i 0 := by
  have hbyte : ∀ k < 4, (putHead lh h (4 * i + k)).toNat = (lh.length :: lh).getD i 0 / 2 ^ (8 * k) % 256 := by
    intro k hk
    rw [putHead, if_pos (by omega), byteOf_toNat, show (4 * i + k) / 4 = i by omega, show (4 * i + k) % 4 = k by omega]
  have h0 := hbyte 0 (by omega)
  rw [Nat.add_zero] at h0
  rw [word, h0, hbyte 1 (by omega), hbyte 2 (by omega), hbyte 3 (by omega)]
  omega

theorem headN_putHead (hlen : lh.length ≤ LOGSIZE) (h : Block) : headN (putHead lh h) = lh.length := by
  have hlt : lh.length < 2 ^ 31 := Nat.lt_of_le_of_lt hlen (by decide)
  have hword : (lh.length :: lh).getD 0 0 < 2 ^ 32 := by
    show lh.length < 2 ^ 32
    omega
  rw [headN, word_putHead (by omega) hword]
  exact toInt32_of_lt hlt

theorem headN_putHead_nil (h : Block) : headN (putHead [] h) = 0 := headN_putHead (Nat.zero_le _) h

theorem readHead_putHead (hlen : lh.length ≤ LOGSIZE) (huint : ∀ b ∈ lh, b < 2 ^ 32) (h : Block) :
    readHead (putHead lh h) = .ok lh := by
  unfold readHead
  rw [headN_putHead hlen, if_neg (by omega), Int.toNat_natCast]
  congr 1
  refine List.ext_getElem (by simp) fun i hi hi' => ?_
  rw [List.length_map, List.length_range] at hi
  have hget : (lh.length :: lh).getD (i + 1) 0 = lh[i] := by simp [hi]
  rw [List.getElem_map, List.getElem_range, word_putHead (by omega) (by rw [hget]; exact huint _ (List.getElem_mem hi)), hget]

theorem readHead_of_headN (h : Block) (hn : headN h = 0) : readHead h = .ok [] := by
  rw [readHead, hn, if_neg (by omega)]
  rfl

/-! ### The writes -/

theorem getD_mem {t : Nat} (ht : t < lh.length) : lh.getD t 0 ∈ lh := by
  simp [ht]

theorem map_getD_range (lh : List Nat) : (List.range lh.length).map (fun t => lh.getD t 0) = lh := by
  refine List.ext_getElem (by simp) fun i hi hi' => ?_
  simp [hi']

section
variable (ht : Transaction start size lh)
include ht

theorem Transaction.home_ne_log {s t : Nat} (hs : s < lh.length) (ht' : t < lh.length) : lh.getD s 0 ≠ start + t + 1 := by
  intro heq
  have hfits := ht.fits
  exact ht.outside _ (getD_mem hs) (by omega)

theorem Transaction.writeLog (ws : List (Nat × Block)) :
    (writeLog start lh ⟨c, ws⟩).sent = ws ++ (List.range lh.length).map (fun t => (start + t + 1, c (lh.getD t 0))) ∧
      (∀ t < lh.length, (writeLog start lh ⟨c, ws⟩).cache (start + t + 1) = c (lh.getD t 0)) := by
  -- after `m` passes, for `m ≤ lh.length`
  have hpass : ∀ m ≤ lh.length, ∀ dev, dev = (List.range m).foldl (fun dev tail =>
        bwrite (start + tail + 1) (copyBlock (start + tail + 1) (lh.getD tail 0) dev)) ⟨c, ws⟩ →
      dev.sent = ws ++ (List.range m).map (fun t => (start + t + 1, c (lh.getD t 0))) ∧
      ∀ x, dev.cache x = if start < x ∧ x ≤ start + m then c (lh.getD (x - start - 1) 0) else c x := by
    intro m
    induction m with
    | zero =>
      rintro - dev rfl
      exact ⟨(List.append_nil ws).symm, fun x => (if_neg (by omega)).symm⟩
    | succ m ih =>
      rintro hm dev rfl
      obtain ⟨hsent, hcache⟩ := ih (by omega) _ rfl
      have hhome : ¬ (start < lh.getD m 0 ∧ lh.getD m 0 ≤ start + m) := by
        rintro ⟨hlt, hle⟩
        exact ht.home_ne_log (s := m) (t := lh.getD m 0 - start - 1) (by omega) (by omega) (by omega)
      rw [List.range_succ, List.foldl_append, List.foldl_cons, List.foldl_nil]
      refine ⟨?_, fun x => ?_⟩
      · rw [bwrite_sent, copyBlock_sent, copyBlock_cache, hsent, Function.update_self, hcache, if_neg hhome, List.map_append,
          List.append_assoc]
        rfl
      · rw [bwrite_cache, copyBlock_cache]
        by_cases hx : x = start + m + 1
        · rw [hx, Function.update_self, hcache, if_neg hhome, if_pos (by omega), show start + m + 1 - start - 1 = m by omega]
        · rw [Function.update_of_ne hx, hcache]
          exact if_congr (by omega) rfl rfl
  obtain ⟨hsent, hcache⟩ := hpass lh.length (Nat.le_refl _) _ rfl
  refine ⟨hsent, fun t ht' => ?_⟩
  rw [Log.writeLog, hcache, if_pos (by omega), show start + t + 1 - start - 1 = t by omega]

theorem Transaction.installTrans (ws : List (Nat × Block)) {v : Nat → Block}
    (hlog : ∀ t < lh.length, c (start + t + 1) = v (lh.getD t 0)) :
    (installTrans start lh ⟨c, ws⟩).sent = ws ++ lh.map (fun b => (b, v b)) ∧
      (installTrans start lh ⟨c, ws⟩).cache start = c start := by
  have hpass : ∀ m ≤ lh.length, ∀ dev, dev = (List.range m).foldl (fun dev tail =>
        bwrite (lh.getD tail 0) (copyBlock (lh.getD tail 0) (start + tail + 1) dev)) ⟨c, ws⟩ →
      dev.sent = ws ++ (List.range m).map (fun t => (lh.getD t 0, v (lh.getD t 0))) ∧
      ∀ x, start ≤ x → x ≤ start + lh.length → dev.cache x = c x := by
    intro m
    induction m with
    | zero =>
      rintro - dev rfl
      exact ⟨(List.append_nil ws).symm, fun x _ _ => rfl⟩
    | succ m ih =>
      rintro hm dev rfl
      obtain ⟨hsent, hcache⟩ := ih (by omega) _ rfl
      rw [List.range_succ, List.foldl_append, List.foldl_cons, List.foldl_nil]
      refine ⟨?_, fun x hge hle => ?_⟩
      · rw [bwrite_sent, copyBlock_sent, copyBlock_cache, hsent, Function.update_self, hcache _ (by omega) (by omega),
          hlog m (by omega), List.map_append, List.append_assoc]
        rfl
      · have hx : x ≠ lh.getD m 0 := by
          rintro rfl
          have hfits := ht.fits
          exact ht.outside _ (getD_mem (show m < lh.length by omega)) (by omega)
        rw [bwrite_cache, copyBlock_cache, Function.update_of_ne hx, hcache x hge hle]
  obtain ⟨hsent, hcache⟩ := hpass lh.length (Nat.le_refl _) _ rfl
  refine ⟨?_, hcache start (Nat.le_refl _) (by omega)⟩
  rw [Log.installTrans, hsent]
  congr 1
  have := congrArg (List.map fun b => (b, v b)) (map_getD_range lh)
  rw [List.map_map] at this
  exact this

theorem Transaction.commit (hpos : 0 < lh.length) : ∃ h₁ h₂ : Block, readHead h₁ = .ok lh ∧ headN h₂ = 0 ∧
    (commit start lh ⟨c, []⟩).sent = (List.range lh.length).map (fun t => (start + t + 1, c (lh.getD t 0))) ++
      (start, h₁) :: (lh.map (fun b => (b, c b)) ++ [(start, h₂)]) := by
  obtain ⟨hsent, hlog⟩ := ht.writeLog (c := c) []
  have hlog' : ∀ t < lh.length, (writeHead start lh (Log.writeLog start lh ⟨c, []⟩)).cache (start + t + 1) = c (lh.getD t 0) := by
    intro t ht'
    rw [writeHead_cache, Function.update_of_ne (by omega), hlog t ht']
  obtain ⟨hinst, hhead⟩ := ht.installTrans (writeHead start lh (Log.writeLog start lh ⟨c, []⟩)).sent hlog'
  refine ⟨putHead lh ((Log.writeLog start lh ⟨c, []⟩).cache start),
    putHead [] ((writeHead start lh (Log.writeLog start lh ⟨c, []⟩)).cache start), readHead_putHead ht.header ht.uint _,
    headN_putHead_nil _, ?_⟩
  rw [Log.commit, if_pos hpos, writeHead_sent, hinst, hhead, writeHead_sent, hsent]
  simp

theorem Transaction.recover (hhead : readHead (d start) = .ok lh) (hlog : ∀ t < lh.length, d (start + t + 1) = c (lh.getD t 0)) :
    ∃ dev, recoverFromLog start ⟨d, []⟩ = .ok dev ∧ ∃ h₂ : Block, headN h₂ = 0 ∧
      dev.sent = lh.map (fun b => (b, c b)) ++ [(start, h₂)] := by
  obtain ⟨hinst, hcache⟩ := ht.installTrans [] hlog
  refine ⟨_, by rw [recoverFromLog, hhead]; rfl, putHead [] (d start), headN_putHead_nil _, ?_⟩
  rw [writeHead_sent, hinst, hcache]
  rfl

end

theorem recover_empty (hhead : headN (d start) = 0) :
    ∃ dev, recoverFromLog start ⟨d, []⟩ = .ok dev ∧ ∃ h₂ : Block, headN h₂ = 0 ∧ dev.sent = [(start, h₂)] := by
  refine ⟨_, by rw [recoverFromLog, readHead_of_headN _ hhead]; rfl, putHead [] (d start), headN_putHead_nil _, ?_⟩
  rw [writeHead_sent]
  rfl

/-! ### Phases -/

def Outside (start size x : Nat) : Prop := ¬ (start ≤ x ∧ x < start + size)

/-- The header is empty, and the blocks outside the log are as in `e`. -/
structure Clean (start size : Nat) (e d : Nat → Block) : Prop where
  head : headN (d start) = 0
  home : ∀ x, Outside start size x → d x = e x

/-- The header and the log describe the transaction, and each home block is old or new. -/
structure Pending (start size : Nat) (lh : List Nat) (old new d : Nat → Block) : Prop where
  head : readHead (d start) = .ok lh
  log : ∀ t < lh.length, d (start + t + 1) = new (lh.getD t 0)
  home : ∀ x, Outside start size x → d x = old x ∨ x ∈ lh ∧ d x = new x

def installed (lh : List Nat) (old new : Nat → Block) (x : Nat) : Block := if x ∈ lh then new x else old x

def recoverWrites (start : Nat) (d : Nat → Block) : List (Nat × Block) :=
  match recoverFromLog start ⟨d, []⟩ with
  | .ok dev => dev.sent
  | .error _ => []

section
variable {e : Nat → Block} (hsize : 0 < size)
include hsize

theorem outside_ne_start {x : Nat} (hx : Outside start size x) : start ≠ x := by
  rintro rfl
  exact hx (by omega)

theorem Clean.of_head {h : Block} (hh : headN h = 0) (hd : ∀ x, Outside start size x → d x = e x) :
    Clean start size e (Function.update d start h) :=
  ⟨by rw [Function.update_self]; exact hh, fun x hx => by
    rw [Function.update_of_ne (Ne.symm (outside_ne_start hsize hx)), hd x hx]⟩

theorem Clean.recover (h : Clean start size e d) (j : Nat) : Clean start size e (replay ((recoverWrites start d).take j) d) := by
  obtain ⟨dev, hdev, h₂, hh, hsent⟩ := recover_empty h.head
  rw [recoverWrites, hdev]
  simp only [hsent]
  rcases j with _ | j
  · exact h
  · rw [List.take_of_length_le (by simp)]
    exact Clean.of_head hsize hh h.home

end

section
variable {old new : Nat → Block} (ht : Transaction start size lh)
include ht

theorem Pending.install (h : Pending start size lh old new d) (j : Nat) :
    Pending start size lh old new (replay ((lh.take j).map fun b => (b, new b)) d) := by
  have hlog : ∀ x, start ≤ x → x < start + size → replay ((lh.take j).map fun b => (b, new b)) d x = d x := by
    intro x hge hlt
    rw [replay_map, if_neg fun hx => ht.outside x (List.mem_of_mem_take hx) ⟨hge, hlt⟩]
  have hfits := ht.fits
  refine ⟨?_, fun t ht' => ?_, fun x hx => ?_⟩
  · rw [hlog start (Nat.le_refl _) (by have := ht.size_pos; omega)]
    exact h.head
  · rw [hlog _ (by omega) (by omega), h.log t ht']
  · rw [replay_map]
    split
    · next hmem => exact .inr ⟨List.mem_of_mem_take hmem, rfl⟩
    · exact h.home x hx

theorem Pending.installed (h : Pending start size lh old new d) {h₂ : Block} (hh : headN h₂ = 0) :
    Clean start size (Log.installed lh old new) (replay (lh.map (fun b => (b, new b)) ++ [(start, h₂)]) d) := by
  rw [replay_append]
  refine Clean.of_head ht.size_pos hh fun x hx => ?_
  rw [replay_map, Log.installed]
  by_cases hmem : x ∈ lh
  · rw [if_pos hmem, if_pos hmem]
  · rw [if_neg hmem, if_neg hmem]
    exact (h.home x hx).resolve_right fun h => hmem h.1

theorem Pending.take (h : Pending start size lh old new d) {h₂ : Block} (hh : headN h₂ = 0) (j : Nat) :
    Pending start size lh old new (replay ((lh.map (fun b => (b, new b)) ++ [(start, h₂)]).take j) d) ∨
      Clean start size (Log.installed lh old new) (replay ((lh.map (fun b => (b, new b)) ++ [(start, h₂)]).take j) d) := by
  by_cases hj : j ≤ lh.length
  · rw [List.take_append_of_le_length (by simpa using hj), ← List.map_take]
    exact .inl (h.install ht j)
  · rw [List.take_of_length_le (by simp; omega)]
    exact .inr (h.installed ht hh)

theorem Pending.recover (h : Pending start size lh old new d) (j : Nat) :
    Pending start size lh old new (replay ((recoverWrites start d).take j) d) ∨
      Clean start size (Log.installed lh old new) (replay ((recoverWrites start d).take j) d) := by
  obtain ⟨dev, hdev, h₂, hh, hsent⟩ := ht.recover h.head h.log
  rw [recoverWrites, hdev]
  simp only [hsent]
  exact h.take ht hh j

/-- Where a crash can leave a commit. -/
theorem Transaction.commit_take (new : Nat → Block) (hpos : 0 < lh.length) (hold : headN (old start) = 0) (k : Nat) :
    (k ≤ lh.length ∧ Clean start size old (replay ((Log.commit start lh ⟨new, []⟩).sent.take k) old)) ∨
      (lh.length < k ∧ (Pending start size lh old new (replay ((Log.commit start lh ⟨new, []⟩).sent.take k) old) ∨
        Clean start size (Log.installed lh old new) (replay ((Log.commit start lh ⟨new, []⟩).sent.take k) old))) := by
  obtain ⟨h₁, h₂, hh₁, hh₂, hsent⟩ := ht.commit (c := new) hpos
  have hfits := ht.fits
  set logW := (List.range lh.length).map (fun t => (start + t + 1, new (lh.getD t 0))) with hlogW
  have hlen : logW.length = lh.length := by rw [hlogW, List.length_map, List.length_range]
  have hkeys : ∀ w ∈ logW, start < w.1 ∧ w.1 < start + size := by
    intro w hw
    obtain ⟨t, ht', rfl⟩ := List.mem_map.1 hw
    have := List.mem_range.1 ht'
    exact ⟨by simp only; omega, by simp only; omega⟩
  rw [hsent]
  by_cases hk : k ≤ lh.length
  · -- only log blocks have been written
    refine .inl ⟨hk, ?_⟩
    rw [List.take_append_of_le_length (by omega)]
    refine ⟨?_, fun x hx => ?_⟩
    · rw [replay_of_not_mem fun w hw => ?_]
      · exact hold
      · have := (hkeys w (List.mem_of_mem_take hw)).1
        omega
    · refine replay_of_not_mem fun w hw heq => hx ?_
      have := hkeys w (List.mem_of_mem_take hw)
      omega
  · refine .inr ⟨by omega, ?_⟩
    obtain ⟨j, rfl⟩ : ∃ j, k = logW.length + (j + 1) := ⟨k - lh.length - 1, by omega⟩
    rw [List.take_length_add_append, List.take_succ_cons, replay_append, replay_cons]
    refine Pending.take ht ⟨?_, fun t ht' => ?_, fun x hx => .inl ?_⟩ hh₂ j
    · rw [Function.update_self]
      exact hh₁
    · have hone : replay logW old (start + t + 1) = new (lh.getD t 0) := by
        have hform : logW = ((List.range lh.length).map (start + · + 1)).map fun b => (b, new (lh.getD (b - start - 1) 0)) := by
          rw [hlogW, List.map_map]
          refine List.map_congr_left fun t _ => ?_
          show _ = (start + t + 1, new (lh.getD (start + t + 1 - start - 1) 0))
          rw [show start + t + 1 - start - 1 = t by omega]
        rw [hform, replay_map, if_pos (List.mem_map.2 ⟨t, List.mem_range.2 ht', rfl⟩), show start + t + 1 - start - 1 = t by omega]
      rw [Function.update_of_ne (by simp only; omega), hone]
    · rw [Function.update_of_ne (Ne.symm (outside_ne_start ht.size_pos hx))]
      refine replay_of_not_mem fun w hw heq => hx ?_
      have := hkeys w hw
      omega

theorem Clean.recovered {e : Nat → Block} (h : Clean start size e d) :
    ∃ dev, recoverFromLog start ⟨d, []⟩ = .ok dev ∧ Clean start size e (replay dev.sent d) := by
  obtain ⟨dev, hdev, h₂, hh, hsent⟩ := recover_empty h.head
  refine ⟨dev, hdev, ?_⟩
  rw [hsent]
  exact Clean.of_head ht.size_pos hh h.home

theorem Pending.recovered (h : Pending start size lh old new d) :
    ∃ dev, recoverFromLog start ⟨d, []⟩ = .ok dev ∧ Clean start size (Log.installed lh old new) (replay dev.sent d) := by
  obtain ⟨dev, hdev, h₂, hh, hsent⟩ := ht.recover h.head h.log
  refine ⟨dev, hdev, ?_⟩
  rw [hsent]
  exact h.installed ht hh

theorem Transaction.undone (hold : headN (old start) = 0) {k : Nat} (hk : k ≤ lh.length)
    (hboots : Boots (recoverWrites start) (replay ((Log.commit start lh ⟨new, []⟩).sent.take k) old) d) :
    ∃ dev, recoverFromLog start ⟨d, []⟩ = .ok dev ∧ Clean start size old (replay dev.sent d) := by
  have hfirst : Clean start size old (replay ((Log.commit start lh ⟨new, []⟩).sent.take k) old) := by
    by_cases hpos : 0 < lh.length
    · rcases ht.commit_take new hpos hold k with ⟨-, h⟩ | ⟨hlt, -⟩
      · exact h
      · omega
    · have hnil : (Log.commit start lh ⟨new, []⟩).sent = [] := by rw [Log.commit, if_neg hpos]
      rw [hnil, List.take_nil]
      exact ⟨hold, fun x _ => rfl⟩
  exact (hboots.inv (fun d h j => h.recover ht.size_pos j) hfirst).recovered ht

theorem Transaction.done (hold : headN (old start) = 0) {k : Nat} (hpos : 0 < lh.length) (hk : lh.length < k)
    (hboots : Boots (recoverWrites start) (replay ((Log.commit start lh ⟨new, []⟩).sent.take k) old) d) :
    ∃ dev, recoverFromLog start ⟨d, []⟩ = .ok dev ∧ Clean start size (Log.installed lh old new) (replay dev.sent d) := by
  have hfirst := (ht.commit_take new hpos hold k).resolve_left fun h => by omega
  rcases hboots.inv (I := fun d => Pending start size lh old new d ∨ Clean start size (Log.installed lh old new) d)
    (fun d h j => h.elim (fun h => h.recover ht j) fun h => .inr (h.recover ht.size_pos j)) hfirst.2 with h | h
  · exact h.recovered ht
  · exact h.recovered ht

end

/-- Wherever a commit is cut, and however often the recoveries are cut afterwards, a recovery that completes leaves all home blocks
old or all home blocks new, and new as soon as the header had been written. -/
theorem crash_atomic {old new : Nat → Block} (ht : Transaction start size lh) (hold : headN (old start) = 0) (k : Nat)
    (hboots : Boots (recoverWrites start) (replay ((commit start lh ⟨new, []⟩).sent.take k) old) d) :
    ∃ dev, recoverFromLog start ⟨d, []⟩ = .ok dev ∧
      ((∀ b ∈ lh, replay dev.sent d b = old b) ∨ ∀ b ∈ lh, replay dev.sent d b = new b) ∧
      (lh.length < k → ∀ b ∈ lh, replay dev.sent d b = new b) ∧ headN (replay dev.sent d start) = 0 := by
  by_cases hk : lh.length < k ∧ 0 < lh.length
  · obtain ⟨dev, hdev, hclean⟩ := ht.done hold hk.2 hk.1 hboots
    have hnew : ∀ b ∈ lh, replay dev.sent d b = new b := by
      intro b hb
      rw [hclean.home b (ht.outside b hb), installed, if_pos hb]
    exact ⟨dev, hdev, .inr hnew, fun _ => hnew, hclean.head⟩
  · have hboots' : Boots (recoverWrites start) (replay ((commit start lh ⟨new, []⟩).sent.take (min k lh.length)) old) d := by
      rcases Nat.le_total k lh.length with hle | hle
      · rwa [Nat.min_eq_left hle]
      · rw [Nat.min_eq_right hle]
        by_cases hpos : 0 < lh.length
        · obtain rfl : k = lh.length := by omega
          exact hboots
        · have hnil : (commit start lh ⟨new, []⟩).sent = [] := by rw [commit, if_neg hpos]
          rw [hnil, List.take_nil] at hboots ⊢
          exact hboots
    obtain ⟨dev, hdev, hclean⟩ := ht.undone hold (Nat.min_le_right _ _) hboots'
    refine ⟨dev, hdev, .inl fun b hb => hclean.home b (ht.outside b hb), fun hlt b hb => ?_, hclean.head⟩
    exact absurd ⟨hlt, List.length_pos_of_mem hb⟩ hk

/-- Two blocks, with crashes after the header and the first home block, and in two recoveries. -/
theorem crash_atomic_twoBlocks : ∃ d dev, Boots (recoverWrites 2) (replay ((commit 2 [60, 61] ⟨fun _ _ => 1, []⟩).sent.take 4) fun _ _ => 0) d ∧
    recoverFromLog 2 ⟨d, []⟩ = .ok dev ∧ ∀ b ∈ [60, 61], replay dev.sent d b = fun _ => 1 := by
  have ht : Transaction 2 30 [60, 61] := ⟨by decide, by decide, by decide, by decide, by decide⟩
  have hstart : Boots (recoverWrites 2) (replay ((commit 2 [60, 61] ⟨fun _ _ => 1, []⟩).sent.take 4) fun _ _ => 0) _ := .refl
  have hboots := (hstart.crash 1).crash 2
  obtain ⟨dev, hdev, -, hnew, -⟩ := crash_atomic ht (by decide) 4 hboots
  exact ⟨_, dev, hboots, hdev, hnew (by decide)⟩

end Ostep.Fs.Log
