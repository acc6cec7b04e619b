import Ostep.Fs.RefCount

/-!
# The entries `.` and `..`

`check_dir` tests the entries `.` and `..` that it comes to, but nothing tests that there are any, that inode 1 is a directory, or
where `..` of another directory leads. `dots_right_iff` says what an accepted image must have besides to be right.
-/

namespace Ostep.Fs.Xcheck

variable {img : Image} {m : Malloc} {d : DInode}

/-! ### What an accepted image has passed -/

theorem constructSuperBlock_eq {ptr : Nat} {sb : SuperBlock} (h : constructSuperBlock img ptr = .ok sb) : sb = superAt img ptr := by
  obtain ⟨size, hsize, h⟩ := bind_ok h
  obtain ⟨nblocks, hnblocks, h⟩ := bind_ok h
  obtain ⟨ninodes, hninodes, h⟩ := bind_ok h
  obtain ⟨inodestart, hinodestart, h⟩ := bind_ok h
  obtain ⟨bmapstart, hbmapstart, h⟩ := bind_ok h
  cases h
  rw [getIntFromMem_eq hsize, getIntFromMem_eq hnblocks, getIntFromMem_eq hninodes, getIntFromMem_eq hinodestart,
    getIntFromMem_eq hbmapstart]
  rfl

theorem check_ok_events (h : check m img = .ok ()) :
    ∀ e ∈ events img (sbOf img) (tableOf img), ¬ e.Bad (sbOf img) ∧ ¬ e.Rejected (sbOf img) := by
  obtain ⟨sb, hsb, h⟩ := bind_ok h
  obtain rfl : sb = sbOf img := constructSuperBlock_eq hsb
  obtain ⟨t, ht, h⟩ := bind_ok h
  obtain rfl := constructInodes_eq ht
  obtain ⟨_, hinodes, -⟩ := bind_ok h
  obtain ⟨c, hc, -⟩ := bind_ok hinodes
  refine (foldlM_ok_iff (evStep_classifies _) (s := inuseAt img (sbOf img) m)).1 ⟨c, ?_⟩
  rw [← scanInodes_eq, mapError_eq_ok]
  exact hc

theorem none_not_mem_walk (h : check m img = .ok ()) {i : Nat} (hi : i < (sbOf img).ninodes) (hdir : (tableOf img i).type = T_DIR) :
    none ∉ walk img (direct (tableOf img i)) := by
  intro hnone
  refine (check_ok_events h (.slot i none) ?_).1 trivial
  refine List.mem_flatMap.2 ⟨i, List.mem_range.2 hi, List.mem_cons.2 (.inr ?_)⟩
  rw [if_pos hdir]
  exact List.mem_map.2 ⟨none, hnone, rfl⟩

/-! ### Names -/

def slotNamed (img : Image) (d : DInode) (name : List UInt8) : Option Nat :=
  (Kernel.seen img d).find? fun k => Kernel.sameName name (Kernel.slotOf img d k).name

def Finds (img : Image) (d : DInode) (name : List UInt8) (i : Nat) : Prop :=
  ∃ off, Kernel.lookupIn img d name (Kernel.seen img d) = some (i, off)

theorem finds_iff {name : List UInt8} {i : Nat} :
    Finds img d name i ↔ ∃ k, slotNamed img d name = some k ∧ (Kernel.slotOf img d k).inum = i := by
  unfold Finds Kernel.lookupIn
  rw [← slotNamed]
  cases slotNamed img d name with
  | none => simp
  | some k => simp

theorem slotOf_name_length (img : Image) (d : DInode) (k : Nat) : (Kernel.slotOf img d k).name.length ≤ DIRSIZ :=
  Nat.le_trans (List.takeWhile_sublist _).length_le (List.length_take_le _ _)

theorem slotOf_name_eq {name : List UInt8} {k : Nat} (hname : name.length ≤ DIRSIZ)
    (h : Kernel.sameName name (Kernel.slotOf img d k).name = true) : (Kernel.slotOf img d k).name = name := by
  have := of_decide_eq_true h
  rw [List.take_of_length_le hname, List.take_of_length_le (slotOf_name_length img d k)] at this
  exact this.symm

theorem dotOk_of_counted (h : check m img = .ok ()) {i k : Nat} (hi : i < (sbOf img).ninodes) (hdir : (tableOf img i).type = T_DIR)
    (hk : k ∈ countedSlots img (tableOf img i)) :
    DotOk i ⟨toInt16 (Kernel.slotOf img (tableOf img i) k).inum, (Kernel.slotOf img (tableOf img i) k).name⟩ := by
  obtain ⟨hk384, h0, -⟩ := mem_countedSlots hk
  have hmem := mem_events_of_counted hi hdir (none_not_mem_walk h hi hdir) hk
  rw [← slotOf_direct hk384 h0]
  exact not_not.1 (check_ok_events h _ hmem).2

theorem inum_eq_of_toInt16 {n i : Nat} (hn : n < 2 ^ 16) (h : (i : Int) = toInt16 n) : n = i := by
  unfold toInt16 at h
  split at h <;> omega

/-! ### The condition -/

/-- `..` of directory `i` leads to a directory that has an entry for it. -/
def ParentRight (img : Image) (i : Nat) : Prop :=
  ∃ p, Finds img (tableOf img i) dotdot p ∧ (tableOf img p).type = T_DIR ∧
    ∃ k ∈ Kernel.seen img (tableOf img p), (Kernel.slotOf img (tableOf img p) k).inum = i

/-- Inode 1 is the root directory, and all directories have the right `.` and `..`. -/
structure DotsRight (img : Image) : Prop where
  root : (tableOf img 1).type = T_DIR
  rootDot : Finds img (tableOf img 1) dot 1
  rootDotdot : Finds img (tableOf img 1) dotdot 1
  dots : ∀ i < (sbOf img).ninodes, (tableOf img i).type = T_DIR → Finds img (tableOf img i) dot i ∧ ParentRight img i

/-- Directory `i` has an entry with the name, and `check_dir` comes to it, or it names inode `j`. -/
def Reaches (img : Image) (i : Nat) (name : List UInt8) (j : Nat) : Prop :=
  ∃ k, slotNamed img (tableOf img i) name = some k ∧
    (k ∈ countedSlots img (tableOf img i) ∨ (Kernel.slotOf img (tableOf img i) k).inum = j)

structure DotsThere (img : Image) : Prop where
  root : (tableOf img 1).type = T_DIR
  selfDot : ∀ i < (sbOf img).ninodes, (tableOf img i).type = T_DIR → Reaches img i dot i
  rootDotdot : Reaches img 1 dotdot 1
  parent : ∀ i < (sbOf img).ninodes, i ≠ 1 → (tableOf img i).type = T_DIR → ParentRight img i

theorem reaches_of_finds {i j : Nat} {name : List UInt8} (h : Finds img (tableOf img i) name j) : Reaches img i name j := by
  obtain ⟨k, hk, hj⟩ := finds_iff.1 h
  exact ⟨k, hk, .inr hj⟩

theorem finds_of_reaches (h : check m img = .ok ()) {i j : Nat} {name : List UInt8} (hi : i < (sbOf img).ninodes)
    (hdir : (tableOf img i).type = T_DIR) (hname : name.length ≤ DIRSIZ) (hr : Reaches img i name j)
    (htest : ∀ inum, DotOk i ⟨inum, name⟩ → (j : Int) = inum) : Finds img (tableOf img i) name j := by
  obtain ⟨k, hk, hcounted | hj⟩ := hr
  · refine finds_iff.2 ⟨k, hk, inum_eq_of_toInt16 (slotOf_inum_lt _ _ _) (htest _ ?_)⟩
    have hok := dotOk_of_counted h hi hdir hcounted
    have hsame := List.find?_some hk
    rwa [slotOf_name_eq hname hsame] at hok
  · exact finds_iff.2 ⟨k, hk, hj⟩

/-- What else an accepted image needs for its root directory and all entries `.` and `..` to be right. -/
theorem dots_right_iff (h : check m img = .ok ()) : DotsRight img ↔ DotsThere img := by
  constructor
  · intro hr
    exact ⟨hr.root, fun i hi hdir => reaches_of_finds (hr.dots i hi hdir).1, reaches_of_finds hr.rootDotdot,
      fun i hi _ hdir => (hr.dots i hi hdir).2⟩
  · intro hc
    have hone : 1 < (sbOf img).ninodes := by
      by_contra hle
      have := hc.root
      rw [tableOf, inodesAt, if_neg hle] at this
      exact absurd this (by decide)
    have hdot : ∀ i < (sbOf img).ninodes, (tableOf img i).type = T_DIR → Finds img (tableOf img i) dot i := fun i hi hdir =>
      finds_of_reaches h hi hdir (by decide) (hc.selfDot i hi hdir) fun inum hok => hok.1 rfl
    have hdotdot : Finds img (tableOf img 1) dotdot 1 :=
      finds_of_reaches h hone hc.root (by decide) hc.rootDotdot fun inum hok => hok.2 rfl rfl
    refine ⟨hc.root, hdot 1 hone hc.root, hdotdot, fun i hi hdir => ⟨hdot i hi hdir, ?_⟩⟩
    by_cases h1 : i = 1
    · -- the root directory has an entry for itself
      subst h1
      obtain ⟨k, hk, hinum⟩ := finds_iff.1 (hdot 1 hone hc.root)
      exact ⟨1, hdotdot, hc.root, k, List.mem_of_find?_eq_some hk, hinum⟩
    · exact hc.parent i hi h1 hdir

/-! ### Images with nothing but a root directory -/

def onlyRoot (l : List (Nat × List UInt8)) : Image := diskOf (rootAt 59) (dirTail l)

theorem tableOf_onlyRoot (l : List (Nat × List UInt8)) : tableOf (onlyRoot l) = rootAt 59 := tableOf_rootAt (by omega)

theorem rootAt_dir {addr i : Nat} (h : (rootAt addr i).type = T_DIR) : i = 1 := by
  by_contra h1
  rw [rootAt, if_neg h1] at h
  exact absurd h (by decide)

theorem bit_onlyRoot (l : List (Nat × List UInt8)) {b : Nat} (hb : b < 1000) :
    bit (onlyRoot l) (sbOf (onlyRoot l)) b = decide (b < 60) := by
  have hw : WellFormed (onlyRoot l) := wellFormed_diskOf _ _
  have hbyte : (onlyRoot l).byte (58 * 512 + b / 8) = sixtyBits.byte (58 * 512 + b / 8) := by
    show (if _ then (if _ then _ else _) else _) = _
    rw [if_pos (by omega), if_pos (by omega)]
  rw [bit, hw.sb_bmapstart, hbyte, testBit_sixtyBits]

theorem marked_onlyRoot (l : List (Nat × List UInt8)) (b : Nat) :
    marked (onlyRoot l) (sbOf (onlyRoot l)) (rootAt 59) (fun _ => 0) b = if b < 60 then 1 else 0 := by
  have hw : WellFormed (onlyRoot l) := wellFormed_diskOf _ _
  rw [marked, pointers_rootAt (by rw [hw.sb_ninodes]; decide) (by decide), reserved, hw.sb_bmapstart]
  by_cases h59 : b = 59
  · subst h59
    rfl
  · have hcount : [59].count b = 0 := List.count_eq_zero.2 (by simpa using h59)
    rw [hcount]
    by_cases hle : b ≤ 58
    · rw [if_pos hle, if_pos (by omega)]
      rfl
    · rw [if_neg hle, if_neg (by omega)]
      rfl

theorem check_onlyRoot {l : List (Nat × List UInt8)}
    (hwalk : ∀ s ∈ walk (onlyRoot l) (direct (rootAt 59 1)), s = some ⟨1, dot⟩ ∨ s = some ⟨1, dotdot⟩) :
    check ⟨fun _ => 0, fun _ => 0⟩ (onlyRoot l) = .ok () := by
  have hw : WellFormed (onlyRoot l) := wellFormed_diskOf _ _
  have htable := tableOf_onlyRoot l
  have hzero : ∀ i, refs (onlyRoot l) (sbOf (onlyRoot l)) (rootAt 59) i = 0 := by
    intro i
    refine List.countP_eq_zero.2 fun e he hn => ?_
    have hn : Names i e := of_decide_eq_true hn
    obtain ⟨ev, hev, hentry⟩ := List.mem_filterMap.1 he
    rcases mem_events_rootAt hev with ⟨i, rfl⟩ | rfl | ⟨s, hs, rfl⟩
    · cases hentry
    · cases hentry
    · rcases hwalk s hs with rfl | rfl
      · cases hentry
        exact hn.2.1 rfl
      · cases hentry
        exact hn.2.2 rfl
  have hslot : ∀ s ∈ walk (onlyRoot l) (direct (rootAt 59 1)),
      ¬ (Event.slot 1 s).Bad (sbOf (onlyRoot l)) ∧ ¬ (Event.slot 1 s).Rejected (sbOf (onlyRoot l)) := by
    intro s hs
    have hin : ∀ name, InTable (sbOf (onlyRoot l)) ⟨1, name⟩ := by
      intro name
      have hlt : (1 : Int) < (sbOf (onlyRoot l)).ninodes := by
        rw [hw.sb_ninodes]
        decide
      exact ⟨Int.one_nonneg, hlt⟩
    rcases hwalk s hs with rfl | rfl
    · exact ⟨not_not.2 (hin dot), not_not.2 ⟨fun _ => rfl, fun _ _ => rfl⟩⟩
    · exact ⟨not_not.2 (hin dotdot), not_not.2 ⟨fun _ => rfl, fun _ _ => rfl⟩⟩
  refine (check_ok_iff hw ?_).2 ⟨fun e he => ?_, fun i _ => ?_, ?_, fun b hb => ?_⟩
  · rw [htable, pointers_rootAt (by rw [hw.sb_ninodes]; decide) (by decide), hw.sb_size]
    exact fun x hx => by rw [List.mem_singleton.1 hx]; omega
  · rw [htable] at he
    have hrej := rejected_rootAt (by rw [hw.sb_size]; decide) he
    rcases mem_events_rootAt he with ⟨i, rfl⟩ | rfl | ⟨s, hs, rfl⟩
    · refine ⟨id, fun h => ?_⟩
      obtain ⟨s, -, hs⟩ := hrej h
      cases hs
    · refine ⟨id, fun h => ?_⟩
      obtain ⟨s, -, hs⟩ := hrej h
      cases hs
    · exact hslot s hs
  · unfold Referenced
    rw [htable, hzero i]
    by_cases h1 : i = 1
    · subst h1
      exact rfl
    · have h0 : (rootAt 59 i).type = 0 := by rw [rootAt, if_neg h1]; rfl
      rw [if_pos h0]
      exact Int.le_refl 0
  · rw [htable]
    intro x _
    rw [marked_onlyRoot]
    split <;> omega
  · rw [htable, BitOk, bit_onlyRoot l hb, marked_onlyRoot]
    by_cases h60 : b < 60 <;> simp [h60]

/-- A root directory with `.` and `..`. -/
theorem dots_right_iff_dots : check ⟨fun _ => 0, fun _ => 0⟩ (onlyRoot [(1, dot), (1, dotdot)]) = .ok () ∧
    DotsRight (onlyRoot [(1, dot), (1, dotdot)]) := by
  have hok : check ⟨fun _ => 0, fun _ => 0⟩ (onlyRoot [(1, dot), (1, dotdot)]) = .ok () :=
    check_onlyRoot (by decide +kernel)
  have htable := tableOf_onlyRoot [(1, dot), (1, dotdot)]
  have hdot : slotNamed (onlyRoot [(1, dot), (1, dotdot)]) (rootAt 59 1) dot = some 0 := by decide +kernel
  have hdotdot : slotNamed (onlyRoot [(1, dot), (1, dotdot)]) (rootAt 59 1) dotdot = some 1 := by decide +kernel
  have hcounted : countedSlots (onlyRoot [(1, dot), (1, dotdot)]) (rootAt 59 1) = [0, 1] := by decide +kernel
  refine ⟨hok, (dots_right_iff hok).2 ⟨?_, fun i _ hdir => ?_, ⟨1, ?_, .inl ?_⟩, fun i _ h1 hdir => ?_⟩⟩
  · rw [htable]
    rfl
  · rw [htable] at hdir
    obtain rfl := rootAt_dir hdir
    refine ⟨0, ?_, .inl ?_⟩
    · rw [htable, hdot]
    · rw [htable, hcounted]
      simp
  · rw [htable, hdotdot]
  · rw [htable, hcounted]
    simp
  · rw [htable] at hdir
    exact absurd (rootAt_dir hdir) h1

/-- A root directory without any entry is accepted. -/
theorem check_accepts_empty_root : check ⟨fun _ => 0, fun _ => 0⟩ (onlyRoot []) = .ok () ∧ ¬ DotsRight (onlyRoot []) := by
  refine ⟨check_onlyRoot (by decide +kernel), fun h => ?_⟩
  have hnone : slotNamed (onlyRoot []) (rootAt 59 1) dot = none := by decide +kernel
  obtain ⟨k, hk, -⟩ := finds_iff.1 h.rootDot
  rw [tableOf_onlyRoot, hnone] at hk
  cases hk

end Ostep.Fs.Xcheck
