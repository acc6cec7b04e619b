import Ostep.Fs.RefCount

/-!
# The counters of all inodes

One counter per inode is set when the inode is decoded, goes down when the scan comes to the inode and up with every name in a
directory. For packed directories `check_inodes` returns exactly when every inode in use has one name, the root directory and the
free inodes none, as long as `check_dir` gets the inode numbers right (`checkInodes_tells_iff`): it reads them as `short`s.
-/

namespace Ostep.Fs.Xcheck

variable {img : Image} {sb : SuperBlock} {d : DInode} {inodes : Nat → DInode} {m : Malloc}

/-! ### Packed directories -/

/-- Slot `k` of the direct blocks is in use. Those of a missing block are not. -/
def Used (img : Image) (d : DInode) (k : Nat) : Prop := (Kernel.slotOf img d k).inum ≠ 0

instance (k : Nat) : Decidable (Used img d k) := inferInstanceAs (Decidable (_ ≠ _))

def usedSlots (img : Image) (d : DInode) : List Nat := (List.range 384).filter fun k => Used img d k

theorem mem_usedSlots {k : Nat} : k ∈ usedSlots img d ↔ k < 384 ∧ Used img d k := by
  simp [usedSlots]

theorem slotEntry_of_used {k : Nat} (hk : k ∈ usedSlots img d) :
    slotEntry img d k = ⟨toInt16 (Kernel.slotOf img d k).inum, (Kernel.slotOf img d k).name⟩ := by
  obtain ⟨hk384, hused⟩ := mem_usedSlots.1 hk
  exact slotOf_direct hk384 ((slotOf_inum_ne_zero_iff hk384).1 hused).1

/-- A packed directory in direct blocks of the image, with numbers of the table and with `.` and `..` as they should be. -/
structure PlainDir (img : Image) (sb : SuperBlock) (nodeNum : Nat) (d : DInode) : Prop where
  packed : ∀ k < 384, Used img d k → ∀ k' < k, Used img d k'
  /-- The slots up to the first free one lie in the image. -/
  inside : ∀ k < 384, (∀ k' < k, Used img d k') → d.addrs (k / 32) ≠ 0 → slotPtr d k + 16 ≤ img.len
  inum_lt : ∀ k ∈ usedSlots img d, (Kernel.slotOf img d k).inum < sb.ninodes
  dot : ∀ k ∈ usedSlots img d, (Kernel.slotOf img d k).name = dot → (Kernel.slotOf img d k).inum = nodeNum
  dotdot : ∀ k ∈ usedSlots img d, (Kernel.slotOf img d k).name = dotdot → nodeNum = 1 → (Kernel.slotOf img d k).inum = 1

namespace PlainDir

variable {nodeNum : Nat} (h : PlainDir img sb nodeNum d)
include h

theorem countedSlots_eq : countedSlots img d = usedSlots img d := by
  rw [Xcheck.countedSlots_eq, usedSlots]
  obtain ⟨n, hn, -, hused, hstop⟩ := exists_takeWhile_range (fun k => (Kernel.slotOf img d k).inum ≠ 0) 384
  refine (takeWhile_eq_filter_iff _ _ _).2 ⟨n, hn, hn, hused, fun k hnk hk => decide_eq_false fun hu => ?_, hstop⟩
  -- a used slot behind the first free one
  have hfree := of_decide_eq_false (hstop (by omega))
  rcases Nat.lt_or_eq_of_le hnk with hlt | rfl
  · exact hfree (h.packed k hk hu n hlt)
  · exact hfree hu

theorem none_not_mem_walk : none ∉ walk img (direct d) := by
  refine none_not_mem_walk_of_slots fun k hk hprev h0 => h.inside k hk (fun k' hk' => ?_) h0
  exact (slotOf_inum_ne_zero_iff (by omega)).2 (hprev k' hk')

theorem inTable_iff {k : Nat} (hk : k ∈ usedSlots img d) :
    InTable sb (slotEntry img d k) ↔ (Kernel.slotOf img d k).inum < 2 ^ 15 := by
  have hlt := h.inum_lt k hk
  have hshort := slotOf_inum_lt img d k
  rw [slotEntry_of_used hk]
  show 0 ≤ toInt16 _ ∧ toInt16 _ < _ ↔ _
  unfold toInt16
  split <;> omega

theorem dotOk {k : Nat} (hk : k ∈ usedSlots img d) (hlt : (Kernel.slotOf img d k).inum < 2 ^ 15) :
    DotOk nodeNum (slotEntry img d k) := by
  have hnum : toInt16 (Kernel.slotOf img d k).inum = ((Kernel.slotOf img d k).inum : Int) := by
    unfold toInt16
    rw [Nat.mod_eq_of_lt (by omega), if_pos hlt]
  rw [slotEntry_of_used hk, hnum]
  refine ⟨fun hname => ?_, fun hname hroot => ?_⟩
  · rw [h.dot k hk hname]
  · rw [h.dotdot k hk hname hroot, hroot]

end PlainDir

/-! ### The scan -/

/-- The table passes all tests before those of the counters. -/
structure PlainTable (img : Image) (sb : SuperBlock) (inodes : Nat → DInode) : Prop where
  root : (inodes 1).type = T_DIR
  type : ∀ i < sb.ninodes, TypeOk (inodes i)
  addrs : ∀ i < sb.ninodes, AddrsOk sb (inodes i)
  dirs : ∀ j < sb.ninodes, (inodes j).type = T_DIR → PlainDir img sb j (inodes j)

/-- All inode numbers in directories are `short`s. -/
def ShortInums (img : Image) (sb : SuperBlock) (inodes : Nat → DInode) : Prop :=
  ∀ j < sb.ninodes, (inodes j).type = T_DIR → ∀ k ∈ usedSlots img (inodes j), (Kernel.slotOf img (inodes j) k).inum < 2 ^ 15

namespace PlainTable

variable (h : PlainTable img sb inodes)
include h

theorem mem_events {e : Event} : e ∈ events img sb inodes ↔ ∃ j < sb.ninodes, e = .inode j (inodes j) ∨
    (inodes j).type = T_DIR ∧ ∃ k ∈ usedSlots img (inodes j), e = .slot j (some (slotEntry img (inodes j) k)) := by
  rw [events, List.mem_flatMap]
  refine exists_congr fun j => ?_
  rw [List.mem_range, inodeEvents, List.mem_cons]
  refine and_congr_right fun hj => or_congr_right ?_
  by_cases hdir : (inodes j).type = T_DIR
  · have hd := h.dirs j hj hdir
    rw [if_pos hdir, walk_direct hd.none_not_mem_walk, hd.countedSlots_eq, List.map_map, List.mem_map]
    simp [hdir, eq_comm]
  · simp [hdir]

theorem not_rejected {e : Event} (he : e ∈ events img sb inodes) (hbad : ¬ e.Bad sb) : ¬ e.Rejected sb := by
  obtain ⟨j, hj, rfl | ⟨hdir, k, hk, rfl⟩⟩ := h.mem_events.1 he
  · exact not_not.2 ⟨h.type j hj, h.addrs j hj⟩
  · have hd := h.dirs j hj hdir
    exact not_not.2 (hd.dotOk hk ((hd.inTable_iff hk).1 (not_not.1 hbad)))

theorem exists_bad_iff : (∃ e ∈ events img sb inodes, e.Bad sb) ↔ ¬ ShortInums img sb inodes := by
  constructor
  · rintro ⟨e, he, hbad⟩ hshort
    obtain ⟨j, hj, rfl | ⟨hdir, k, hk, rfl⟩⟩ := h.mem_events.1 he
    · exact hbad
    · exact hbad (((h.dirs j hj hdir).inTable_iff hk).2 (hshort j hj hdir k hk))
  · intro hlong
    unfold ShortInums at hlong
    push Not at hlong
    obtain ⟨j, hj, hdir, k, hk, hge⟩ := hlong
    refine ⟨_, h.mem_events.2 ⟨j, hj, .inr ⟨hdir, k, hk, rfl⟩⟩, fun hin => ?_⟩
    have := ((h.dirs j hj hdir).inTable_iff hk).1 hin
    omega

end PlainTable

/-! ### The counters -/

/-- How many entries name inode `i`, `.` and `..` apart. -/
def names (img : Image) (sb : SuperBlock) (inodes : Nat → DInode) (i : Nat) : Nat := namesIn img sb inodes (usedSlots img) i

structure NamedOnce (img : Image) (sb : SuperBlock) (inodes : Nat → DInode) : Prop where
  inUse : ∀ i < sb.ninodes, i ≠ 1 → (inodes i).type ≠ 0 → names img sb inodes i = 1
  root : names img sb inodes 1 = 0
  free : ∀ i < sb.ninodes, (inodes i).type = 0 → names img sb inodes i = 0

theorem refs_eq_names (h : PlainTable img sb inodes) (hshort : ShortInums img sb inodes) (i : Nat) :
    refs img sb inodes i = names img sb inodes i :=
  refs_eq_namesIn (fun j hj hdir => (h.dirs j hj hdir).none_not_mem_walk) (fun j hj hdir => (h.dirs j hj hdir).countedSlots_eq)
    (fun e he hbad => h.exists_bad_iff.1 ⟨e, he, hbad⟩ hshort) i

/-- `check_inodes` stays in range and returns exactly when every inode has the names it should have. -/
def Tells (img : Image) (sb : SuperBlock) (t : Table) : Prop :=
  checkInodes img sb t ≠ .error .undefined ∧ (checkInodes img sb t = .ok () ↔ NamedOnce img sb t.inodes)

theorem checkInodes_undefined {t : Table} (h : PlainTable img sb t.inodes) (hlong : ¬ ShortInums img sb t.inodes) :
    checkInodes img sb t = .error .undefined := by
  have hguard := not_guarded (fun e he hbad => h.not_rejected he hbad) (h.exists_bad_iff.2 hlong)
  have hrun := not_not.1 (mt (foldlM_guarded_iff (evStep_classifies sb) (s := t.inuseInode)).1 hguard)
  refine not_not.1 (mt undefined_iff.1 fun hne => hne ?_)
  rw [checkInodes_eq, hrun]
  rfl

theorem namedOnce_iff (hroot : (inodes 1).type = T_DIR) (hone : 1 < sb.ninodes) : NamedOnce img sb inodes ↔ ∀ i < sb.ninodes,
    if (inodes i).type = 0 then names img sb inodes i = 0
    else names img sb inodes i = if (inodes i).type = T_DIR ∧ i = 1 then 0 else 1 := by
  have hdir : ¬ T_DIR = 0 := by decide
  constructor
  · rintro ⟨hinUse, hr, hfree⟩ i hi
    by_cases h0 : (inodes i).type = 0
    · rw [if_pos h0]
      exact hfree i hi h0
    · rw [if_neg h0]
      by_cases h1 : i = 1
      · rw [if_pos ⟨h1 ▸ hroot, h1⟩, h1, hr]
      · rw [if_neg fun h => h1 h.2, hinUse i hi h1 h0]
  · intro h
    refine ⟨fun i hi h1 h0 => ?_, ?_, fun i hi h0 => ?_⟩
    · have := h i hi
      rwa [if_neg h0, if_neg fun h => h1 h.2] at this
    · have := h 1 hone
      rwa [hroot, if_neg hdir, if_pos ⟨rfl, rfl⟩] at this
    · have := h i hi
      rwa [if_pos h0] at this

/-- With `inuse_inode` zeroed and plain directories, `check_inodes` tells whether all inodes have the names they should have
exactly when all numbers in the directories are `short`s. -/
theorem checkInodes_tells_iff {t : Table} (ht : constructInodes img sb m = .ok t) (hzero : ∀ i, m.inuseInode i = 0)
    (h : PlainTable img sb t.inodes) : Tells img sb t ↔ ShortInums img sb t.inodes := by
  refine ⟨fun htells => ?_, fun hshort => ?_⟩
  · by_contra hlong
    exact htells.1 (checkInodes_undefined h hlong)
  obtain rfl := constructInodes_eq ht
  dsimp only at h hshort
  have hone : 1 < sb.ninodes := by
    by_contra hge
    have hroot := h.root
    rw [inodesAt, if_neg hge] at hroot
    exact absurd hroot (by decide)
  have hall : ∀ e ∈ events img sb (inodesAt img sb), ¬ e.Bad sb ∧ ¬ e.Rejected sb := by
    intro e he
    have hbad : ¬ e.Bad sb := fun hbad => h.exists_bad_iff.1 ⟨e, he, hbad⟩ hshort
    exact ⟨hbad, h.not_rejected he hbad⟩
  obtain ⟨c, hc⟩ := (foldlM_ok_iff (evStep_classifies sb) (s := inuseAt img sb m)).2 hall
  have hcount : (∀ i < sb.ninodes, CountOk (inodesAt img sb i) (c i)) ↔ NamedOnce img sb (inodesAt img sb) := by
    rw [namedOnce_iff h.root hone]
    refine forall₂_congr fun i hi => ?_
    rw [countOk_iff hi hc, hzero i, refs_eq_names h hshort i]
    split <;> omega
  have hrun : (checkInodes img sb ⟨inodesAt img sb, inuseAt img sb m⟩).mapError undef = _ := checkInodes_eq _
  dsimp only at hrun
  rw [hc, ok_bind] at hrun
  rw [Tells, undefined_iff, ← mapError_eq_ok undef, hrun, ← hcount]
  split
  · next hok => exact ⟨by rintro ⟨⟩, iff_of_true rfl hok⟩
  · next hno => exact ⟨by rintro ⟨⟩, iff_of_false (by rintro ⟨⟩) hno⟩

/-! ### A disk with many inodes -/

def wideSuper : SuperBlock where
  size := 6000
  nblocks := 966
  ninodes := 40000
  nlog := 30
  logstart := 2
  inodestart := 32
  bmapstart := 5033

def wideInodes (n i : Nat) : DInode := if i = n then ⟨T_FILE, 0, 0, 1, 0, fun _ => 0⟩ else rootAt 5500 i

def wideImage (n : Nat) : Image where
  len := 6000 * 512
  byte := fun p =>
    if 5033 * 512 ≤ p then
      if 5500 * 512 ≤ p ∧ p < 5501 * 512 then
        slotBytes ([(1, dot), (1, dotdot), (n, [97])].getD ((p - 5500 * 512) / 16) (0, [])) (p % 16)
      else 0
    else (layOut wideSuper (wideInodes n)).byte p

section
variable {n : Nat}

theorem wideInodes_dir {i : Nat} (hdir : (wideInodes n i).type = T_DIR) : i = 1 := by
  unfold wideInodes rootAt at hdir
  by_contra h1
  by_cases hn : i = n
  · rw [if_pos hn] at hdir
    exact absurd hdir (by decide : ¬ T_FILE = T_DIR)
  · rw [if_neg hn, if_neg h1] at hdir
    exact absurd hdir (by decide)

theorem wideInodes_plain (i : Nat) : DInode.Plain (wideInodes n i) := by
  unfold wideInodes
  split
  · exact DInode.plain_mk (by decide) (by decide) (by decide) (fun _ => by omega) fun _ _ => rfl
  · exact rootAt_plain (by omega) i

theorem constructInodes_wide (hn : n < 40000) (m : Malloc) : constructInodes (wideImage n) wideSuper m =
    .ok ⟨wideInodes n, inuseAt (wideImage n) wideSuper m⟩ := by
  have hptr : ∀ i, inodePtr wideSuper i = 32 * 512 + i * 64 := fun i => rfl
  have hlaid := laid_layOut (wideInodes n) (by decide : 2 ≤ wideSuper.inodestart ∧ _) (by decide)
  have htable : inodesAt (wideImage n) wideSuper = wideInodes n := by
    funext i
    rw [inodesAt, show wideSuper.ninodes = 40000 from rfl]
    by_cases hi : i < 40000
    · rw [if_pos hi, hptr]
      refine dinodeAt_eq (wideInodes_plain i) fun k hk => ?_
      have hwptr : winodePtr wideSuper i = 32 * 512 + i * 64 := by
        show (i / 8 + 32) % 2 ^ 32 * 512 % 2 ^ 32 + i % 8 * 64 = _
        omega
      have hbyte := hlaid.inode i hi k hk
      rw [hwptr] at hbyte
      exact (if_neg (by omega)).trans hbyte
    · rw [if_neg hi, wideInodes, if_neg (by omega), rootAt, if_neg (by omega)]
  rw [constructInodes_ok fun i hi => ?_, htable]
  have hi : i < 40000 := hi
  rw [hptr]
  show _ ≤ 6000 * 512
  omega

def wideSlots (n k : Nat) : Kernel.Dirent := [⟨1, dot⟩, ⟨1, dotdot⟩, ⟨n, [97]⟩].getD k ⟨0, []⟩

theorem plainTable_wide (hn : 1 < n ∧ n < 40000)
    (hslots : ∀ k < 384, Kernel.slotOf (wideImage n) (rootAt 5500 1) k = wideSlots n k) :
    PlainTable (wideImage n) wideSuper (wideInodes n) := by
  have hroot : wideInodes n 1 = rootAt 5500 1 := if_neg (by omega)
  have hused : ∀ k ∈ usedSlots (wideImage n) (rootAt 5500 1), k < 3 ∧ Kernel.slotOf (wideImage n) (rootAt 5500 1) k = wideSlots n k := by
    intro k hk
    obtain ⟨hk384, hu⟩ := mem_usedSlots.1 hk
    refine ⟨?_, hslots k hk384⟩
    by_contra hge
    rw [Used, hslots k hk384, wideSlots, List.getD_eq_default _ _ (by simpa using hge)] at hu
    exact hu rfl
  refine ⟨by rw [hroot]; rfl, fun i _ => ?_, fun i _ j hj => ?_, fun j _ hdir => ?_⟩
  · unfold wideInodes rootAt TypeOk
    split
    · simp
    · split <;> simp [DInode.zero]
  · show _ ≤ 6000
    unfold wideInodes rootAt
    split
    · exact Nat.zero_le _
    · split
      · show (if _ then _ else _) ≤ _
        split <;> omega
      · exact Nat.zero_le _
  obtain rfl := wideInodes_dir hdir
  rw [hroot]
  refine ⟨fun k hk hu k' hk' => ?_, fun k hk _ _ => ?_, fun k hk => ?_, fun k hk hname => ?_, fun k hk hname _ => ?_⟩
  · have hlt := (hused k (mem_usedSlots.2 ⟨hk, hu⟩)).1
    rw [Used, hslots k' (by omega)]
    obtain rfl | rfl : k' = 0 ∨ k' = 1 := by omega
    · exact Nat.one_ne_zero
    · exact Nat.one_ne_zero
  · show (if k / 32 = 0 then 5500 else 0) * 512 + 16 * (k % 32) + 16 ≤ 6000 * 512
    split <;> omega
  · obtain ⟨hlt, heq⟩ := hused k hk
    rw [heq]
    obtain rfl | rfl | rfl : k = 0 ∨ k = 1 ∨ k = 2 := by omega
    · exact (by decide : 1 < 40000)
    · exact (by decide : 1 < 40000)
    · exact hn.2
  · obtain ⟨hlt, heq⟩ := hused k hk
    rw [heq] at hname ⊢
    obtain rfl | rfl | rfl : k = 0 ∨ k = 1 ∨ k = 2 := by omega
    · rfl
    · rfl
    · exact absurd hname (by decide : ¬ [97] = dot)
  · obtain ⟨hlt, heq⟩ := hused k hk
    rw [heq] at hname ⊢
    obtain rfl | rfl | rfl : k = 0 ∨ k = 1 ∨ k = 2 := by omega
    · rfl
    · rfl
    · exact absurd hname (by decide : ¬ [97] = dotdot)

end

theorem checkInodes_tells_wide : Tells (wideImage 2) wideSuper ⟨wideInodes 2, inuseAt (wideImage 2) wideSuper ⟨fun _ => 0, fun _ => 0⟩⟩ := by
  have hslots : ∀ k < 384, Kernel.slotOf (wideImage 2) (rootAt 5500 1) k = wideSlots 2 k := by decide +kernel
  refine (checkInodes_tells_iff (constructInodes_wide (by omega) _) (fun _ => rfl) (plainTable_wide (by omega) hslots)).2 ?_
  intro j _ hdir k hk
  obtain rfl := wideInodes_dir hdir
  have hlt : ∀ k < 384, (wideSlots 2 k).inum < 2 ^ 15 := by decide +kernel
  have hk384 := (mem_usedSlots.1 hk).1
  exact (congrArg Kernel.Dirent.inum (hslots k hk384)).trans_lt (hlt k hk384)

/-- The number 32768 is taken for -32768. -/
theorem checkInodes_wide_undefined :
    constructInodes (wideImage 32768) wideSuper ⟨fun _ => 0, fun _ => 0⟩ =
        .ok ⟨wideInodes 32768, inuseAt (wideImage 32768) wideSuper ⟨fun _ => 0, fun _ => 0⟩⟩ ∧
      PlainTable (wideImage 32768) wideSuper (wideInodes 32768) ∧
      checkInodes (wideImage 32768) wideSuper ⟨wideInodes 32768, inuseAt (wideImage 32768) wideSuper ⟨fun _ => 0, fun _ => 0⟩⟩ =
        .error .undefined := by
  have hslots : ∀ k < 384, Kernel.slotOf (wideImage 32768) (rootAt 5500 1) k = wideSlots 32768 k := by decide +kernel
  have hplain := plainTable_wide (n := 32768) (by omega) hslots
  refine ⟨constructInodes_wide (by omega) _, hplain, checkInodes_undefined hplain fun hshort => ?_⟩
  have htwo := hslots 2 (by omega)
  have hused : Used (wideImage 32768) (rootAt 5500 1) 2 := by
    rw [Used, htwo]
    decide
  have hlt := hshort 1 (by decide) rfl 2 (mem_usedSlots.2 ⟨by omega, hused⟩)
  have hlt : (Kernel.slotOf (wideImage 32768) (rootAt 5500 1) 2).inum < 2 ^ 15 := hlt
  rw [htwo] at hlt
  exact absurd hlt (by decide)

end Ostep.Fs.Xcheck
