import Ostep.Fs.Range
import Ostep.Fs.KernelSpec

/-!
# Directories as `xcheck` and the kernel scan them

`check_dir` returns at the first free slot and at the first missing direct block, and it does not look at the size of the directory.
The kernel goes through all slots below the size, in direct and indirect blocks, and skips the free ones. `check_dir_counts_iff`
says when the two come to the same slots.
-/

namespace Ostep.Fs.Xcheck

variable {img : Image} {sb : SuperBlock} {d : DInode}

def slotPtr (d : DInode) (k : Nat) : Nat := d.addrs (k / 32) * 512 + 16 * (k % 32)

def slotEntry (img : Image) (d : DInode) (k : Nat) : Entry := entryAt img (slotPtr d k)

def countedSlots (img : Image) (d : DInode) : List Nat :=
  (List.range 384).takeWhile fun k => d.addrs (k / 32) ≠ 0 ∧ (slotEntry img d k).inum ≠ 0

theorem mem_countedSlots {k : Nat} (h : k ∈ countedSlots img d) :
    k < 384 ∧ d.addrs (k / 32) ≠ 0 ∧ (slotEntry img d k).inum ≠ 0 := by
  obtain ⟨n, hn, heq, hused, -⟩ :=
    exists_takeWhile_range (fun k => d.addrs (k / 32) ≠ 0 ∧ (slotEntry img d k).inum ≠ 0) 384
  rw [countedSlots, heq] at h
  have hk := List.mem_range.1 h
  exact ⟨by omega, of_decide_eq_true (hused k hk)⟩

/-- The loops over blocks and slots end at the first missing block, or at the first free slot before it. -/
theorem walk_slots (img : Image) (d : DInode) : ∃ m ≤ 12, ∃ n ≤ 32 * m,
    walk img (direct d) = (List.range n).map (fun k => slotAt img (slotPtr d k)) ∧
      (∀ k < 32 * m, d.addrs (k / 32) ≠ 0) ∧ (m < 12 → d.addrs m = 0) ∧
      (∀ k < n, goesOn (slotAt img (slotPtr d k)) = true) ∧ (n < 32 * m → goesOn (slotAt img (slotPtr d n)) = false) := by
  obtain ⟨m, hm, hblocks, hne, hstop⟩ := exists_takeWhile_range (fun j => d.addrs j ≠ 0) 12
  obtain ⟨n, hn, hslots, hused, hend⟩ := exists_takeWhile_range (fun k => goesOn (slotAt img (slotPtr d k))) (32 * m)
  have hptrs : slotPtrs (direct d) = (List.range (32 * m)).map (slotPtr d) := by
    rw [slotPtrs, direct, List.takeWhile_map]
    show (((List.range 12).takeWhile fun j => decide (d.addrs j ≠ 0)).map d.addrs).flatMap _ = _
    rw [hblocks, List.flatMap_map]
    exact flatMap_range_blocks (fun i j => d.addrs i * 512 + 16 * j) 32 m (by omega)
  refine ⟨m, hm, n, hn, ?_, fun k hk => of_decide_eq_true (hne (k / 32) (by omega)), fun h => ?_, hused, hend⟩
  · rw [walk, hptrs, List.map_map, List.takeWhile_map]
    show ((List.range (32 * m)).takeWhile fun k => goesOn (slotAt img (slotPtr d k))).map _ = _
    rw [hslots]
    rfl
  · simpa using hstop h

theorem walk_direct (hin : none ∉ walk img (direct d)) :
    walk img (direct d) = (countedSlots img d).map fun k => some (slotEntry img d k) := by
  obtain ⟨m, hm, n, hn, hwalk, hne, hstop, hused, hend⟩ := walk_slots img d
  have hslot : ∀ k < n, slotAt img (slotPtr d k) = some (slotEntry img d k) := by
    intro k hk
    cases hs : slotAt img (slotPtr d k) with
    | none =>
      refine absurd ?_ hin
      rw [hwalk]
      exact List.mem_map.2 ⟨k, List.mem_range.2 hk, hs⟩
    | some e => rw [slotAt_some hs]; rfl
  have hcounted : countedSlots img d = List.range n := by
    refine takeWhile_range (by omega) (fun k hk => ?_) fun hlt => ?_
    · have := hused k hk
      rw [hslot k hk] at this
      exact decide_eq_true ⟨hne k (by omega), of_decide_eq_true this⟩
    · refine decide_eq_false fun hboth => ?_
      rcases Nat.lt_or_eq_of_le hn with hlt' | rfl
      · have := hend hlt'
        cases hs : slotAt img (slotPtr d n) with
        | none => rw [hs] at this; cases this
        | some e =>
          rw [hs, slotAt_some hs] at this
          exact of_decide_eq_false this hboth.2
      · -- the scan ends with the blocks
        rw [show 32 * m / 32 = m by omega] at hboth
        exact hboth.1 (hstop (by omega))
  rw [hwalk, hcounted]
  exact List.map_congr_left fun k hk => hslot k (List.mem_range.1 hk)

theorem mem_events_of_counted {inodes : Nat → DInode} {j k : Nat} (hj : j < sb.ninodes) (hdir : (inodes j).type = T_DIR) (hin : none ∉ walk img (direct (inodes j)))
    (hk : k ∈ countedSlots img (inodes j)) : Event.slot j (some (slotEntry img (inodes j) k)) ∈ events img sb inodes := by
  refine List.mem_flatMap.2 ⟨j, List.mem_range.2 hj, List.mem_cons.2 (.inr ?_)⟩
  rw [if_pos hdir, walk_direct hin]
  exact List.mem_map.2 ⟨_, List.mem_map.2 ⟨k, hk, rfl⟩, rfl⟩

theorem none_not_mem_walk_of_slots (hin : ∀ k < 384, (∀ k' < k, d.addrs (k' / 32) ≠ 0 ∧ (slotEntry img d k').inum ≠ 0) →
    d.addrs (k / 32) ≠ 0 → slotPtr d k + 16 ≤ img.len) : none ∉ walk img (direct d) := by
  obtain ⟨m, hm, n, hn, hwalk, hne, -, hused, -⟩ := walk_slots img d
  have hslot : ∀ k < n, slotAt img (slotPtr d k) = some (slotEntry img d k) := by
    intro k
    induction k using Nat.strong_induction_on with
    | _ k ih =>
      intro hk
      have hprev : ∀ k' < k, d.addrs (k' / 32) ≠ 0 ∧ (slotEntry img d k').inum ≠ 0 := by
        intro k' hk'
        have hgo := hused k' (by omega)
        rw [ih k' hk' (by omega)] at hgo
        exact ⟨hne k' (by omega), of_decide_eq_true hgo⟩
      rw [slotAt, readSlot_ok (hin k (by omega) hprev (hne k (by omega)))]
      rfl
  intro hmem
  rw [hwalk] at hmem
  obtain ⟨k, hk, hnone⟩ := List.mem_map.1 hmem
  rw [hslot k (List.mem_range.1 hk)] at hnone
  cases hnone

def DirectIn (img : Image) (d : DInode) : Prop := ∀ j < 12, d.addrs j ≠ 0 → d.addrs j * 512 + 512 ≤ img.len

theorem DirectIn.none_not_mem_walk (hin : DirectIn img d) : none ∉ walk img (direct d) := by
  refine none_not_mem_walk_of_slots fun k hk _ h0 => ?_
  have := hin (k / 32) (by omega) h0
  unfold slotPtr
  omega

theorem checkDir_eq (hin : DirectIn img d) (nodeNum : Nat) (c : Nat → Int) :
    (checkDir img sb d nodeNum c).mapError undef =
      (if nodeNum ≠ 1 then addAt sb.ninodes nodeNum (-1) c else .ok c).mapError undef >>= fun c =>
        (countedSlots img d).foldlM (fun c k =>
          (checkEntry sb nodeNum (slotEntry img d k).inum (slotEntry img d k).name c).mapError undef) c := by
  have hdir : checkDir img sb d nodeNum c = (if nodeNum ≠ 1 then addAt sb.ninodes nodeNum (-1) c else .ok c) >>= fun c =>
      checkBlocks img sb nodeNum (direct d) c := by
    unfold checkDir
    split <;> rfl
  rw [hdir, mapError_bind]
  refine bind_congr fun c => ?_
  rw [checkBlocks_eq, walk_direct hin.none_not_mem_walk, List.foldlM_map]
  congr 1
  funext c k
  exact (checkEntry_eq nodeNum (slotEntry img d k)).symm

/-! ### The slots of the kernel -/

theorem content_direct {k j : Nat} (hk : k < 384) (hj : j < 16) : Kernel.content img d (16 * k + j) =
    if d.addrs (k / 32) = 0 then 0 else img.byte (slotPtr d k + j) := by
  have hblock : Kernel.blockAt img d (k / 32) = d.addrs (k / 32) := if_pos (show k / 32 < 12 by omega)
  have hdiv : (16 * k + j) / 512 = k / 32 := by omega
  have hmod : (16 * k + j) % 512 = 16 * (k % 32) + j := by omega
  unfold Kernel.content BSIZE slotPtr
  rw [hdiv, hmod, hblock, Nat.add_assoc]

theorem toInt16_eq_zero_iff {n : Nat} (hn : n < 2 ^ 16) : toInt16 n = 0 ↔ n = 0 := by
  unfold toInt16
  split <;> omega

theorem slotOf_inum_ne_zero_iff {k : Nat} (hk : k < 384) :
    (Kernel.slotOf img d k).inum ≠ 0 ↔ d.addrs (k / 32) ≠ 0 ∧ (slotEntry img d k).inum ≠ 0 := by
  have hinum : (Kernel.slotOf img d k).inum =
      (Kernel.content img d (16 * k + 0)).toNat + 2 ^ 8 * (Kernel.content img d (16 * k + 1)).toNat := by
    unfold Kernel.slotOf Kernel.direntOf
    rw [Kernel.bytesFrom_getD _ _ (by omega), Kernel.bytesFrom_getD _ _ (by omega)]
  rw [hinum, content_direct hk (by omega), content_direct hk (by omega)]
  by_cases h0 : d.addrs (k / 32) = 0
  · simp [h0]
  · have h1 := (img.byte (slotPtr d k)).toNat_lt
    have h2 := (img.byte (slotPtr d k + 1)).toNat_lt
    rw [if_neg h0, if_neg h0, Nat.add_zero]
    show _ ↔ _ ∧ shortAt img (slotPtr d k) ≠ 0
    rw [shortAt, or_shiftLeft_8, Ne, Ne, Ne, toInt16_eq_zero_iff (by omega)]
    exact ⟨fun h => ⟨h0, h⟩, fun h => h.2⟩

theorem countedSlots_eq (img : Image) (d : DInode) :
    countedSlots img d = (List.range 384).takeWhile fun k => (Kernel.slotOf img d k).inum ≠ 0 := by
  obtain ⟨n, hn, heq, hused, hstop⟩ := exists_takeWhile_range (fun k => (Kernel.slotOf img d k).inum ≠ 0) 384
  rw [heq]
  refine takeWhile_range hn (fun k hk => ?_) fun hlt => ?_
  · exact decide_eq_true ((slotOf_inum_ne_zero_iff (by omega)).1 (of_decide_eq_true (hused k hk)))
  · exact decide_eq_false fun h => of_decide_eq_false (hstop hlt) ((slotOf_inum_ne_zero_iff hlt).2 h)

/-! ### Both scans -/

/-- A directory on a disk that the kernel can use. -/
structure Directory (sb : SuperBlock) (img : Image) (d : DInode) : Prop where
  disk : sb.size * 512 ≤ img.len
  sound : Kernel.Sound sb img d
  type : d.type = T_DIR
  size_le : d.size ≤ MAXFILE * BSIZE
  whole : d.size % 16 = 0

theorem Directory.directIn (h : Directory sb img d) : DirectIn img d := by
  intro j hj h0
  have hblock : Kernel.blockAt img d j = d.addrs j := if_pos hj
  have hdata := h.sound.block j (by unfold MAXFILE NDIRECT; omega) (by rw [hblock]; exact h0)
  have hlt := hdata.lt
  rw [hblock] at hlt
  calc d.addrs j * 512 + 512 = (d.addrs j + 1) * 512 := (Nat.succ_mul _ _).symm
    _ ≤ sb.size * 512 := Nat.mul_le_mul_right _ hlt
    _ ≤ img.len := h.disk

/-- The used slots below the size are the first `n` slots, all of them in direct blocks, and the scan of `xcheck` stops there. -/
structure Packed (img : Image) (d : DInode) (n : Nat) : Prop where
  direct : n ≤ 384
  below : n ≤ d.size / 16
  used : ∀ k < n, (Kernel.slotOf img d k).inum ≠ 0
  free : ∀ k, n ≤ k → k < d.size / 16 → (Kernel.slotOf img d k).inum = 0
  stop : n < 384 → (Kernel.slotOf img d n).inum = 0

theorem countedSlots_eq_seen_iff (img : Image) (d : DInode) : countedSlots img d = Kernel.seen img d ↔ ∃ n, Packed img d n := by
  rw [countedSlots_eq, Kernel.seen, takeWhile_eq_filter_iff]
  simp only [decide_eq_true_eq, decide_eq_false_iff_not, not_not]
  constructor
  · rintro ⟨n, hdirect, hbelow, hused, hfree, hstop⟩
    exact ⟨n, hdirect, hbelow, hused, hfree, hstop⟩
  · rintro ⟨n, hdirect, hbelow, hused, hfree, hstop⟩
    exact ⟨n, hdirect, hbelow, hused, hfree, hstop⟩

/-- The slots that `check_dir` counts are those that `dirlookup` looks at exactly when the directory is packed. -/
theorem check_dir_counts_iff (h : Directory sb img d) :
    (∀ (nodeNum : Nat) (c : Nat → Int), (checkDir img sb d nodeNum c).mapError undef =
      (if nodeNum ≠ 1 then addAt sb.ninodes nodeNum (-1) c else .ok c).mapError undef >>= fun c =>
        (countedSlots img d).foldlM (fun c k =>
          (checkEntry sb nodeNum (slotEntry img d k).inum (slotEntry img d k).name c).mapError undef) c) ∧
    (∀ name : List UInt8,
      (Kernel.dirlookup sb d img name = .error .outOfBlocks ∧ ∃ bn, bn * BSIZE < d.size ∧ Kernel.blockAt img d bn = 0) ∨
        ∃ d' img', Kernel.dirlookup sb d img name = .ok (Kernel.lookupIn img d name (Kernel.seen img d), d', img') ∧
          Kernel.Same sb img d img' d') ∧
    (countedSlots img d = Kernel.seen img d ↔ ∃ n, Packed img d n) :=
  ⟨checkDir_eq h.directIn, Kernel.dirlookup_spec h.sound h.type h.size_le h.whole, countedSlots_eq_seen_iff img d⟩

/-! ### A disk with one directory block -/

def slotBytes (e : Nat × List UInt8) (j : Nat) : UInt8 := if j < 2 then byteOf e.1 j else e.2.getD (j - 2) 0

/-- A free map with the bits of the first 60 blocks, the given slots in block 59, and zeros behind it. -/
def dirTail (l : List (Nat × List UInt8)) (p : Nat) : UInt8 :=
  if p < 59 * 512 then sixtyBits.byte p
  else if p < 60 * 512 then slotBytes (l.getD ((p - 59 * 512) / 16) (0, [])) (p % 16)
  else 0

section
variable {inodes : Nat → DInode} {l : List (Nat × List UInt8)}

theorem inUse_dirTail {b : Nat} (hb : b < 60) : Kernel.inUse mkfsSuper (diskOf inodes (dirTail l)) b = true := by
  have hbits : ∀ b < 60, Kernel.inUse mkfsSuper sixtyBits b = true := by decide +kernel
  have hmap : Kernel.mapByte mkfsSuper b = 58 * 512 + b / 8 := by
    show (b / 4096 + 58) * 512 + b % 4096 / 8 = _
    omega
  have hbyte : (diskOf inodes (dirTail l)).byte (Kernel.mapByte mkfsSuper b) = sixtyBits.byte (Kernel.mapByte mkfsSuper b) := by
    rw [hmap]
    show (if _ then (if _ then _ else _) else _) = _
    rw [if_pos (by omega), if_pos (by omega)]
  rw [← hbits b hb, Kernel.inUse, hbyte]
  rfl

theorem directory_dirTail : Directory mkfsSuper (diskOf inodes (dirTail l)) (rootAt 59 1) := by
  have hlast : Kernel.lastMap mkfsSuper = 58 := by decide
  have hblock : ∀ bn, Kernel.blockAt (diskOf inodes (dirTail l)) (rootAt 59 1) bn = if bn = 0 then 59 else 0 := by
    intro bn
    unfold Kernel.blockAt
    split
    · rfl
    · next h => exact (if_pos rfl).trans (if_neg (by unfold NDIRECT at h; omega)).symm
  have hdata : Kernel.InData mkfsSuper (diskOf inodes (dirTail l)) 59 := ⟨by decide, by rw [hlast]; omega, inUse_dirTail (by omega)⟩
  refine ⟨Nat.le_refl _, ⟨by decide, fun b hb _ => inUse_dirTail (by omega), fun bn _ h => ?_, fun h => absurd rfl h,
    fun bn _ h => h⟩, rfl, by decide, by decide⟩
  rw [hblock] at h ⊢
  split at h
  · next h0 => rwa [if_pos h0]
  · exact absurd rfl h

end

/-- A directory with `.` and `..`. -/
theorem check_dir_counts_iff_dots :
    countedSlots (diskOf (rootAt 59) (dirTail [(1, dot), (1, dotdot)])) (rootAt 59 1) =
      Kernel.seen (diskOf (rootAt 59) (dirTail [(1, dot), (1, dotdot)])) (rootAt 59 1) := by
  refine (check_dir_counts_iff directory_dirTail).2.2.2 ⟨2, by decide, by decide, ?_, ?_, ?_⟩
  · decide +kernel
  · have : ∀ k < 32, 2 ≤ k → (Kernel.slotOf (diskOf (rootAt 59) (dirTail [(1, dot), (1, dotdot)])) (rootAt 59 1) k).inum = 0 := by
      decide +kernel
    exact fun k hk hlt => this k hlt hk
  · decide +kernel

/-- An entry behind a free slot is seen by the kernel only. -/
theorem check_dir_misses_entry :
    Directory mkfsSuper (diskOf (rootAt 59) (dirTail [(1, dot), (0, []), (2, [97])])) (rootAt 59 1) ∧
      countedSlots (diskOf (rootAt 59) (dirTail [(1, dot), (0, []), (2, [97])])) (rootAt 59 1) = [0] ∧
      Kernel.seen (diskOf (rootAt 59) (dirTail [(1, dot), (0, []), (2, [97])])) (rootAt 59 1) = [0, 2] :=
  ⟨directory_dirTail, by decide +kernel, by decide +kernel⟩

end Ostep.Fs.Xcheck
