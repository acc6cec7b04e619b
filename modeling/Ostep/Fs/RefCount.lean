import Ostep.Fs.DirScan

/-!
# The reference counts of files

For packed directories the counter that `check_inodes` has for a file in the end is the number of directory entries that name it
(`scanned_file`). It is compared with 1, not with `nlink`.
-/

namespace Ostep.Fs.Xcheck

variable {img : Image} {sb : SuperBlock} {d : DInode} {inodes : Nat → DInode} {m : Malloc}

/-! ### Slots in both decodings -/

theorem nameAt_eq (ptr n : Nat) : nameAt img ptr n = (Kernel.bytesFrom img.byte ptr n).takeWhile fun c => c ≠ 0 := by
  induction n generalizing ptr with
  | zero => rfl
  | succ n ih =>
    have hcons : Kernel.bytesFrom img.byte ptr (n + 1) = img.byte ptr :: Kernel.bytesFrom img.byte (ptr + 1) n := by
      unfold Kernel.bytesFrom
      rw [List.range_succ_eq_map, List.map_cons, List.map_map]
      refine congrArg _ (List.map_congr_left fun k _ => ?_)
      show img.byte (ptr + (k + 1)) = img.byte (ptr + 1 + k)
      rw [Nat.add_right_comm, Nat.add_assoc]
    rw [nameAt, hcons, List.takeWhile_cons, ih]
    by_cases h0 : img.byte ptr = 0
    · simp [h0]
    · simp [h0]

theorem slotOf_direct {k : Nat} (hk : k < 384) (h0 : d.addrs (k / 32) ≠ 0) :
    slotEntry img d k = ⟨toInt16 (Kernel.slotOf img d k).inum, (Kernel.slotOf img d k).name⟩ := by
  have hbytes : Kernel.bytesFrom (Kernel.content img d) (16 * k) 16 = Kernel.bytesFrom img.byte (slotPtr d k) 16 :=
    Kernel.bytesFrom_congr fun j hj => by rw [content_direct hk hj, if_neg h0]
  -- the bytes of the name are those behind the first two
  have hname : ((Kernel.bytesFrom img.byte (slotPtr d k) 16).drop 2).take DIRSIZ = Kernel.bytesFrom img.byte (slotPtr d k + 2) 14 := by
    rw [← Kernel.bytesFrom_append _ _ 2 14, List.drop_left' (by simp [Kernel.bytesFrom])]
    exact List.take_of_length_le (by simp [Kernel.bytesFrom, DIRSIZ])
  unfold Kernel.slotOf slotEntry entryAt Kernel.direntOf
  rw [hbytes, hname, nameAt_eq, shortAt, or_shiftLeft_8, Kernel.bytesFrom_getD _ _ (by omega), Kernel.bytesFrom_getD _ _ (by omega)]
  simp only [Nat.add_zero, Nat.reducePow]

theorem slotOf_inum_lt (img : Image) (d : DInode) (k : Nat) : (Kernel.slotOf img d k).inum < 2 ^ 16 := by
  have h1 := ((Kernel.bytesFrom (Kernel.content img d) (16 * k) 16).getD 0 0).toNat_lt
  have h2 := ((Kernel.bytesFrom (Kernel.content img d) (16 * k) 16).getD 1 0).toNat_lt
  unfold Kernel.slotOf Kernel.direntOf
  show _ + _ < _
  omega

/-! ### Entries -/

def entries (img : Image) (sb : SuperBlock) (inodes : Nat → DInode) : List Kernel.Dirent :=
  (List.range sb.ninodes).flatMap fun j =>
    if (inodes j).type = T_DIR then (Kernel.seen img (inodes j)).map (Kernel.slotOf img (inodes j)) else []

/-- How many entries name inode `i`, `.` and `..` apart. -/
def links (img : Image) (sb : SuperBlock) (inodes : Nat → DInode) (i : Nat) : Nat :=
  (entries img sb inodes).countP fun e => e.inum = i ∧ e.name ≠ dot ∧ e.name ≠ dotdot

/-- All directories are packed, in direct blocks. -/
structure PackedDirs (img : Image) (sb : SuperBlock) (inodes : Nat → DInode) : Prop where
  inside : ∀ j < sb.ninodes, (inodes j).type = T_DIR → DirectIn img (inodes j)
  packed : ∀ j < sb.ninodes, (inodes j).type = T_DIR → ∃ n, Packed img (inodes j) n

theorem counted_eq (h : ∀ j < sb.ninodes, (inodes j).type = T_DIR → none ∉ walk img (direct (inodes j))) : counted img sb inodes =
    (List.range sb.ninodes).flatMap fun j =>
      if (inodes j).type = T_DIR then (countedSlots img (inodes j)).map (slotEntry img (inodes j)) else [] := by
  rw [counted, events, List.filterMap_flatMap]
  refine List.flatMap_congr fun j hj => ?_
  have hj := List.mem_range.1 hj
  rw [inodeEvents, List.filterMap_cons]
  by_cases hdir : (inodes j).type = T_DIR
  · rw [if_pos hdir, if_pos hdir, walk_direct (h j hj hdir), List.map_map, List.filterMap_map]
    exact congrFun List.filterMap_eq_map' _
  · rw [if_neg hdir, if_neg hdir]
    rfl

/-- How many of the entries in the given slots of the directories name inode `i`, `.` and `..` apart. -/
def namesIn (img : Image) (sb : SuperBlock) (inodes : Nat → DInode) (slots : DInode → List Nat) (i : Nat) : Nat :=
  ((List.range sb.ninodes).flatMap fun j =>
    if (inodes j).type = T_DIR then (slots (inodes j)).map (Kernel.slotOf img (inodes j)) else []).countP
      fun e => e.inum = i ∧ e.name ≠ dot ∧ e.name ≠ dotdot

theorem refs_eq_namesIn {slots : DInode → List Nat}
    (hin : ∀ j < sb.ninodes, (inodes j).type = T_DIR → none ∉ walk img (direct (inodes j)))
    (hslots : ∀ j < sb.ninodes, (inodes j).type = T_DIR → countedSlots img (inodes j) = slots (inodes j))
    (hbad : ∀ e ∈ events img sb inodes, ¬ e.Bad sb) (i : Nat) : refs img sb inodes i = namesIn img sb inodes slots i := by
  rw [refs, namesIn, counted_eq hin, List.countP_flatMap, List.countP_flatMap]
  congr 1
  refine List.map_congr_left fun j hj => ?_
  have hj := List.mem_range.1 hj
  show List.countP _ (if _ then _ else _) = List.countP _ (if _ then _ else _)
  by_cases hdir : (inodes j).type = T_DIR
  swap
  · rw [if_neg hdir, if_neg hdir]
    rfl
  rw [if_pos hdir, if_pos hdir, List.countP_map, List.countP_map, ← hslots j hj hdir]
  refine List.countP_congr fun k hk => ?_
  have hmem := mem_events_of_counted hj hdir (hin j hj hdir) hk
  obtain ⟨hk384, h0, -⟩ := mem_countedSlots hk
  -- the index is in range, so that the two decodings of the number agree
  have htable : InTable sb (slotEntry img (inodes j) k) := not_not.1 (hbad _ hmem)
  have hnum : (slotEntry img (inodes j) k).inum = i ↔ (Kernel.slotOf img (inodes j) k).inum = i := by
    have hge := htable.1
    have hlt := slotOf_inum_lt img (inodes j) k
    rw [slotOf_direct hk384 h0] at hge ⊢
    show toInt16 _ = _ ↔ _
    change 0 ≤ toInt16 _ at hge
    unfold toInt16 at *
    split at hge <;> omega
  have hname : (slotEntry img (inodes j) k).name = (Kernel.slotOf img (inodes j) k).name := by rw [slotOf_direct hk384 h0]
  simp only [Function.comp_apply, decide_eq_true_eq, Names, hnum, hname]

theorem refs_eq_links (h : PackedDirs img sb inodes) (hbad : ∀ e ∈ events img sb inodes, ¬ e.Bad sb) (i : Nat) :
    refs img sb inodes i = links img sb inodes i :=
  refs_eq_namesIn (fun j hj hdir => (h.inside j hj hdir).none_not_mem_walk)
    (fun j hj hdir => (countedSlots_eq_seen_iff img (inodes j)).2 (h.packed j hj hdir)) hbad i

/-! ### The test -/

theorem scanned_file {t : Table} {c : Nat → Int} (ht : constructInodes img sb m = .ok t) (hdirs : PackedDirs img sb t.inodes)
    (hc : scanInodes img sb t.inodes t.inuseInode = .ok c) {i : Nat} (hi : i < sb.ninodes) (hfile : (t.inodes i).type = T_FILE) :
    c i = links img sb t.inodes i := by
  have hrun : (events img sb t.inodes).foldlM (evStep sb) t.inuseInode = .ok c := by rw [← scanInodes_eq, hc]; rfl
  have hall := (foldlM_ok_iff (evStep_classifies sb)).1 ⟨c, hrun⟩
  have htype : (t.inodes i).type ≠ 0 := by rw [hfile]; decide
  have hdrop : (Event.inode i (t.inodes i)).Drops i := ⟨rfl, htype, fun h => by rw [hfile] at h; exact absurd h.1 (by decide)⟩
  have hone : t.inuseInode i = 1 := by
    obtain rfl := constructInodes_eq ht
    have htype : (inodesAt img sb i).type ≠ 0 := htype
    rw [inodesAt, if_pos hi] at htype
    exact if_pos ⟨hi, htype⟩
  rw [scanned_count hrun hi, hone, if_pos hdrop, refs_eq_links hdirs fun e he => (hall e he).1]
  omega

/-- The test of the reference counts passes for all files. -/
def RefTest (sb : SuperBlock) (t : Table) (c : Nat → Int) : Prop :=
  ∀ i < sb.ninodes, (t.inodes i).type = T_FILE → checkCount (t.inodes i) (c i) = .ok ()

def LinksRight (img : Image) (sb : SuperBlock) (t : Table) : Prop :=
  ∀ i < sb.ninodes, (t.inodes i).type = T_FILE → (links img sb t.inodes i : Int) = (t.inodes i).nlink

/-- The scan comes to an inode or an entry for which it exits, or to an index out of range. -/
def Stops (img : Image) (sb : SuperBlock) (t : Table) : Prop := ∃ e ∈ events img sb t.inodes, e.Bad sb ∨ e.Rejected sb

/-- Every file has one link, or some file does not have one name and some file does not have `nlink` names. -/
def LinksOne (img : Image) (sb : SuperBlock) (t : Table) : Prop :=
  (∀ i < sb.ninodes, (t.inodes i).type = T_FILE → (t.inodes i).nlink = 1) ∨
    (∃ i < sb.ninodes, (t.inodes i).type = T_FILE ∧ links img sb t.inodes i ≠ 1) ∧ ¬ LinksRight img sb t

def fileIn (nlink : Int) (i : Nat) : DInode := if i = 2 then ⟨T_FILE, 0, 0, nlink, 0, fun _ => 0⟩ else rootAt 59 i

section
variable {nlink : Int}

variable (l : List (Nat × List UInt8))

variable (h : IsShort nlink)
include h

end

def oneName : Image := diskOf (fileIn 1) (dirTail [(1, dot), (1, dotdot), (2, [97])])

def twoNames : Image := diskOf (fileIn 2) (dirTail [(1, dot), (1, dotdot), (2, [97]), (2, [98])])

end Ostep.Fs.Xcheck
