import Ostep.Fs.MkfsBlocks
import Ostep.Fs.MkfsCheck
import Ostep.Fs.CallRuns

/-!
# The tree of a new disk

`mkfs` makes one directory, the root, with an entry for each file behind `.` and `..`. The processes of `boot` start on it with a tree
that has the right link counts.
-/

namespace Ostep.Fs.Kernel

/-! ### Slots -/

theorem slotsIn_cons {b : List UInt8} (hb : b.length = 16) (l : List UInt8) : slotsIn (b ++ l) = slotIn b :: slotsIn l := by
  have hlen : (b ++ l).length / 16 = l.length / 16 + 1 := by
    rw [List.length_append, hb]
    omega
  unfold slotsIn
  rw [hlen, List.range_succ_eq_map, List.map_cons, List.map_map, Nat.mul_zero, List.drop_zero, List.take_left' hb]
  congr 1
  refine List.map_congr_left fun k _ => ?_
  show slotIn (((b ++ l).drop (16 * (k + 1))).take 16) = _
  rw [show 16 * (k + 1) = b.length + 16 * k by omega, List.drop_append, List.drop_eq_nil_of_le (by omega), Nat.add_sub_cancel_left,
    List.nil_append]

theorem slotsIn_zeros (n : Nat) : slotsIn (List.replicate (16 * n) 0) = List.replicate n none := by
  induction n with
  | zero => rfl
  | succ n ih =>
    rw [show 16 * (n + 1) = 16 + 16 * n by omega, List.replicate_add, slotsIn_cons List.length_replicate, ih, slotIn_zero]
    rfl

theorem slots_of_ne_dir {sb : SuperBlock} {img : Image} {i : Nat} (h : (treeOf sb img i).type ≠ T_DIR) : (treeOf sb img i).slots = [] := by
  unfold treeOf at h ⊢
  split at h
  · next hu =>
    rw [if_pos hu]
    exact if_neg h
  · next hu =>
    rw [if_neg hu]
    rfl

theorem Consistent.congr {sb : SuperBlock} {s s' : State} (h : Consistent sb s) (himg : s'.img = s.img)
    (heq : ∀ i < sb.ninodes, s'.inode i = s.inode i) : Consistent sb s' := by
  have hused : ∀ i, s'.Used sb i ↔ s.Used sb i := fun i => and_congr_right fun hi => by rw [heq i hi]
  have hptr : s'.ptr sb = s.ptr sb := by
    funext x
    unfold State.ptr
    by_cases hu : s.Used sb x.1 ∧ x.2 < NPTR
    · rw [if_pos hu, if_pos ⟨(hused _).2 hu.1, hu.2⟩, himg, heq _ hu.1.1]
    · rw [if_neg hu, if_neg fun hu' => hu ⟨(hused _).1 hu'.1, hu'.2⟩]
  obtain ⟨⟨hsize, hinodes, hreserved, hdata, hdistinct⟩, hwhole⟩ := h
  refine ⟨⟨hsize, hinodes, ?_, ?_, ?_⟩, fun i hi => ?_⟩
  · rw [himg]
    exact hreserved
  · rw [hptr, himg]
    exact hdata
  · rw [hptr]
    exact hdistinct
  · rw [himg, heq i hi.1]
    exact hwhole i ((hused i).1 hi)

end Ostep.Fs.Kernel

namespace Ostep.Fs.Mkfs

open Kernel (slotIn slotsIn diskInodes treeOf)

variable {s : St} {fs : Nat → File} {i k : Nat} {files : List HostFile} {img : Image}

theorem slotsIn_flatMap (es : List (Nat × List UInt8)) (l : List UInt8) :
    slotsIn ((es.flatMap fun e => dirent e.1 e.2) ++ l) = (es.map fun e => slotIn (dirent e.1 e.2)) ++ slotsIn l := by
  induction es with
  | nil => rfl
  | cons e es ih =>
    rw [List.flatMap_cons, List.append_assoc, Kernel.slotsIn_cons (length_dirent e.1 e.2), ih]
    rfl

theorem slotIn_dirent {inum : Nat} (hinum : 1 ≤ inum ∧ inum ≤ 65535) (name : List UInt8) : ∃ n, slotIn (dirent inum name) = some (n, inum) := by
  have hn : (Kernel.direntOf (dirent inum name)).inum = inum := by
    show (xshort inum 0).toNat + 2 ^ 8 * (xshort inum 1).toNat = inum
    unfold xshort byteOf toUint16
    rw [UInt8.toNat_ofNat', UInt8.toNat_ofNat']
    omega
  rw [slotIn, hn, if_neg (by omega)]
  exact ⟨_, rfl⟩

def fileSlots (files : List HostFile) : List (Option (List UInt8 × Nat)) := files.mapIdx fun k f => slotIn (dirent (k + 2) f.name)

theorem map_entries (files : List HostFile) :
    ((entries files).map fun e => slotIn (dirent e.1 e.2)) = [some ([46], 1), some ([46, 46], 1)] ++ fileSlots files := by
  rw [entries, List.map_append]
  congr 1
  refine List.ext_getElem? fun k => ?_
  rw [fileSlots, List.getElem?_map, List.getElem?_mapIdx, List.getElem?_mapIdx, Option.map_map]
  rfl

theorem countP_fileSlots (hcount : files.length ≤ 65533) (x : Nat) :
    (fileSlots files).countP (Node.names x) = if 2 ≤ x ∧ x < 2 + files.length then 1 else 0 := by
  induction files using List.reverseRecOn with
  | nil => rw [if_neg (by rw [List.length_nil]; omega)]; rfl
  | append_singleton files f ih =>
    rw [List.length_append, List.length_singleton] at hcount ⊢
    obtain ⟨n, hn⟩ := slotIn_dirent (show 1 ≤ files.length + 2 ∧ files.length + 2 ≤ 65535 by omega) f.name
    rw [fileSlots, List.mapIdx_concat, ← fileSlots, List.countP_append, ih (by omega), hn, Node.countP_names]
    dsimp only
    split_ifs <;> omega

section
variable (hb : Built files s fs) (h : Final img s.freeblock fs) (hcount : files.length ≤ 198) (hround : (files.length + 2) % 32 ≠ 0)
include hb h hcount hround

theorem inode_diskInodes (hi : i < 200) : (diskInodes sb img).inode i = finalInode fs i := by
  have hpos : ∀ k < 64, img.byte (Kernel.inodePos sb i + k) = (finalInode fs i).mem k := by
    rw [Kernel.inodePos_eq]
    exact h.table i (by omega)
  have hmax := (hb.finalSize (by omega) hround i).2
  show (if i < 200 then Kernel.dinodeOn img (Kernel.inodePos sb i) else .zero) = _
  rw [if_pos hi, Kernel.dinodeOn_mem (h.wf hb.inv.freeblock (hb.inv.short i) hmax) (fun _ => rest_finalInode fs i) hpos]

theorem type_new (i : Nat) : (treeOf sb img i).type = if i = 1 then T_DIR else if 2 ≤ i ∧ i < 2 + files.length then T_FILE else 0 := by
  rw [Kernel.type_treeOf]
  by_cases hi : i < 200
  · rw [inode_diskInodes hb h hcount hround hi, finalInode_eq, ← hb.type_eq]
    rfl
  · rw [if_neg (by omega), if_neg (by omega)]
    show (if i < 200 then _ else DInode.zero).type = 0
    rw [if_neg hi]
    rfl

theorem nlink_new (hi : (treeOf sb img i).type ≠ 0) : (treeOf sb img i).nlink = 1 := by
  have hu : (diskInodes sb img).Used sb i := Kernel.used_iff.2 hi
  have hlt : i < 200 := hu.1
  rw [Kernel.type_treeOf, inode_diskInodes hb h hcount hround hlt, finalInode_eq] at hi
  rw [Kernel.treeOf_of_used hu, inode_diskInodes hb h hcount hround hlt, finalInode_eq]
  exact hb.nlink i hi

theorem slots_new : ∃ m, (treeOf sb img 1).slots =
    [some ([46], 1), some ([46, 46], 1)] ++ fileSlots files ++ List.replicate m none := by
  have hdir : (treeOf sb img 1).type = T_DIR := by rw [type_new hb h hcount hround, if_pos rfl]
  have hlen := hb.rootSize
  have hsize : (finalInode fs 1).size = ((fs 1).data.length / 512 + 1) * 512 := rfl
  obtain ⟨m, hm⟩ : ∃ m, (finalInode fs 1).size = (fs 1).data.length + 16 * m := ⟨((fs 1).data.length / 512 + 1) * 32 - (2 + files.length), by omega⟩
  have hdata : Kernel.data img (finalInode fs 1) = (fs 1).data ++ List.replicate (16 * m) 0 := by
    have hl : (finalInode fs 1).size = ((fs 1).data ++ List.replicate (16 * m) (0 : UInt8)).length := by
      rw [List.length_append, List.length_replicate, hm]
    rw [Kernel.data, hl]
    refine bytesFrom_eq fun p hp => ?_
    rw [← hl] at hp
    have hp' := (hb.finalSize (by omega) hround 1).1
    rw [Kernel.content_addrs (d := (fs 1).dinode) (funext fun j => addrs_finalInode fs 1 j),
      h.disk.blocks_content hb.inv.freeblock (hb.inv.sized 1) (hb.inv.max 1) (by omega), getD_append_replicate]
  refine ⟨m, ?_⟩
  rw [Kernel.slots_treeOf hdir, inode_diskInodes hb h hcount hround (by decide), hdata, hb.rootData, slotsIn_flatMap, Kernel.slotsIn_zeros,
    map_entries]

theorem rest_new (x : Nat) : (treeOf sb img 1).rest x = if 2 ≤ x ∧ x < 2 + files.length then 1 else 0 := by
  obtain ⟨m, hm⟩ := slots_new hb h hcount hround
  have hfree : (List.replicate m none).countP (Node.names x) = 0 := List.countP_eq_zero.2 fun s hs hname => by
    rw [List.eq_of_mem_replicate hs] at hname
    cases hname
  rw [Node.rest, hm, List.append_assoc]
  show (fileSlots files ++ List.replicate m none).countP (Node.names x) = _
  rw [List.countP_append, hfree, countP_fileSlots (by omega), Nat.add_zero]

theorem eq_one_of_dir_new (hi : (treeOf sb img i).type = T_DIR) : i = 1 := by
  rw [type_new hb h hcount hround] at hi
  by_contra h1
  rw [if_neg h1] at hi
  split at hi
  · exact absurd hi (by decide)
  · exact absurd hi (by decide)

theorem treeOk_new (P : Nat → Prop) : TreeOk 200 (treeOf sb img) P := by
  have htype := type_new hb h hcount hround
  have hone := fun i => nlink_new hb h hcount hround (i := i)
  have hdirs := fun i => eq_one_of_dir_new hb h hcount hround (i := i)
  have hrest := rest_new hb h hcount hround
  obtain ⟨m, hm⟩ := slots_new hb h hcount hround
  have htake : (treeOf sb img 1).slots.take 2 = [some ([46], 1), some ([46, 46], 1)] := by rw [hm]; rfl
  have hroot : (treeOf sb img 1).type = T_DIR := by rw [htype, if_pos rfl]
  have hlive : (treeOf sb img 1).nlink ≠ 0 := by
    rw [hone 1 (dir_ne_zero hroot)]
    exact Int.one_ne_zero
  have hnosub : ∀ d c, ¬ IsSubdir (treeOf sb img) d c := fun d c hs => hs.2.2.1 (hdirs c hs.1)
  have hleaf : ∀ i, i ≠ 1 → (treeOf sb img i).slots = [] := fun i hi => Kernel.slots_of_ne_dir fun hd => hi (hdirs i hd)
  have hnone : ∀ d x, d ≠ 1 → (treeOf sb img d).rest x = 0 := by
    intro d x hd
    rw [Node.rest, hleaf d hd]
    rfl
  refine ⟨⟨hroot, hlive, ?_⟩, fun i => ?_, fun i hi h0 => ?_⟩
  · show (treeOf sb img 1).parent = some 1
    rw [Node.parent_eq_take, htake]
    rfl
  · by_cases h1 : i = 1
    · subst h1
      refine NodeOk.dir (p := 1) (by decide) hroot htake ⟨hroot, hlive⟩ (fun d => ?_) (fun h0 => absurd h0 hlive) fun _ => ?_
      · rw [if_neg (hnosub d 1)]
        by_cases hd : d = 1
        · rw [hd, hrest, if_neg (by omega)]
        · exact hnone d 1 hd
      · have hzero : subdirs 200 (treeOf sb img) 1 = 0 := Finset.sum_eq_zero fun c _ => if_neg (hnosub 1 c)
        rw [hone 1 (dir_ne_zero hroot), hzero]
        rfl
    · by_cases hfile : 2 ≤ i ∧ i < 2 + files.length
      · have ht : (treeOf sb img i).type = T_FILE := by rw [htype, if_neg h1, if_pos hfile]
        refine NodeOk.file (by omega) ht (hleaf i h1) ?_
        have hentries : Fs.entries 200 (treeOf sb img) i = 1 := by
          rw [Fs.entries, Finset.sum_eq_single 1 (fun d _ hd => hnone d i hd) fun hd => absurd (Finset.mem_range.2 (by decide)) hd, hrest, if_pos hfile]
        rw [hone i (file_ne_zero ht), hentries]
        rfl
      · refine NodeOk.free (by rw [htype, if_neg h1, if_neg hfile]) (hleaf i h1) fun d => ?_
        by_cases hd : d = 1
        · rw [hd, hrest, if_neg hfile]
        · exact hnone d i hd
  · rw [hone i hi] at h0
    exact absurd h0 Int.one_ne_zero

theorem good_new : Kernel.Good sb img where
  size_le := by decide
  ninodes_le := by decide
  consistent := (hb.consistent h (by omega) hround).congr rfl fun _ hi => inode_diskInodes hb h hcount hround hi
  aligned := fun i hi => by
    rw [← Kernel.type_treeOf] at hi
    obtain rfl := eq_one_of_dir_new hb h hcount hround hi
    rw [inode_diskInodes hb h hcount hround (by decide)]
    show ((fs 1).data.length / 512 + 1) * 512 % 16 = 0
    omega
  zero := by rw [← Kernel.type_treeOf, type_new hb h hcount hround, if_neg (by decide), if_neg (by omega)]

end

theorem refs_boot (n : Nat) (img : Image) : (Kernel.boot n img).refs = n • (Pi.single 0 1 : Nat → Int) := by
  have hproc : Kernel.Proc.refs ⟨0, List.replicate Kernel.NOFILE none⟩ = Pi.single 0 1 := by
    rw [Kernel.Proc.refs, List.map_replicate, List.sum_replicate]
    exact (congrArg _ (nsmul_zero _)).trans (add_zero _)
  rw [Kernel.Sys.refs, Kernel.boot, List.map_replicate, List.sum_replicate, ← hproc]
  rfl

theorem sysOk_boot (hcount : files.length ≤ 198) (hround : (files.length + 2) % 32 ≠ 0) (hok : main files = .ok img) (n : Nat) :
    Kernel.SysOk sb (Kernel.boot n img) := by
  obtain ⟨s, fs, hb, h⟩ := final_of_main (by omega) hok
  have hroot : (treeOf sb img 1).type = T_DIR := by rw [type_new hb h hcount hround, if_pos rfl]
  have hself : (Kernel.boot n img).world.inode 0 = ⟨ROOTINO, n, false, .zero⟩ := rfl
  have hrefs : ∀ k, (Kernel.boot n img).world.refs k = if k = 0 then (n : Int) else 0 := by
    intro k
    show (if k = 0 then (⟨ROOTINO, n, false, .zero⟩ : Kernel.Inode) else ⟨0, 0, false, .zero⟩).ref = _
    split <;> rfl
  have hzero : ∀ k, 0 < (Kernel.boot n img).world.refs k → k = 0 := by
    intro k hk
    by_contra h0
    rw [hrefs, if_neg h0] at hk
    exact lt_irrefl 0 hk
  refine ⟨⟨⟨good_new hb h hcount hround, fun k => ?_, fun k hk => ⟨?_, fun hv => ?_, ?_⟩, fun k l hk hl _ => ?_⟩, ?_,
    treeOk_new hb h hcount hround _⟩, fun p hp => ?_⟩
  · show 0 ≤ (Kernel.boot n img).world.refs k
    rw [hrefs]
    split
    · exact Int.natCast_nonneg n
    · exact le_refl 0
  · rw [hzero k hk]
    decide
  · rw [hzero k hk, hself] at hv
    cases hv
  · rw [hzero k hk, hself, ← Kernel.type_treeOf]
    exact dir_ne_zero hroot
  · rw [hzero k hk, hzero l hl]
  · rw [refs_boot]
    funext k
    rw [hrefs, Pi.smul_apply, Pi.single_apply]
    split
    · rw [nsmul_one]
    · rw [nsmul_zero]
  · have hp' : p = ⟨0, List.replicate Kernel.NOFILE none⟩ := Option.some.inj (List.eq_of_mem_replicate hp)
    rw [hp', hself]
    exact hroot

end Ostep.Fs.Mkfs
