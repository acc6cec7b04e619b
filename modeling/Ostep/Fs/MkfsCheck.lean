import Ostep.Fs.MkfsImage
import Ostep.Fs.RefCount

/-!
# The checker accepts what `mkfs` builds

The pointers that `xcheck` comes to are the blocks that the files own (`Final.pointers_perm`), and the entries that it counts are those of
the root directory (`countedSlots_root`). `check_main` puts this together.
-/

namespace Ostep.Fs.Mkfs

open Xcheck

variable {img : Image} {fs : Nat → File} {files : List HostFile} {s : St} {i : Nat}

theorem Final.wellFormed {fb : Nat} (h : Final img fb fs) : WellFormed img := by
  have hword : ∀ w < 7, IntAt img (512 + 4 * w) (sb.word w) := by
    intro w hw k hk
    rw [Nat.add_assoc, h.super _ (by omega), SuperBlock.mem_word _ _ hk]
  exact ⟨h.disk.len, hword 0 (by omega), hword 2 (by omega), hword 5 (by omega), hword 6 (by omega)⟩

theorem finalInode_type (fs : Nat → File) (i : Nat) : (finalInode fs i).type = (fs i).type := by
  unfold finalInode
  split
  · next h => rw [h]; rfl
  · rfl

theorem finalInode_addrs (fs : Nat → File) (i : Nat) : (finalInode fs i).addrs = (fs i).addrs := by
  unfold finalInode
  split
  · next h => rw [h]; rfl
  · rfl

theorem Built.addrs_lt (hb : Built files s fs) (i j : Nat) : (fs i).addrs j < 1000 := hb.inv.disk.addrs_lt hb.inv.freeblock i j

theorem Built.blocks_le (hb : Built files s fs) (i : Nat) : (fs i).blocks.length ≤ 140 := by
  have hblocks := (hb.inv.sized i).blocks
  have hmax := hb.inv.max i
  omega

theorem Built.zero_notMem_blocks (hb : Built files s fs) (i : Nat) : 0 ∉ (fs i).blocks := by
  intro h0
  have := (hb.inv.disk.owns.range (i := i) (List.mem_append_left _ h0)).1
  omega

section
variable (hb : Built files s fs) (h : Final img s.freeblock fs)
include hb h

/-- The fields that `check` uses are decoded right; the size of a big file is not. -/
theorem tableOf_final (hi : i < 200) : (tableOf img i).type = (fs i).type ∧ (tableOf img i).addrs = (fs i).addrs := by
  have hw := h.wellFormed
  have hstart := hw.sb_inodestart
  have htable : tableOf img i = dinodeAt img (32 * 512 + i * 64) := by
    have hptr : inodePtr (sbOf img) i = 32 * 512 + i * 64 := by
      unfold inodePtr
      omega
    rw [tableOf, inodesAt, if_pos (by rw [hw.sb_ninodes]; exact hi), hptr]
  rw [htable]
  constructor
  · refine shortAt_eq (hb.inv.short i).1 fun k hk => ?_
    have hmem := (finalInode fs i).mem_short 0 hk (by omega)
    rw [Nat.mul_zero, Nat.zero_add] at hmem
    rw [h.table i (by omega) k (by omega), hmem]
    exact congrArg (xshort · k) (finalInode_type fs i)
  · funext j
    show (if j < 13 then intAt img (32 * 512 + i * 64 + 12 + j * 4) else 0) = _
    have hlt := hb.addrs_lt i j
    split
    · next hj =>
      refine (intAt_eq_iff (by omega) fun k hk => ?_).2 (by omega)
      rw [show 32 * 512 + i * 64 + 12 + j * 4 + k = 32 * 512 + i * 64 + (12 + j * 4 + k) by omega, h.table i (by omega) _ (by omega),
        DInode.mem_addr _ _ hk, finalInode_addrs]
    · next hj => exact (addrs_of_ge (by omega)).symm

end

/-! ### The pointers -/

theorem flatMap_nonzero_getD {l : List Nat} (h : 0 ∉ l) (n : Nat) : ((List.range n).flatMap fun j => nonzero (l.getD j 0)) = l.take n := by
  induction n with
  | zero => rfl
  | succ n ih =>
    rw [List.range_succ, List.flatMap_append, ih, List.flatMap_singleton]
    rcases Nat.lt_or_ge n l.length with hlt | hge
    · have hget : l.getD n 0 = l[n] := by rw [List.getD_eq_getElem?_getD, List.getElem?_eq_getElem hlt]; rfl
      have hne : l[n] ≠ 0 := fun h0 => h (h0 ▸ List.getElem_mem hlt)
      rw [hget, nonzero, if_neg hne, List.take_succ_eq_append_getElem hlt]
    · rw [getD_of_le hge, List.take_of_length_le hge, List.take_of_length_le (by omega)]
      exact List.append_nil _

section
variable (hb : Built files s fs) (h : Final img s.freeblock fs)
include hb h

theorem indirect_final (hind : (fs i).ind ≠ 0) : indirect img (fs i).ind = (fs i).blocks.drop 12 := by
  have hlen : ((fs i).blocks.drop 12).length ≤ 128 := by
    have := hb.blocks_le i
    rw [List.length_drop]
    omega
  have hdrop : 0 ∉ (fs i).blocks.drop 12 := fun h0 => hb.zero_notMem_blocks i (List.mem_of_mem_drop h0)
  rw [← List.take_of_length_le hlen, ← flatMap_nonzero_getD hdrop]
  refine List.flatMap_congr fun k hk => congrArg nonzero ?_
  have hk := List.mem_range.1 hk
  have hget : ((fs i).blocks.drop 12).getD k 0 = (fs i).blocks.getD (12 + k) 0 := by
    rw [List.getD_eq_getElem?_getD, List.getD_eq_getElem?_getD, List.getElem?_drop]
  have hlt : (fs i).blocks.getD (12 + k) 0 < 1000 := by
    rcases Nat.lt_or_ge (12 + k) (fs i).blocks.length with hlt | hge
    · exact Nat.lt_of_lt_of_le (hb.inv.disk.owns.range (getD_mem_own hlt)).2 hb.inv.freeblock
    · rw [getD_of_le hge]
      omega
  rw [hget]
  refine (intAt_eq_iff (by omega) fun j hj => ?_).2 (by omega)
  rw [Nat.mul_comm 512]
  exact (h.disk.holds i).entry hind k hk j hj

theorem inodePointers_perm (hi : i < 200) : (inodePointers img (tableOf img i)).Perm (fs i).own := by
  have haddrs := (tableOf_final hb h hi).2
  have hdirect : ((List.range 12).flatMap fun j => nonzero ((fs i).addrs j) ++
      if j = 12 ∧ (fs i).addrs j ≠ 0 then indirect img ((fs i).addrs j) else []) = (fs i).blocks.take 12 := by
    rw [← flatMap_nonzero_getD (hb.zero_notMem_blocks i)]
    refine List.flatMap_congr fun j hj => ?_
    have hj := List.mem_range.1 hj
    have haddr : (fs i).addrs j = (fs i).blocks.getD j 0 := if_pos hj
    rw [if_neg (by omega), List.append_nil, haddr]
  have hlast : (if 12 = 12 ∧ (fs i).ind ≠ 0 then indirect img (fs i).ind else []) = (fs i).blocks.drop 12 := by
    by_cases hind : (fs i).ind = 0
    · rw [if_neg fun hh => hh.2 hind, List.drop_eq_nil_of_le]
      have := mt (hb.inv.disk.holds i).ind (not_not.2 hind)
      omega
    · rw [if_pos ⟨rfl, hind⟩, indirect_final hb h hind]
  unfold inodePointers
  rw [haddrs, List.range_succ, List.flatMap_append, hdirect, List.flatMap_singleton, show (fs i).addrs 12 = (fs i).ind from rfl, hlast]
  calc (fs i).blocks.take 12 ++ (nonzero (fs i).ind ++ (fs i).blocks.drop 12)
    _ |>.Perm ((fs i).blocks.take 12 ++ ((fs i).blocks.drop 12 ++ nonzero (fs i).ind)) := List.Perm.append_left _ List.perm_append_comm
    _ = (fs i).own := by rw [← List.append_assoc, List.take_append_drop, File.own]

theorem pointers_perm : (Xcheck.pointers img (sbOf img) (tableOf img)).Perm ((List.range 200).flatMap fun i => (fs i).own) := by
  unfold Xcheck.pointers
  rw [h.wellFormed.sb_ninodes]
  exact List.Perm.flatMap_left _ fun i hi => inodePointers_perm hb h (List.mem_range.1 hi)

theorem pointers_final (hcount : files.length ≤ 198) : (Xcheck.pointers img (sbOf img) (tableOf img)).Nodup ∧
    ∀ b, b ∈ Xcheck.pointers img (sbOf img) (tableOf img) ↔ 59 ≤ b ∧ b < s.freeblock := by
  have hperm := pointers_perm hb h
  obtain ⟨hnodup, hmem⟩ := hb.inv.disk.owns.flatMap (List.nodup_range (n := 200)) fun {i b} hbi => by
    rw [List.mem_range]
    by_contra hge
    have hino := hb.freeinode
    rw [hb.inv.free i (by omega)] at hbi
    cases hbi
  exact ⟨hperm.nodup_iff.2 hnodup, fun b => hperm.mem_iff.trans (hmem b)⟩

end

/-! ### The root directory -/

theorem entryAt_dirent {ptr inum : Nat} {name : List UInt8} (hinum : inum < 2 ^ 15) (hname : 0 ∉ name)
    (hbytes : ∀ j < 16, img.byte (ptr + j) = (dirent inum name).getD j 0) : entryAt img ptr = ⟨inum, name.take 14⟩ := by
  have hshort : shortAt img ptr = inum := by
    refine shortAt_eq ⟨by omega, by omega⟩ fun k hk => ?_
    rw [hbytes k (by omega)]
    rcases Nat.lt_succ_iff_lt_or_eq.1 hk with hk | rfl
    · obtain rfl : k = 0 := by omega
      rfl
    · rfl
  have hpad : Kernel.bytesFrom img.byte (ptr + 2) 14 = (name ++ List.replicate 14 0).take 14 := by
    refine List.ext_getElem (by simp [Kernel.bytesFrom]) fun k hk hk' => ?_
    have hk14 : k < 14 := by simpa [Kernel.bytesFrom] using hk
    have hget := hbytes (2 + k) (by omega)
    rw [dirent, getD_append_ge (by simp), ← Nat.add_assoc] at hget
    simp only [Kernel.bytesFrom, List.getElem_map, List.getElem_range]
    rw [hget, show 2 + k - [xshort (inum : Int) 0, xshort (inum : Int) 1].length = k by simp, List.getD_eq_getElem?_getD]
    show ((name ++ List.replicate 14 0).take 14)[k]?.getD 0 = _
    rw [List.getElem?_eq_getElem hk']
    rfl
  have hstop : ((name ++ List.replicate 14 0).take 14).takeWhile (fun c => decide (c ≠ 0)) = name.take 14 := by
    have hall : (name.take 14).all (fun c => decide (c ≠ 0)) = true := List.all_eq_true.2 fun c hc =>
      decide_eq_true fun h0 => hname (h0 ▸ List.mem_of_mem_take hc)
    rw [List.take_append, takeWhile_append_eq, if_pos hall, List.take_replicate, List.takeWhile_replicate]
    simp
  unfold entryAt
  rw [hshort, nameAt_eq, hpad, hstop]

theorem entries_get {k : Nat} {e : Nat × List UInt8} (hk : (entries files)[k]? = some e) :
    (k = 0 ∧ e = (1, dot)) ∨ (k = 1 ∧ e = (1, dotdot)) ∨ ∃ f ∈ files, 2 ≤ k ∧ e = (k, f.name) := by
  rcases k with _ | _ | k
  · cases hk
    exact .inl ⟨rfl, rfl⟩
  · cases hk
    exact .inr (.inl ⟨rfl, rfl⟩)
  · have hk' : (files.mapIdx fun k f => (k + 2, f.name))[k]? = some e := hk
    rw [List.getElem?_mapIdx] at hk'
    obtain ⟨f, hf, rfl⟩ := Option.map_eq_some_iff.1 hk'
    exact .inr (.inr ⟨f, List.mem_of_getElem? hf, by omega, rfl⟩)

theorem entries_lt {k : Nat} (hk : k < 2 + files.length) : ∃ e, (entries files)[k]? = some e :=
  ⟨_, List.getElem?_eq_getElem (by rw [length_entries]; exact hk)⟩

theorem Built.root_length (hb : Built files s fs) : (fs 1).data.length = 16 * (2 + files.length) := by
  rw [hb.rootData, length_flatMap_dirent, length_entries]

theorem Built.addrs_root (hb : Built files s fs) (hcount : files.length ≤ 198) {k : Nat} (hk : k < 2 + files.length) : (fs 1).addrs (k / 32) ≠ 0 := by
  have hlen := hb.root_length
  have hblocks := (hb.inv.sized 1).blocks
  have haddr : (fs 1).addrs (k / 32) = (fs 1).blocks.getD (k / 32) 0 := if_pos (by omega)
  have := (hb.inv.disk.owns.range (getD_mem_own (show k / 32 < (fs 1).blocks.length by omega))).1
  omega

theorem Built.type_eq (hb : Built files s fs) (i : Nat) : (fs i).type = if i = 1 then T_DIR else if 2 ≤ i ∧ i < 2 + files.length then T_FILE else 0 := by
  by_cases h1 : i = 1
  · rw [h1, if_pos rfl, hb.rootType]
  rw [if_neg h1]
  by_cases hfile : 2 ≤ i ∧ i < 2 + files.length
  · obtain ⟨k, rfl⟩ := Nat.exists_eq_add_of_le hfile.1
    rw [if_pos hfile, Nat.add_comm 2 k]
    exact (hb.file k _ (List.getElem?_eq_getElem (by omega))).1
  · have hino := hb.freeinode
    rw [if_neg hfile, hb.inv.free i (by omega)]
    rfl

section
variable (hb : Built files s fs) (h : Final img s.freeblock fs)
include hb h

theorem slot_bytes {k : Nat} (hk : k < 384) (hne : (fs 1).addrs (k / 32) ≠ 0) {j : Nat} (hj : j < 16) :
    img.byte (slotPtr (tableOf img 1) k + j) = (fs 1).data.getD (16 * k + j) 0 := by
  have haddr : (fs 1).addrs (k / 32) = (fs 1).blocks.getD (k / 32) 0 := if_pos (by omega)
  have hlt : k / 32 < (fs 1).blocks.length := by
    by_contra hge
    exact hne (haddr.trans (getD_of_le (by omega)))
  have hcontent := (h.disk.holds 1).content (16 * k + j) (by omega)
  rw [show (16 * k + j) / 512 = k / 32 by omega, show (16 * k + j) % 512 = 16 * (k % 32) + j by omega, ← Nat.add_assoc, ← haddr] at hcontent
  rw [slotPtr, (tableOf_final hb h (by omega)).2]
  exact hcontent

variable (hcount : files.length ≤ 198)
include hcount

theorem slotEntry_root (hname : ∀ f ∈ files, 0 ∉ f.name) {k : Nat} {e : Nat × List UInt8} (hk : (entries files)[k]? = some e) :
    slotEntry img (tableOf img 1) k = ⟨e.1, e.2.take 14⟩ := by
  have hlt : k < 2 + files.length := by
    obtain ⟨hlt, -⟩ := List.getElem?_eq_some_iff.1 hk
    rwa [length_entries] at hlt
  refine entryAt_dirent ?_ ?_ fun j hj => ?_
  · rcases entries_get hk with ⟨-, rfl⟩ | ⟨-, rfl⟩ | ⟨f, -, -, rfl⟩
    · decide
    · decide
    · show k < _
      omega
  · rcases entries_get hk with ⟨-, rfl⟩ | ⟨-, rfl⟩ | ⟨f, hf, -, rfl⟩
    · decide
    · decide
    · exact hname f hf
  · rw [slot_bytes hb h (by omega) (hb.addrs_root hcount hlt) hj, hb.rootData, getD_flatMap (fun e => length_dirent e.1 e.2) hk hj]

theorem countedSlots_root (hname : ∀ f ∈ files, 0 ∉ f.name) : countedSlots img (tableOf img 1) = List.range (2 + files.length) := by
  have haddrs := (tableOf_final hb h (by omega : 1 < 200)).2
  refine takeWhile_range (by omega) (fun k hk => ?_) fun hlt => ?_
  · obtain ⟨e, he⟩ := entries_lt hk
    rw [haddrs, slotEntry_root hb h hcount hname he]
    refine decide_eq_true ⟨hb.addrs_root hcount hk, ?_⟩
    rcases entries_get he with ⟨-, rfl⟩ | ⟨-, rfl⟩ | ⟨f, -, hk2, rfl⟩
    · decide
    · decide
    · show (k : Int) ≠ 0
      omega
  · -- the slot behind the last entry is zero, if it is there
    rw [haddrs]
    refine decide_eq_false fun ⟨hne, hinum⟩ => hinum ?_
    refine shortAt_eq (by decide : IsShort 0) fun j hj => ?_
    rw [slot_bytes hb h hlt hne (by omega), getD_of_le (by rw [hb.root_length]; omega)]
    exact (byteOf_zero j).symm

end

/-! ### All tests -/

theorem eq_one_of_dir (hb : Built files s fs) (h : Final img s.freeblock fs) (hi : i < 200) (hdir : (tableOf img i).type = T_DIR) : i = 1 := by
  rw [(tableOf_final hb h hi).1, hb.type_eq] at hdir
  by_contra h1
  rw [if_neg h1] at hdir
  split at hdir <;> exact absurd hdir (by decide)

theorem none_notMem_walk (hb : Built files s fs) (h : Final img s.freeblock fs) (hi : i < 200) (hdir : (tableOf img i).type = T_DIR) :
    none ∉ walk img (direct (tableOf img i)) := by
  obtain rfl := eq_one_of_dir hb h hi hdir
  refine DirectIn.none_not_mem_walk fun j _ _ => ?_
  have := hb.addrs_lt 1 j
  rw [(tableOf_final hb h hi).2, h.disk.len]
  omega

/-- A name that may stand in the root directory. -/
structure HostFile.Named (f : HostFile) : Prop where
  nul : 0 ∉ f.name
  slash : 47 ∉ f.name
  ne_dot : f.name ≠ dot
  ne_dotdot : f.name ≠ dotdot

theorem eq_of_take {name l : List UInt8} (h : name.take 14 = l) (hl : l.length < 14) : name = l := by
  have hlen := congrArg List.length h
  rw [List.length_take] at hlen
  rwa [List.take_of_length_le (by omega)] at h

section
variable (hb : Built files s fs) (h : Final img s.freeblock fs) (hcount : files.length ≤ 198) (hname : ∀ f ∈ files, f.Named)
include hb h hcount hname

theorem names_root {k : Nat} (hk : k < 2 + files.length) : Names i (slotEntry img (tableOf img 1) k) ↔ 2 ≤ k ∧ k = i := by
  obtain ⟨e, he⟩ := entries_lt hk
  rw [slotEntry_root hb h hcount (fun f hf => (hname f hf).nul) he]
  rcases entries_get he with ⟨rfl, rfl⟩ | ⟨rfl, rfl⟩ | ⟨f, hf, hk2, rfl⟩
  · exact iff_of_false (fun hn => hn.2.1 rfl) (by omega)
  · exact iff_of_false (fun hn => hn.2.2 rfl) (by omega)
  · refine ⟨fun hn => ⟨hk2, Int.ofNat.inj hn.1⟩, fun hn => ⟨congrArg Int.ofNat hn.2, fun hd => ?_, fun hd => ?_⟩⟩
    · exact (hname f hf).ne_dot (eq_of_take hd (by decide))
    · exact (hname f hf).ne_dotdot (eq_of_take hd (by decide))

theorem refs_final (i : Nat) : refs img (sbOf img) (tableOf img) i = if 2 ≤ i ∧ i < 2 + files.length then 1 else 0 := by
  have hninodes := h.wellFormed.sb_ninodes
  -- the entries of the root directory are all that is counted
  have hflat : ∀ (l : List Entry) (n : Nat), 1 < n → ((List.range n).flatMap fun j => if j = 1 then l else []) = l := by
    intro l n hn
    induction n with
    | zero => omega
    | succ n ih =>
      rw [List.range_succ, List.flatMap_append, List.flatMap_singleton]
      rcases Nat.lt_or_ge 1 n with hlt | hge
      · rw [ih hlt, if_neg (by omega), List.append_nil]
      · obtain rfl : n = 1 := by omega
        rfl
  have hcounted : counted img (sbOf img) (tableOf img) = (List.range (2 + files.length)).map (slotEntry img (tableOf img 1)) := by
    rw [counted_eq fun j hj hdir => none_notMem_walk hb h (by omega) hdir, ← countedSlots_root hb h hcount fun f hf => (hname f hf).nul,
      hninodes, ← hflat ((countedSlots img (tableOf img 1)).map (slotEntry img (tableOf img 1))) 200 (by omega)]
    refine List.flatMap_congr fun j hj => ?_
    have hj := List.mem_range.1 hj
    by_cases h1 : j = 1
    · rw [h1, if_pos rfl, if_pos (by rw [(tableOf_final hb h (by omega)).1, hb.rootType])]
    · rw [if_neg h1, if_neg fun hdir => h1 (eq_one_of_dir hb h hj hdir)]
  rw [refs, hcounted, List.countP_map]
  have hcongr : (List.range (2 + files.length)).countP ((fun e => decide (Names i e)) ∘ slotEntry img (tableOf img 1)) =
      if 2 ≤ i then (List.range (2 + files.length)).count i else 0 := by
    by_cases h2 : 2 ≤ i
    · rw [if_pos h2, List.count]
      refine List.countP_congr fun k hk => ?_
      show decide (Names i _) = true ↔ (k == i) = true
      rw [decide_eq_true_iff, names_root hb h hcount hname (List.mem_range.1 hk), beq_iff_eq]
      omega
    · rw [if_neg h2, List.countP_eq_zero]
      intro k hk hn
      have := (names_root hb h hcount hname (List.mem_range.1 hk)).1 (of_decide_eq_true hn)
      omega
  rw [hcongr, List.nodup_range.count]
  by_cases h2 : 2 ≤ i
  · simp [h2, List.mem_range]
  · simp [h2]

theorem referenced_final {m : Malloc} (hzero : ∀ i < 200, m.inuseInode i = 0) (hi : i < 200) : Referenced m img i := by
  unfold Referenced
  rw [refs_final hb h hcount hname, (tableOf_final hb h hi).1, hb.type_eq, hzero i hi]
  have hdir : ¬ T_DIR = 0 := by decide
  have hfile0 : ¬ T_FILE = 0 := by decide
  by_cases h1 : i = 1
  · have hno : ¬ (2 ≤ i ∧ i < 2 + files.length) := by omega
    rw [if_pos h1, if_neg hdir, if_neg hno, if_pos ⟨rfl, h1⟩]
  · rw [if_neg h1]
    by_cases hfile : 2 ≤ i ∧ i < 2 + files.length
    · rw [if_pos hfile, if_neg hfile0, if_pos hfile, if_neg fun hh => h1 hh.2]
    · rw [if_neg hfile, if_pos rfl, if_neg hfile]
      decide

theorem events_final {e : Event} (he : e ∈ events img (sbOf img) (tableOf img)) : ¬ e.Bad (sbOf img) ∧ ¬ e.Rejected (sbOf img) := by
  have hw := h.wellFormed
  obtain ⟨i, hi, he⟩ := List.mem_flatMap.1 he
  have hi : i < 200 := hw.sb_ninodes ▸ List.mem_range.1 hi
  obtain ⟨htype, haddrs⟩ := tableOf_final hb h hi
  rcases List.mem_cons.1 he with rfl | he
  · refine ⟨id, not_not.2 ⟨?_, fun j _ => ?_⟩⟩
    · unfold TypeOk
      rw [htype, hb.type_eq]
      split
      · exact .inr (.inr (.inl rfl))
      · split
        · exact .inr (.inl rfl)
        · exact .inr (.inr (.inr rfl))
    · have := hb.addrs_lt i j
      rw [haddrs, hw.sb_size]
      omega
  · split at he
    · next hdir =>
      have hwalk := walk_direct (none_notMem_walk hb h hi hdir)
      obtain rfl := eq_one_of_dir hb h hi hdir
      rw [hwalk, countedSlots_root hb h hcount fun f hf => (hname f hf).nul, List.map_map] at he
      obtain ⟨k, hk, rfl⟩ := List.mem_map.1 he
      have hk := List.mem_range.1 hk
      obtain ⟨e, hek⟩ := entries_lt hk
      show ¬ ¬ InTable _ (slotEntry img (tableOf img 1) k) ∧ ¬ ¬ DotOk 1 (slotEntry img (tableOf img 1) k)
      rw [not_not, not_not, slotEntry_root hb h hcount (fun f hf => (hname f hf).nul) hek]
      unfold InTable
      rw [hw.sb_ninodes]
      rcases entries_get hek with ⟨-, rfl⟩ | ⟨-, rfl⟩ | ⟨f, hf, hk2, rfl⟩
      · decide
      · decide
      · refine ⟨⟨by show (0 : Int) ≤ k; omega, by show (k : Int) < 200; omega⟩, fun hd => ?_, fun hd => ?_⟩
        · exact absurd (eq_of_take hd (by decide)) (hname f hf).ne_dot
        · exact absurd (eq_of_take hd (by decide)) (hname f hf).ne_dotdot
    · cases he

end

/-- `xcheck` accepts every image that `mkfs` builds from files that fit. -/
theorem check_main (files : List HostFile) (hcount : files.length ≤ 198) (hname : ∀ f ∈ files, f.Named)
    (hsize : ∀ f ∈ files, f.data.length ≤ MAXFILE * BSIZE) (hfit : blocksNeeded files ≤ FSSIZE) (m : Malloc)
    (hinode : ∀ i < 200, m.inuseInode i = 0) (hblock : ∀ b < 1000, m.inuseBlock b = 0) :
    ∃ img, main files = .ok img ∧ check m img = .ok () := by
  obtain ⟨img, s, fs, hok, hb, h⟩ := main_ok (by omega) (fun f hf => (hname f hf).slash) hsize hfit
  have hw := h.wellFormed
  have hfb := hb.inv.freeblock
  obtain ⟨hnodup, hmem⟩ := pointers_final hb h hcount
  have hptr : ∀ x ∈ Xcheck.pointers img (sbOf img) (tableOf img), x < 1000 := by
    intro x hx
    have := (hmem x).1 hx
    omega
  have hgt : ∀ x ∈ Xcheck.pointers img (sbOf img) (tableOf img), (sbOf img).bmapstart < x := by
    intro x hx
    have := (hmem x).1 hx
    rw [hw.sb_bmapstart]
    omega
  refine ⟨img, hok, (check_ok_iff hw (by rw [hw.sb_size]; exact hptr)).2 ⟨fun e he => events_final hb h hcount hname he,
    fun i hi => referenced_final hb h hcount hname hinode (by rwa [hw.sb_ninodes] at hi), (marked_le_one_iff hblock hptr).2 ⟨hnodup, hgt⟩,
    fun b hb' => (bitOk_marked_iff hblock hnodup hgt hb').2 ?_⟩⟩
  have hle := hb.inv.disk.owns.le
  rw [bit, hw.sb_bmapstart, h.bits b hb', decide_eq_true_iff, hmem]
  omega

def twoFiles : List HostFile := [⟨[95, 99, 97, 116], [List.replicate 512 1, List.replicate 88 2]⟩, ⟨[82, 69, 65, 68, 77, 69], []⟩]

theorem check_main_twoFiles : ∃ img, main twoFiles = .ok img ∧ check ⟨fun _ => 0, fun _ => 0⟩ img = .ok () := by
  refine check_main twoFiles (by decide) ?_ ?_ (by decide +kernel) _ (fun _ _ => rfl) fun _ _ => rfl
  · intro f hf
    rcases List.mem_pair.1 hf with rfl | rfl
    · exact ⟨by decide, by decide, by decide, by decide⟩
    · exact ⟨by decide, by decide, by decide, by decide⟩
  · decide +kernel

end Ostep.Fs.Mkfs
