import Ostep.Fs.MkfsTree

/-!
# Link counts of files

In runs of calls that make no entry in a directory that has been removed, and remove no parent of such a directory, the link count of
a file that is not open is the number of its entries (`nlink_calls`). A file that is made in a directory that has been removed is lost
when the directory is freed (`nlink_lost`).
-/

namespace Ostep.Fs.Mkfs

open Kernel (Call Sys boot callStep CallOk treeOf)

variable {files : List HostFile} {img : Image} {n i : Nat} {l : List (Nat × Call)} {s : Sys}

/-- From an image of `mkfs` on, a file that is not open has an entry, and as many as its link count says. -/
theorem nlink_calls (hcount : files.length ≤ 198) (hround : (files.length + 2) % 32 ≠ 0) (hok : main files = .ok img)
    (hcalls : Along (callStep sb) (CallOk sb) (boot n img) l) (hrun : run (callStep sb) (boot n img) l = some s)
    (hfile : (treeOf sb s.world.img i).type = T_FILE) (hopen : ∀ k ∈ s.files, (s.world.inode k).inum ≠ i) :
    (treeOf sb s.world.img i).nlink = links sb.ninodes (treeOf sb s.world.img) i ∧ 0 < links sb.ninodes (treeOf sb s.world.img) i := by
  have hinv := hcalls.inv (fun s a s' (h : Kernel.SysOk sb s) ha hstep => h.step ha hstep) (sysOk_boot hcount hround hok n) hrun
  exact hinv.links hfile hopen

/-! ### Runs from the image without files -/

/-- The disk before the first write, without the writes that clear its blocks. -/
theorem blank_eq : blank = ⟨1000 * 512, fun p => if p / 512 = 1 ∧ p % 512 < 28 then sb.mem (p % 512) else 0⟩ := by
  have hfields : ∀ img : Image, img = ⟨img.len, img.byte⟩ := fun _ => rfl
  rw [hfields blank, blank_len, funext blank_byte]

theorem run_of_toOption {g : Image → Sys → α} {x : α}
    (h : ((main []).toOption.bind fun img => (run (callStep sb) (boot n img) l).map (g img)) = some x) :
    ∃ img s, main [] = .ok img ∧ run (callStep sb) (boot n img) l = some s ∧ g img s = x := by
  obtain ⟨img, himg, hmap⟩ := Option.bind_eq_some_iff.1 h
  obtain ⟨s, hs, hx⟩ := Option.map_eq_some_iff.1 hmap
  refine ⟨img, s, ?_, hs, hx⟩
  cases hmain : main [] with
  | ok img' =>
    rw [hmain] at himg
    exact congrArg Except.ok (Option.some.inj himg)
  | error e =>
    rw [hmain] at himg
    cases himg

def twoLinks : List (Nat × Call) :=
  [(0, .mkdir [97]), (0, .openCreate [97, 47, 102]), (1, .link [97, 47, 102] [103]), (0, .close 0)]

theorem nlink_calls_twoLinks : ∃ img s, main [] = .ok img ∧ run (callStep sb) (boot 2 img) twoLinks = some s ∧
    (treeOf sb s.world.img 3).type = T_FILE ∧ (treeOf sb s.world.img 3).nlink = links sb.ninodes (treeOf sb s.world.img) 3 ∧
    0 < links sb.ninodes (treeOf sb s.world.img) 3 := by
  have hval : ((main []).toOption.bind fun img => (run (callStep sb) (boot 2 img) twoLinks).map fun s =>
      (decide (Along (callStep sb) (CallOk sb) (boot 2 img) twoLinks), (treeOf sb s.world.img 3).type, s.files)) = some (true, T_FILE, []) := by
    unfold main
    rw [blank_eq]
    decide +kernel
  obtain ⟨img, s, hok, hs, hend⟩ := run_of_toOption hval
  simp only [Prod.mk.injEq, decide_eq_true_eq] at hend
  obtain ⟨hcalls, htype, hfiles⟩ := hend
  exact ⟨img, s, hok, hs, htype, nlink_calls (by decide) (by decide) hok hcalls hs htype (by rw [hfiles]; rintro _ ⟨⟩)⟩

/-- A file is made in a directory that has been removed. -/
def lost : List (Nat × Call) :=
  [(0, .mkdir [97]), (0, .chdir [97]), (0, .unlink [47, 97]), (0, .openCreate [102]), (0, .close 0), (0, .chdir [47])]

/-- The directory is freed, and the file stays in use with link count 1 and no entry. -/
theorem nlink_lost : ∃ img s, main [] = .ok img ∧ run (callStep sb) (boot 1 img) lost = some s ∧ (treeOf sb s.world.img 3).type = T_FILE ∧
    s.files = [] ∧ (treeOf sb s.world.img 3).nlink = 1 ∧ links sb.ninodes (treeOf sb s.world.img) 3 = 0 := by
  have hval : ((main []).toOption.bind fun img => (run (callStep sb) (boot 1 img) lost).map fun s => ((treeOf sb s.world.img 3).type, s.files,
      (treeOf sb s.world.img 3).nlink, links sb.ninodes (treeOf sb s.world.img) 3)) = some (T_FILE, [], 1, 0) := by
    unfold main
    rw [blank_eq]
    decide +kernel
  obtain ⟨img, s, hok, hs, hend⟩ := run_of_toOption hval
  simp only [Prod.mk.injEq] at hend
  exact ⟨img, s, hok, hs, hend⟩

/-! ### What the calls keep -/

/-- Calls on an image of `mkfs` have led to the state `s` with the tree `T`. -/
structure Reached (files : List HostFile) (l : List (Nat × Call)) (s : Sys) (T : Nat → Node) : Prop where
  count : files.length ≤ 198
  round : (files.length + 2) % 32 ≠ 0
  calls : ∃ img n, main files = .ok img ∧ Along (callStep sb) (CallOk sb) (boot n img) l ∧ run (callStep sb) (boot n img) l = some s
  tree : treeOf sb s.world.img = T

variable {T : Nat → Node}

theorem Reached.sysOk (h : Reached files l s T) : Kernel.SysOk sb s := by
  obtain ⟨img, n, hok, hcalls, hrun⟩ := h.calls
  exact hcalls.inv (fun _ _ _ hs ha hstep => Kernel.SysOk.step hs ha hstep) (sysOk_boot h.count h.round hok n) hrun

theorem Reached.treeOk (h : Reached files l s T) : TreeOk sb.ninodes T (Kernel.HeldBy s.world s.refs) := h.tree ▸ h.sysOk.settled.tree

theorem reached_twoLinks : ∃ s T p w, Reached [] twoLinks s T ∧ (T 2).type = T_DIR ∧ some p ∈ s.procs ∧
    Kernel.namei sb p.cwd [97, 47, 102] s.world = .ok (some 2, w) := by
  have hval : ((main []).toOption.bind fun img => (run (callStep sb) (boot 2 img) twoLinks).map fun s =>
      (decide (Along (callStep sb) (CallOk sb) (boot 2 img) twoLinks), (treeOf sb s.world.img 2).type,
        s.procs[0]?.join.bind fun p => (Kernel.namei sb p.cwd [97, 47, 102] s.world).toOption.map Prod.fst)) =
      some (true, T_DIR, some (some 2)) := by
    unfold main
    rw [blank_eq]
    decide +kernel
  obtain ⟨img, s, hok, hs, hend⟩ := run_of_toOption hval
  simp only [Prod.mk.injEq, decide_eq_true_eq] at hend
  obtain ⟨hcalls, htype, hnamei⟩ := hend
  obtain ⟨p, hp, hfound⟩ := Option.bind_eq_some_iff.1 hnamei
  cases hres : Kernel.namei sb p.cwd [97, 47, 102] s.world with
  | error e =>
    rw [hres] at hfound
    cases hfound
  | ok r =>
    obtain ⟨ip, w⟩ := r
    rw [hres] at hfound
    cases hfound
    exact ⟨s, _, p, w, ⟨by decide, by decide, ⟨img, 2, hok, hcalls, hs⟩, rfl⟩, htype,
      List.mem_of_getElem? (Option.join_eq_some_iff.1 hp), hres⟩

/-- A directory begins with `.` and `..`. Until it is removed it has one entry, in its parent, or none if it is the root, and counts
its subdirectories; then it is empty. -/
theorem directories_of_reached (h : Reached files l s T) (hdir : (T i).type = T_DIR) :
    (∃ p, (T i).slots.take 2 = [some ([46], i), some ([46, 46], p)] ∧ (T p).type = T_DIR ∧ (T p).nlink ≠ 0) ∧
    (∀ d, (T d).rest i = if IsSubdir T d i then 1 else 0) ∧
    if (T i).nlink = 0 then ∀ x, (T i).rest x = 0 else (T i).nlink = 1 + subdirs sb.ninodes T i := by
  have hnode := h.treeOk.node i
  refine ⟨hnode.dots hdir, hnode.entry hdir, ?_⟩
  split
  · next h0 => exact hnode.empty hdir h0
  · next h0 => exact hnode.dirLinks hdir h0

theorem directories_of_reached_twoLinks : ∃ s T, Reached [] twoLinks s T ∧ (T 2).type = T_DIR ∧ ∀ d, (T d).rest 2 = if IsSubdir T d 2 then 1 else 0 := by
  obtain ⟨s, T, p, w, h, hdir, -⟩ := reached_twoLinks
  exact ⟨s, T, h, hdir, (directories_of_reached h hdir).2.1⟩

/-- No slot names a free inode, and an inode in use without links is open or the current directory of a process. -/
theorem inUse_of_reached (h : Reached files l s T) : (∀ d (j : Nat) name i, (T d).slots[j]? = some (some (name, i)) → (T i).type ≠ 0) ∧
    ∀ i, (T i).type ≠ 0 → (T i).nlink = 0 →
      ∃ k, (s.world.inode k).inum = i ∧ ((∃ p, some p ∈ s.procs ∧ p.cwd = k) ∨ k ∈ s.files) := by
  refine ⟨fun d j name i hj => h.treeOk.named hj, fun i hi h0 => ?_⟩
  obtain ⟨k, hpos, hinum, -⟩ := h.treeOk.held i hi h0
  exact ⟨k, hinum, Kernel.Sys.refs_pos hpos⟩

theorem inUse_of_reached_twoLinks : ∃ s T, Reached [] twoLinks s T ∧
    ∀ d (j : Nat) name i, (T d).slots[j]? = some (some (name, i)) → (T i).type ≠ 0 := by
  obtain ⟨s, T, p, w, h, -⟩ := reached_twoLinks
  exact ⟨s, T, h, (inUse_of_reached h).1⟩

/-- The blocks of the inodes in use are marked and pairwise distinct, and none is missing. -/
theorem consistent_of_reached (h : Reached files l s T) : Kernel.Consistent sb (Kernel.diskInodes sb s.world.img) :=
  h.sysOk.settled.good.consistent

theorem consistent_of_reached_twoLinks : ∃ s T, Reached [] twoLinks s T ∧ Kernel.Consistent sb (Kernel.diskInodes sb s.world.img) := by
  obtain ⟨s, T, p, w, h, -⟩ := reached_twoLinks
  exact ⟨s, T, h, consistent_of_reached h⟩

/-- The count of a slot of the inode cache is that of the current directories and open files in it. Slots in use hold different inodes,
as they are on the disk. -/
theorem icache_of_reached (h : Reached files l s T) :
    (∀ k, (s.world.inode k).ref = s.refs k) ∧
    (∀ k k', 0 < (s.world.inode k).ref → 0 < (s.world.inode k').ref → (s.world.inode k).inum = (s.world.inode k').inum → k = k') ∧
    ∀ k, 0 < (s.world.inode k).ref → k < Kernel.NINODE ∧
      ((s.world.inode k).valid = true → (s.world.inode k).d = (Kernel.diskInodes sb s.world.img).inode (s.world.inode k).inum) := by
  have hset := h.sysOk.settled
  exact ⟨congrFun hset.refs, hset.inj, fun k hk => ⟨(hset.slot k hk).bound, (hset.slot k hk).fresh⟩⟩

theorem icache_of_reached_twoLinks : ∃ s T, Reached [] twoLinks s T ∧
    ∀ k, (s.world.inode k).ref = s.refs k := by
  obtain ⟨s, T, p, w, h, -⟩ := reached_twoLinks
  exact ⟨s, T, h, (icache_of_reached h).1⟩

/-- A completed `namei` of a process finds the inode that the path leads to in the tree, or nothing where it leads nowhere. -/
theorem namei_of_reached {p : Kernel.Proc} {path : List UInt8} {ip : Option Nat} {w : Kernel.World} (h : Reached files l s T)
    (hp : some p ∈ s.procs) (hok : Kernel.namei sb p.cwd path s.world = .ok (ip, w)) :
    ip.map (fun k => (w.inode k).inum) = goTo T (Kernel.startOf s.world p.cwd path) (Kernel.elements path) ∧ treeOf sb w.img = T := by
  rw [← h.tree]
  exact h.sysOk.namei hp hok

theorem namei_of_reached_twoLinks : ∃ s T p w, Reached [] twoLinks s T ∧ some p ∈ s.procs ∧
    Kernel.namei sb p.cwd [97, 47, 102] s.world = .ok (some 2, w) ∧
    some (w.inode 2).inum = goTo T (Kernel.startOf s.world p.cwd [97, 47, 102]) [[97], [102]] := by
  obtain ⟨s, T, p, w, h, -, hp, hok⟩ := reached_twoLinks
  exact ⟨s, T, p, w, h, hp, hok, (namei_of_reached h hp hok).1⟩

end Ostep.Fs.Mkfs
