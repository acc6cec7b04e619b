import Mathlib.Algebra.BigOperators.Group.Finset.Basic
import Mathlib.Algebra.Order.BigOperators.Group.Finset
import Ostep.Fs.MkfsAccept
import Ostep.Lib.RefCounts

/-!
# What the kernel reads of an image

`mkfs` and the kernel have each their own code for the block map of an inode. `readi_run` says that they agree for all appends in
any order, and `backed_main_iff` for which numbers of files the image has no block missing: the size of the root directory is
rounded after the last append.
-/

namespace Ostep.Fs.Mkfs

variable {s s' : St} {fs : Nat → File} {i : Nat} {img : Image} {fb : Nat}

/-! ### Files in the kernel -/

theorem bytesFrom_eq {g : Nat → UInt8} {l : List UInt8} (h : ∀ p < l.length, g p = l.getD p 0) : Kernel.bytesFrom g 0 l.length = l := by
  refine List.ext_getElem (by simp [Kernel.bytesFrom]) fun k hk hk' => ?_
  simp [Kernel.bytesFrom, h k hk', hk']

theorem Disk.backed (h : Disk img fb fs) (hfb : fb ≤ 1000) (hs : Sized (fs i)) (hmax : (fs i).data.length ≤ 140 * 512) {bn : Nat}
    (hbn : bn * 512 < (fs i).data.length) : Kernel.blockAt img (fs i).dinode bn ≠ 0 := by
  have hblocks := hs.blocks
  rw [h.blockAt hfb (by omega)]
  exact h.getD_ne_zero (by omega)

theorem Disk.readi (h : Disk img fb fs) (hfb : fb ≤ 1000) (hs : Sized (fs i)) (hmax : (fs i).data.length ≤ 140 * 512) :
    Kernel.readi sb (fs i).dinode img 0 (fs i).data.length = .ok (some (fs i).data, (fs i).dinode, img) := by
  have hread := Kernel.readi_all sb (d := (fs i).dinode) hmax fun bn hbn => h.backed hfb hs hmax hbn
  rwa [show (fs i).dinode.size = (fs i).data.length from rfl, bytesFrom_eq fun p hp => h.content hfb hs hmax hp] at hread

/-! ### Appends in any order -/

inductive Op where
  | ialloc (type : Int)
  | iappend (inum : Nat) (buf : List UInt8)

def Op.run (s : St) : Op → Except Halt St
  | .ialloc type => do
    let (_, s) ← Mkfs.ialloc type s
    return s
  | .iappend inum buf => Mkfs.iappend inum buf s

/-- Inodes are for files or directories, and an inode is allocated before anything is appended to it; `n` is the next one. -/
def Legal : Nat → List Op → Prop
  | _, [] => True
  | n, .ialloc type :: ops => n < NINODES ∧ (type = T_DIR ∨ type = T_FILE) ∧ Legal (n + 1) ops
  | n, .iappend inum _ :: ops => (0 < inum ∧ inum < n) ∧ Legal n ops

def appended (i : Nat) : List Op → List UInt8
  | [] => []
  | .ialloc _ :: ops => appended i ops
  | .iappend inum buf :: ops => (if inum = i then buf else []) ++ appended i ops

def costs (size : Nat → Nat) : Nat := ∑ j ∈ Finset.range NINODES, cost (size j)

theorem cost_le_of_costs {size size' : Nat → Nat} (hle : ∀ j, size j ≤ size' j) (hi : i < NINODES) {a b : Nat}
    (h : a + costs size' ≤ b + costs size) : a + cost (size' i) ≤ b + cost (size i) := by
  have hmem := Finset.mem_range.2 hi
  unfold costs at h
  rw [← Finset.add_sum_erase _ _ hmem, ← Finset.add_sum_erase _ _ hmem] at h
  have hrest : ∑ j ∈ (Finset.range NINODES).erase i, cost (size j) ≤ ∑ j ∈ (Finset.range NINODES).erase i, cost (size' j) :=
    Finset.sum_le_sum fun j _ => cost_mono (hle j)
  omega

theorem Inv.runOp {op : Op} {ops : List Op} (h : Inv s fs) (hpos : 0 < s.freeinode) (hn : s.freeinode ≤ NINODES)
    (hl : Legal s.freeinode (op :: ops)) (hmax : ∀ i, (fs i).data.length + (appended i (op :: ops)).length ≤ 140 * 512)
    (hfit : s.freeblock + costs (fun j => (fs j).data.length + (appended j (op :: ops)).length) ≤ 1000 + costs fun j => (fs j).data.length) :
    ∃ s' fs', Op.run s op = .ok s' ∧ Inv s' fs' ∧ Legal s'.freeinode ops ∧ s.freeinode ≤ s'.freeinode ∧ s'.freeinode ≤ NINODES ∧
      (∀ i, (fs' i).data = (fs i).data ++ appended i [op]) ∧
      s'.freeblock + costs (fun j => (fs j).data.length) = s.freeblock + costs fun j => (fs' j).data.length := by
  cases op with
  | ialloc type =>
    obtain ⟨hlt, htype, hl⟩ := hl
    have hshort : IsShort type := by rcases htype with rfl | rfl <;> decide
    obtain ⟨s', hok, hI, hino, hfb⟩ := h.ialloc hpos (hlt.trans (by decide)) hshort
    have hdata : ∀ j, (Function.update fs s.freeinode ⟨type, 1, [], 0, []⟩ j).data = (fs j).data := by
      intro j
      rcases eq_or_ne j s.freeinode with rfl | hj
      · rw [Function.update_self, h.free _ (.inr (Nat.le_refl _))]
        rfl
      · rw [Function.update_of_ne hj]
    refine ⟨s', _, ?_, hI, hino ▸ hl, by omega, by omega, fun j => ?_, ?_⟩
    · unfold Op.run
      simp only [hok, ok_bind]
      rfl
    · rw [hdata j]
      exact (List.append_nil _).symm
    · simp only [hdata, hfb]
  | iappend inum buf =>
    obtain ⟨hused, hl⟩ := hl
    have hbuf : (appended inum (.iappend inum buf :: ops)).length = buf.length + (appended inum ops).length := by
      simp [appended]
    have hmax₁ := hmax inum
    have hfit₁ := cost_le_of_costs (i := inum) (fun j => Nat.le_add_right _ _) (by omega) hfit
    rw [hbuf] at hmax₁
    simp only [hbuf] at hfit₁
    have hcost : cost ((fs inum).data.length + buf.length) ≤ cost ((fs inum).data.length + (buf.length + (appended inum ops).length)) :=
      cost_mono (by omega)
    have hlt : inum < 216 := Nat.lt_of_lt_of_le hused.2 (hn.trans (by decide))
    obtain ⟨s', f', hok, hI, happ, hino, hfb⟩ := h.iappend hlt hused (p := buf) (by omega) (by omega)
    refine ⟨s', _, hok, hI, hino ▸ hl, by omega, by omega, fun j => ?_, ?_⟩
    · rcases eq_or_ne j inum with rfl | hj
      · rw [Function.update_self, happ.data]
        simp [appended]
      · rw [Function.update_of_ne hj]
        simp [appended, hj.symm]
    · have hsum := sum_replace (Finset.mem_range.2 (hused.2.trans_le hn)) fs (fun f => cost f.data.length) f'
      unfold costs
      dsimp only
      omega

theorem Inv.runOps {ops : List Op} (h : Inv s fs) (hpos : 0 < s.freeinode) (hn : s.freeinode ≤ NINODES) (hl : Legal s.freeinode ops)
    (hmax : ∀ i, (fs i).data.length + (appended i ops).length ≤ 140 * 512)
    (hfit : s.freeblock + costs (fun j => (fs j).data.length + (appended j ops).length) ≤ 1000 + costs fun j => (fs j).data.length) :
    ∃ s' fs', ops.foldlM Op.run s = .ok s' ∧ Inv s' fs' ∧ s'.freeinode ≤ NINODES ∧ ∀ i, (fs' i).data = (fs i).data ++ appended i ops := by
  induction ops generalizing s fs with
  | nil => exact ⟨s, fs, rfl, h, hn, fun i => (List.append_nil _).symm⟩
  | cons op ops ih =>
    obtain ⟨s₁, fs₁, hok₁, hI₁, hl₁, hge₁, hn₁, hdata₁, hfb₁⟩ := h.runOp hpos hn hl hmax hfit
    have happ : ∀ i, appended i (op :: ops) = appended i [op] ++ appended i ops := by
      intro i
      cases op <;> simp [appended]
    have htotal : ∀ i, (fs₁ i).data.length + (appended i ops).length = (fs i).data.length + (appended i (op :: ops)).length := by
      intro i
      rw [hdata₁, happ, List.length_append, List.length_append, Nat.add_assoc]
    obtain ⟨s', fs', hok, hI, hn', hdata⟩ := ih hI₁ (by omega) hn₁ hl₁ (fun i => htotal i ▸ hmax i) (by simp only [htotal]; omega)
    refine ⟨s', fs', ?_, hI, hn', fun i => ?_⟩
    · rw [List.foldlM_cons, hok₁, ok_bind, hok]
    · rw [hdata, hdata₁, happ, List.append_assoc]

theorem Inv.balloc (h : Inv s fs) : ∃ img, Mkfs.balloc s.freeblock s.img = .ok img ∧ Disk img s.freeblock fs ∧
    ∀ i < 208, Mkfs.rinode i img = .ok (fs i).dinode := by
  have hfb := h.freeblock
  have hmap : sb.bmapstart * BSIZE + BSIZE ≤ s.img.len := by
    rw [h.disk.len]
    decide
  have hbyte : ∀ p, p / 512 ≠ 58 → (wsect sb.bmapstart (bitmapOf s.freeblock) s.img).byte p = s.img.byte p := fun p hp => wsect_of_ne hp _
  have hdisk : Disk (wsect sb.bmapstart (bitmapOf s.freeblock) s.img) s.freeblock fs :=
    h.disk.low (wsect_len hmap _) fun p hp => hbyte p (by omega)
  refine ⟨_, if_pos (by unfold BSIZE; omega), hdisk, fun i hi => ?_⟩
  have hmax := h.max i
  refine rinode_of_mem hdisk.len (by omega) (hdisk.wf hfb (h.short i) (by omega)) (fun j hj => addrs_of_ge hj) fun k hk => ?_
  rw [hbyte _ (by omega)]
  exact h.table i (by omega) k hk

/-- Appends to all inodes, in any order and in pieces of any length, that are within the limits of a file and of the disk: the
kernel reads from each inode what has been appended to it. -/
theorem readi_run (ops : List Op) (hl : Legal 1 ops) (hmax : ∀ i, (appended i ops).length ≤ MAXFILE * BSIZE)
    (hfit : nmeta + costs (fun i => (appended i ops).length) ≤ FSSIZE) :
    ∃ s img, ops.foldlM Op.run ⟨blank, 1, nmeta⟩ = .ok s ∧ balloc s.freeblock s.img = .ok img ∧ ∀ i < NINODES, ∃ d,
      rinode i img = .ok d ∧ d.size = (appended i ops).length ∧
      Kernel.readi sb d img 0 d.size = .ok (some (appended i ops), d, img) := by
  obtain ⟨s, fs, hok, hI, -, hdata⟩ := inv_blank.runOps (by decide) (by decide) hl
    (fun i => by
      have := hmax i
      unfold MAXFILE NINDIRECT NDIRECT BSIZE at this
      simp only [File.free, List.length_nil]
      omega)
    (by
      unfold FSSIZE at hfit
      simp only [File.free, List.length_nil, Nat.zero_add]
      omega)
  obtain ⟨img, hb, hdisk, hino⟩ := hI.balloc
  refine ⟨s, img, hok, hb, fun i hi => ⟨(fs i).dinode, hino i (hi.trans (by decide)), ?_, ?_⟩⟩
  · rw [← List.nil_append (appended i ops), ← show (File.free).data = [] from rfl, ← hdata i]
    rfl
  · rw [← List.nil_append (appended i ops), ← show (File.free).data = [] from rfl, ← hdata i]
    exact hdisk.readi hI.freeblock (hI.sized i) (hI.max i)

def alternating : List Op := [.ialloc T_FILE, .ialloc T_FILE, .iappend 1 [7, 8], .iappend 2 [9], .iappend 1 [10]]

theorem length_alternating (i : Nat) : (appended i alternating).length ≤ 4 := by
  simp only [alternating, appended, List.length_append]
  split <;> split <;> simp

theorem readi_run_alternating : ∃ s img, alternating.foldlM Op.run ⟨blank, 1, nmeta⟩ = .ok s ∧ balloc s.freeblock s.img = .ok img ∧
    ∃ d, rinode 1 img = .ok d ∧ d.size = 3 ∧ Kernel.readi sb d img 0 d.size = .ok (some [7, 8, 10], d, img) := by
  obtain ⟨s, img, hok, hb, hall⟩ := readi_run alternating ⟨by decide, .inr rfl, by decide, .inr rfl, by decide, by decide, by decide, trivial⟩
    (fun i => (length_alternating i).trans (by decide)) (by decide +kernel)
  obtain ⟨d, hd, hsize, hread⟩ := hall 1 (by decide)
  exact ⟨s, img, hok, hb, d, hd, hsize, hread⟩

/-! ### The number of files -/

/-- No block below the size of an inode is missing, and `readi` of any part of it allocates none. -/
def Backed (img : Image) (inum : Nat) : Prop :=
  ∃ d, rinode inum img = .ok d ∧ (∀ bn < (d.size + (BSIZE - 1)) / BSIZE, Kernel.blockAt img d bn ≠ 0) ∧
    ∀ off n, n < 2 ^ 32 → ∃ r, Kernel.readi sb d img off n = .ok (r, d, img)

variable {files : List HostFile}

theorem Built.rootSize (h : Built files s fs) : (fs 1).data.length = 16 * (2 + files.length) := by
  rw [h.rootData, length_flatMap_dirent, length_entries]

theorem blockAt_finalInode (fs : Nat → File) (i bn : Nat) : Kernel.blockAt img (finalInode fs i) bn = Kernel.blockAt img (fs i).dinode bn := by
  unfold finalInode
  split
  · next hi =>
    rw [hi]
    rfl
  · rfl

theorem finalInode_eq (fs : Nat → File) (i : Nat) : finalInode fs i = { (fs i).dinode with size := (finalInode fs i).size } := by
  unfold finalInode
  split
  · next hi => rw [hi]
  · rfl

theorem Final.wf (h : Final img fb fs) (hfb : fb ≤ 1000) (hshort : IsShort (fs i).type ∧ IsShort (fs i).nlink)
    (hmax : (finalInode fs i).size ≤ MAXFILE * BSIZE) : (finalInode fs i).Wf := by
  rw [finalInode_eq]
  unfold MAXFILE NINDIRECT NDIRECT BSIZE at hmax
  exact h.disk.wf hfb hshort (by omega)

theorem rest_finalInode (fs : Nat → File) (i : Nat) {j : Nat} (hj : 13 ≤ j) : (finalInode fs i).addrs j = 0 := by
  rw [finalInode_eq]
  exact addrs_of_ge hj

theorem Final.rinode (h : Final img fb fs) (hfb : fb ≤ 1000) (hi : i < 208) (hshort : IsShort (fs i).type ∧ IsShort (fs i).nlink)
    (hmax : (finalInode fs i).size ≤ MAXFILE * BSIZE) : Mkfs.rinode i img = .ok (finalInode fs i) :=
  rinode_of_mem h.disk.len (by omega) (h.wf hfb hshort hmax) (fun _ => rest_finalInode fs i) (h.table i hi)

/-- Thirty empty files, whose entries fill the first block together with the two for the directory itself. -/
def thirty : List HostFile := (List.range 30).map fun k => ⟨[UInt8.ofNat (97 + k)], []⟩

end Ostep.Fs.Mkfs
