import Mathlib.Algebra.BigOperators.Ring.Finset
import Ostep.Fs.Dir
import Ostep.Fs.Icache
import Ostep.Fs.MkfsSpec
import Ostep.Fs.Tree
import Ostep.Fs.Trunc

/-!
# The tree on a disk

`treeOf` reads the inodes of a disk and the slots of its directories. Each write of the calls on paths changes one inode of it
(`Rewritten`): `iupdate` its link count, `writei` a slot of a directory, and `ialloc` and `iput` make an inode and free it.
-/

namespace Ostep.Fs.Kernel

variable {sb : SuperBlock} {img img' : Image} {d d' : DInode} {i j k : Nat}

def diskInodes (sb : SuperBlock) (img : Image) : State where
  inode := fun i => if i < sb.ninodes then dinodeOn img (inodePos sb i) else .zero
  img := img

/-- An inode in use as a node of the tree. -/
def nodeOf (img : Image) (d : DInode) : Node where
  type := d.type
  nlink := d.nlink
  slots := if d.type = T_DIR then slotsIn (data img d) else []

def treeOf (sb : SuperBlock) (img : Image) (i : Nat) : Node :=
  if (diskInodes sb img).Used sb i then nodeOf img ((diskInodes sb img).inode i) else .free

/-- A disk of at most 1000 blocks, with its directories cut into slots. -/
structure Good (sb : SuperBlock) (img : Image) : Prop where
  size_le : sb.size ≤ 1000
  ninodes_le : sb.ninodes ≤ 2 ^ 14
  consistent : Consistent sb (diskInodes sb img)
  aligned : ∀ i, ((diskInodes sb img).inode i).type = T_DIR → ((diskInodes sb img).inode i).size % 16 = 0
  zero : ((diskInodes sb img).inode 0).type = 0

/-- Inode `i` has become `d'`; the others and their content are as they were. -/
structure Rewritten (sb : SuperBlock) (img : Image) (i : Nat) (d' : DInode) (img' : Image) : Prop where
  good : Good sb img'
  inodes : diskInodes sb img' = (diskInodes sb img).set i d' img'
  nodes : ∀ j, j ≠ i → treeOf sb img' j = treeOf sb img j

theorem inodePos_eq (sb : SuperBlock) (i : Nat) : inodePos sb i = sb.inodestart * 512 + i * 64 := by
  unfold inodePos IBLOCK IPB BSIZE
  omega

theorem nodeOf_empty (hsize : d.size = 0) (img : Image) : nodeOf img d = ⟨d.type, d.nlink, []⟩ := by
  have hnil : slotsIn (data img d) = [] := List.length_eq_zero_iff.1 (by rw [length_slotsIn, length_data, hsize])
  rw [nodeOf, hnil, ite_self]

theorem treeOf_of_used (hu : (diskInodes sb img).Used sb i) : treeOf sb img i = nodeOf img ((diskInodes sb img).inode i) := if_pos hu

theorem type_treeOf (sb : SuperBlock) (img : Image) (i : Nat) : (treeOf sb img i).type = ((diskInodes sb img).inode i).type := by
  unfold treeOf
  split
  · rfl
  · next hu =>
    by_cases hi : i < sb.ninodes
    · have h0 : ((diskInodes sb img).inode i).type = 0 := not_not.1 fun hne => hu ⟨hi, hne⟩
      exact h0.symm
    · show Node.free.type = (if i < sb.ninodes then dinodeOn img (inodePos sb i) else DInode.zero).type
      rw [if_neg hi]
      rfl

theorem used_iff : (diskInodes sb img).Used sb i ↔ (treeOf sb img i).type ≠ 0 := by
  rw [type_treeOf]
  refine ⟨fun hu => hu.2, fun hne => ⟨?_, hne⟩⟩
  by_contra hi
  refine hne ?_
  show (if i < sb.ninodes then dinodeOn img (inodePos sb i) else DInode.zero).type = 0
  rw [if_neg hi]
  rfl

theorem slots_treeOf (hdir : (treeOf sb img i).type = T_DIR) :
    (treeOf sb img i).slots = slotsIn (data img ((diskInodes sb img).inode i)) := by
  have hu : (diskInodes sb img).Used sb i := used_iff.2 (dir_ne_zero hdir)
  rw [type_treeOf] at hdir
  rw [treeOf_of_used hu]
  exact if_pos hdir

theorem wf_dinodeOn (img : Image) (p : Nat) : (dinodeOn img p).Wf := by
  have hshort : ∀ n, IsShort (toInt16 n) := fun n => by
    unfold IsShort toInt16
    split <;> omega
  have huint : ∀ p, uintAt img p < 2 ^ 32 := fun p => by
    have h0 := (img.byte p).toNat_lt
    have h1 := (img.byte (p + 1)).toNat_lt
    have h2 := (img.byte (p + 2)).toNat_lt
    have h3 := (img.byte (p + 3)).toNat_lt
    unfold uintAt
    omega
  refine ⟨hshort _, hshort _, hshort _, hshort _, huint _, fun j hj => ?_⟩
  show (if j < NDIRECT + 1 then uintAt img (p + 12 + j * 4) else 0) < 2 ^ 32
  split
  · exact huint _
  · decide

theorem dinodeOn_mem (hwf : d.Wf) (hrest : ∀ j ≥ 13, d.addrs j = 0) {p : Nat} (h : ∀ k < 64, img.byte (p + k) = d.mem k) : dinodeOn img p = d :=
  (Mkfs.dinodeOf_mem hwf hrest h : Mkfs.dinodeOf img.byte p = d)

theorem xshort_shortOn (img : Image) (p : Nat) (hk : k < 2) : xshort (shortOn img p) k = img.byte (p + k) := by
  have h0 := (img.byte p).toNat_lt
  have h1 := (img.byte (p + 1)).toNat_lt
  have hval : toUint16 (shortOn img p) = (img.byte p).toNat + 2 ^ 8 * (img.byte (p + 1)).toNat := by
    unfold toUint16 shortOn toInt16
    split <;> omega
  refine UInt8.toNat_inj.1 ?_
  rw [xshort, hval, byteOf_toNat]
  rcases (by omega : k = 0 ∨ k = 1) with rfl | rfl
  · show _ = (img.byte p).toNat
    omega
  · omega

theorem xint_uintAt (img : Image) (p : Nat) (hk : k < 4) : xint (uintAt img p) k = img.byte (p + k) := by
  have h0 := (img.byte p).toNat_lt
  have h1 := (img.byte (p + 1)).toNat_lt
  have h2 := (img.byte (p + 2)).toNat_lt
  have h3 := (img.byte (p + 3)).toNat_lt
  refine UInt8.toNat_inj.1 ?_
  rw [xint, uintAt, byteOf_toNat]
  rcases (by omega : k = 0 ∨ k = 1 ∨ k = 2 ∨ k = 3) with rfl | rfl | rfl | rfl
  · show _ = (img.byte p).toNat
    omega
  all_goals omega

theorem mem_dinodeOn (img : Image) (p : Nat) (hk : k < 64) : (dinodeOn img p).mem k = img.byte (p + k) := by
  rcases Nat.lt_or_ge k 8 with h8 | h8
  · have hshort : ∀ w < 4, (dinodeOn img p).short w = shortOn img (p + 2 * w) := by
      intro w hw
      rcases (by omega : w = 0 ∨ w = 1 ∨ w = 2 ∨ w = 3) with rfl | rfl | rfl | rfl <;> rfl
    obtain ⟨w, r, hr, rfl⟩ : ∃ w r, r < 2 ∧ k = 2 * w + r := ⟨k / 2, k % 2, by omega, by omega⟩
    rw [DInode.mem_short _ w hr (by omega), hshort w (by omega), xshort_shortOn img _ hr, Nat.add_assoc]
  rcases Nat.lt_or_ge k 12 with h12 | h12
  · obtain ⟨r, hr, rfl⟩ : ∃ r, r < 4 ∧ k = 8 + r := ⟨k - 8, by omega, by omega⟩
    rw [DInode.mem_size _ hr, ← Nat.add_assoc]
    exact xint_uintAt img (p + 8) hr
  · obtain ⟨j, r, hr, rfl⟩ : ∃ j r, r < 4 ∧ k = 12 + j * 4 + r := ⟨(k - 12) / 4, (k - 12) % 4, by omega, by omega⟩
    have haddr : (dinodeOn img p).addrs j = uintAt img (p + (12 + j * 4)) := by
      rw [← Nat.add_assoc]
      exact if_pos (by unfold NDIRECT; omega)
    rw [DInode.mem_addr _ j hr, haddr, xint_uintAt img _ hr, Nat.add_assoc]

theorem onDisk_diskInodes (hi : i < sb.ninodes) : OnDisk sb i ((diskInodes sb img).inode i) img := by
  intro k hk
  show img.byte (inodePos sb i + k) = (if i < sb.ninodes then dinodeOn img (inodePos sb i) else DInode.zero).mem k
  rw [if_pos hi, mem_dinodeOn img _ hk]

theorem rest_dinodeOn (img : Image) (p : Nat) {j : Nat} (hj : 13 ≤ j) : (dinodeOn img p).addrs j = 0 := if_neg (by unfold NDIRECT; omega)

theorem dinodeOn_congr {p : Nat} (h : ∀ k < 64, img'.byte (p + k) = img.byte (p + k)) : dinodeOn img' p = dinodeOn img p :=
  dinodeOn_mem (wf_dinodeOn img p) (fun _ => rest_dinodeOn img p) fun k hk => by rw [h k hk, mem_dinodeOn img p hk]

theorem diskInodes_rewrite (hlow : ∀ j < sb.ninodes, IBLOCK j sb < sb.bmapstart) (hi : i < sb.ninodes) (hwf : d'.Wf)
    (hrest : ∀ j ≥ 13, d'.addrs j = 0) (hon : OnDisk sb i d' img') (hkept : InodesKept sb img i img') :
    diskInodes sb img' = (diskInodes sb img).set i d' img' := by
  have heq : (diskInodes sb img').inode = Function.update (diskInodes sb img).inode i d' := by
    funext j
    rcases eq_or_ne j i with rfl | hj
    · rw [Function.update_self]
      show (if j < sb.ninodes then dinodeOn img' (inodePos sb j) else .zero) = d'
      rw [if_pos hi]
      exact dinodeOn_mem hwf hrest hon
    · rw [Function.update_of_ne hj]
      show (if j < sb.ninodes then dinodeOn img' (inodePos sb j) else DInode.zero) = if j < sb.ninodes then dinodeOn img (inodePos sb j) else .zero
      split
      · next hjn =>
        refine dinodeOn_congr fun k hk => hkept _ ?_ ?_
        · have := hlow j hjn
          unfold inodePos IPB BSIZE at *
          omega
        · rw [inodePos_eq, inodePos_eq]
          omega
      · rfl
  show (⟨(diskInodes sb img').inode, img'⟩ : State) = ⟨Function.update (diskInodes sb img).inode i d', img'⟩
  rw [heq]

theorem Good.rewrite (h : Good sb img) (hi : i < sb.ninodes) (hzero : i = 0 → d'.type = 0) (hwf : d'.Wf) (hrest : ∀ j ≥ 13, d'.addrs j = 0)
    (hon : OnDisk sb i d' img') (hkept : InodesKept sb img i img') (hc : Consistent sb ((diskInodes sb img).set i d' img'))
    (hal : d'.type = T_DIR → d'.size % 16 = 0)
    (hcontent : ∀ j, j ≠ i → (diskInodes sb img).Used sb j → ∀ p < MAXFILE * BSIZE,
      content img' ((diskInodes sb img).inode j) p = content img ((diskInodes sb img).inode j) p) : Rewritten sb img i d' img' := by
  have hin := diskInodes_rewrite h.consistent.owned.inodes hi hwf hrest hon hkept
  have hself : (diskInodes sb img').inode i = d' := by rw [hin, set_self]
  have hother : ∀ j, j ≠ i → (diskInodes sb img').inode j = (diskInodes sb img).inode j := fun j hj => by rw [hin, set_of_ne hj]
  refine ⟨⟨h.size_le, h.ninodes_le, by rw [hin]; exact hc, fun j hj => ?_, ?_⟩, hin, fun j hj => ?_⟩
  · rcases eq_or_ne j i with rfl | hne
    · rw [hself] at hj ⊢
      exact hal hj
    · rw [hother j hne] at hj ⊢
      exact h.aligned j hj
  · rcases eq_or_ne 0 i with rfl | hne
    · rw [hself]
      exact hzero rfl
    · rw [hother 0 hne]
      exact h.zero
  · have hused : (diskInodes sb img').Used sb j ↔ (diskInodes sb img).Used sb j := by
      unfold State.Used
      rw [hother j hj]
    unfold treeOf
    by_cases hu : (diskInodes sb img).Used sb j
    · rw [if_pos hu, if_pos (hused.2 hu), hother j hj]
      have hdata : data img' ((diskInodes sb img).inode j) = data img ((diskInodes sb img).inode j) := by
        refine bytesFrom_congr fun p hp => hcontent j hj hu _ ?_
        have := (h.consistent.whole j hu).size_le
        omega
      unfold nodeOf
      rw [hdata]
    · rw [if_neg hu, if_neg fun hu' => hu (hused.1 hu')]

theorem Rewritten.self (h : Rewritten sb img i d' img') : (diskInodes sb img').inode i = d' := by rw [h.inodes, set_self]

theorem Rewritten.other (h : Rewritten sb img i d' img') (hj : j ≠ i) : (diskInodes sb img').inode j = (diskInodes sb img).inode j := by
  rw [h.inodes, set_of_ne hj]

theorem Rewritten.node (h : Rewritten sb img i d' img') (ht : d'.type ≠ 0) : treeOf sb img' i = nodeOf img' d' := by
  have hu : (diskInodes sb img').Used sb i := by
    rw [used_iff, type_treeOf, h.self]
    exact ht
  rw [treeOf_of_used hu, h.self]

theorem Rewritten.free (h : Rewritten sb img i d' img') (ht : d'.type = 0) : treeOf sb img' i = .free := by
  refine if_neg fun hu => hu.2 ?_
  rw [h.self, ht]

/-! ### Fields -/

/-- The fields that `bmap` and `writei` leave alone. -/
def head (d : DInode) : Int × Int × Int × Int × (Nat → Nat) := (d.type, d.major, d.minor, d.nlink, fun j => d.addrs (13 + j))

theorem head_addr {n : Nat} (hn : n < 13) (a : Nat) (d : DInode) : head { d with addrs := Function.update d.addrs n a } = head d := by
  have hrest : (fun j => Function.update d.addrs n a (13 + j)) = fun j => d.addrs (13 + j) :=
    funext fun j => Function.update_of_ne (by omega) _ _
  rw [head, hrest]
  rfl

theorem bmapEntry_dinode {bn a : Nat} (h : bmapEntry sb d img bn = .ok (a, d', img')) : d' = d := by
  unfold bmapEntry at h
  dsimp only at h
  split at h
  · obtain ⟨⟨addr, img₁⟩, -, h⟩ := bind_ok h
    cases h
    rfl
  · cases h
    rfl

theorem head_bmap {bn a : Nat} (h : bmap sb d img bn = .ok (a, d', img')) : head d' = head d := by
  have hnd : NDIRECT = 12 := rfl
  unfold bmap at h
  split at h
  · next hlt =>
    split at h
    · obtain ⟨⟨addr, img₁⟩, -, h⟩ := bind_ok h
      cases h
      exact head_addr (by omega) _ d
    · cases h
      rfl
  · split at h
    · dsimp only at h
      split at h
      · obtain ⟨⟨addr, img₁⟩, -, h⟩ := bind_ok h
        change bmapEntry sb { d with addrs := Function.update d.addrs NDIRECT addr } img₁ bn = _ at h
        rw [bmapEntry_dinode h]
        exact head_addr (by omega) addr d
      · change bmapEntry sb d img bn = _ at h
        rw [bmapEntry_dinode h]
    · cases h

theorem head_writeLoop {fuel off off' : Nat} {src : List UInt8} (h : writeLoop sb fuel d img off src = .ok (d', img', off')) : head d' = head d := by
  induction fuel generalizing d img off src with
  | zero =>
    cases h
    rfl
  | succ fuel ih =>
    rw [writeLoop] at h
    split at h
    · cases h
      rfl
    · obtain ⟨⟨addr, d₁, img₁⟩, hb, h⟩ := bind_ok h
      exact (ih h).trans (head_bmap hb)

theorem head_writei {off : Nat} {src : List UInt8} {r : Option Nat} (h : writei sb i d img src off = .ok (r, d', img')) : head d' = head d := by
  unfold writei at h
  split at h
  · cases h
    rfl
  split at h
  · cases h
    rfl
  obtain ⟨⟨d₁, img₁, off₁⟩, hl, h⟩ := bind_ok h
  have hhead : head d₁ = head d := head_writeLoop hl
  dsimp only at h
  split at h
  · cases h
    exact hhead
  · cases h
    exact hhead

theorem rest_diskInodes (sb : SuperBlock) (img : Image) (i : Nat) {j : Nat} (hj : 13 ≤ j) : ((diskInodes sb img).inode i).addrs j = 0 := by
  show (if i < sb.ninodes then dinodeOn img (inodePos sb i) else DInode.zero).addrs j = 0
  split
  · exact rest_dinodeOn _ _ hj
  · rfl

theorem wf_diskInodes (sb : SuperBlock) (img : Image) (i : Nat) : ((diskInodes sb img).inode i).Wf := by
  show (if i < sb.ninodes then dinodeOn img (inodePos sb i) else DInode.zero).Wf
  split
  · exact wf_dinodeOn _ _
  · exact ⟨by decide, by decide, by decide, by decide, by decide, fun _ _ => Nat.two_pow_pos 32⟩

/-! ### Links -/

theorem Good.ne_zero (h : Good sb img) (hu : (diskInodes sb img).Used sb i) : i ≠ 0 := by
  rintro rfl
  exact hu.2 h.zero

theorem Whole.of_ptr {s : State} (hw : Whole s.img (s.inode i)) (hu : s.Used sb i) (ht : d'.type = (s.inode i).type)
    (hsize : d'.size = (s.inode i).size) (hptr : (s.set i d' img').ptr sb = s.ptr sb) : Whole img' d' := by
  intro bn hbn
  rw [hsize] at hbn
  obtain ⟨hmax, hne⟩ := hw bn hbn
  have hnew := ptr_slotFor (hu.set ht img') hmax
  rw [set_self, set_img, hptr, ptr_slotFor hu hmax] at hnew
  rw [← hnew]
  exact ⟨hmax, hne⟩

theorem Good.iupdate (h : Good sb img) (hu : (diskInodes sb img).Used sb i) (hwf : d'.Wf) (ht : d'.type = ((diskInodes sb img).inode i).type)
    (hsize : d'.size = ((diskInodes sb img).inode i).size) (haddrs : d'.addrs = ((diskInodes sb img).inode i).addrs) :
    Rewritten sb img i d' (iupdate sb i d' img) := by
  have how := h.consistent.owned
  obtain ⟨he, hptr⟩ := Ext.of_iupdate how hu haddrs ht d'
  have hbyte := fun {p : Nat} (hp : lastMap sb < p / BSIZE) => how.behind_iupdate hu.1 d' img hp
  refine h.rewrite hu.1 (fun h0 => absurd h0 (h.ne_zero hu)) hwf (fun j hj => ?_) (onDisk_iupdate sb i d' img) (inodesKept_iupdate (fun _ _ => rfl) i d') ?_
    (fun hdir => ?_) fun j _ huj p hp => ?_
  · rw [haddrs]
    exact rest_diskInodes sb img i hj
  · refine h.consistent.of_ext he ?_
    rw [set_self, set_img]
    exact (h.consistent.whole i hu).of_ptr hu ht hsize hptr
  · rw [hsize]
    exact h.aligned i (ht ▸ hdir)
  · exact content_congr (how.sound huj) (fun p hp => hbyte hp) hp

theorem content_addrs (haddrs : d'.addrs = d.addrs) (img : Image) : content img d' = content img d := by
  funext p
  unfold content blockAt
  rw [haddrs]

theorem Good.iupdate_node (h : Good sb img) (hu : (diskInodes sb img).Used sb i) (hwf : d'.Wf) (ht : d'.type = ((diskInodes sb img).inode i).type)
    (hsize : d'.size = ((diskInodes sb img).inode i).size) (haddrs : d'.addrs = ((diskInodes sb img).inode i).addrs) :
    treeOf sb (Kernel.iupdate sb i d' img) i = (treeOf sb img i).withNlink d'.nlink := by
  have hdata : data (Kernel.iupdate sb i d' img) d' = data img ((diskInodes sb img).inode i) := by
    unfold data
    rw [hsize, content_addrs haddrs]
    refine bytesFrom_congr fun p hp => content_congr (h.consistent.owned.sound hu) (fun q hq => h.consistent.owned.behind_iupdate hu.1 d' img hq) ?_
    have := (h.consistent.whole i hu).size_le
    omega
  rw [(h.iupdate hu hwf ht hsize haddrs).node (by rw [ht]; exact hu.2), treeOf_of_used hu]
  unfold nodeOf Node.withNlink
  rw [hdata, ht]

/-! ### Slots -/

theorem Owned.addrs_lt {s : State} (h : Owned sb s) (hu : s.Used sb i) (hj : j < 13) : (s.inode i).addrs j < 2 ^ 32 := by
  have hnd : NDIRECT = 12 := rfl
  have hptr : s.ptr sb (i, j) = (s.inode i).addrs j := by
    rw [ptr_of_used hu (by unfold NPTR; omega)]
    exact if_pos (by omega)
  by_cases h0 : (s.inode i).addrs j = 0
  · rw [h0]
    decide
  · rw [← hptr] at h0 ⊢
    exact (h.data _ h0).lt.trans h.size_lt

theorem Good.writeSlot {de : List UInt8} (h : Good sb img) (hdir : (treeOf sb img i).type = T_DIR)
    (hk : k ≤ (treeOf sb img i).slots.length) (hde : de.length = 16)
    (hok : Kernel.writei sb i ((diskInodes sb img).inode i) img de (16 * k) = .ok (some 16, d', img')) :
    Rewritten sb img i d' img' ∧ ∃ l, SlotMap.Stored (treeOf sb img i).slots k (slotIn de) l ∧ treeOf sb img' i = (treeOf sb img i).withSlots l := by
  have hu : (diskInodes sb img).Used sb i := used_iff.2 (dir_ne_zero hdir)
  have how := h.consistent.owned
  have hw := h.consistent.whole i hu
  have hslots := slots_treeOf hdir
  have htype : ((diskInodes sb img).inode i).type = T_DIR := by rw [← type_treeOf, hdir]
  have hal := h.aligned i htype
  rw [hslots, length_slotsIn, length_data] at hk
  have hhead := head_writei hok
  simp only [head, Prod.mk.injEq] at hhead
  obtain ⟨ht, hmajor, hminor, hnlink, hrest⟩ := hhead
  have hfar : ¬ TooFar ((diskInodes sb img).inode i).size (16 * k) de.length := by
    intro hfar
    have hnone : Kernel.writei sb i ((diskInodes sb img).inode i) img de (16 * k) = .ok (none, (diskInodes sb img).inode i, img) :=
      writei_tooFar hw (by rw [hde]; decide) hfar
    cases hok.symm.trans hnone
  rcases how.writei hu hw hfar with ⟨hfail, -⟩ | ⟨d₁, img₁, hok₁, hup, hkept⟩
  · cases hok.symm.trans hfail
  obtain ⟨rfl, rfl⟩ : d₁ = d' ∧ img₁ = img' := by
    have heq := hok₁.symm.trans hok
    rw [hde] at heq
    cases heq
    exact ⟨rfl, rfl⟩
  have hc : Consistent sb ((diskInodes sb img).set i d₁ img₁) := h.consistent.of_ext hup.ext (by rw [set_self, set_img]; exact hup.whole)
  have hu₁ : ((diskInodes sb img).set i d₁ img₁).Used sb i := hu.set ht img₁
  have hre : Rewritten sb img i d₁ img₁ := by
    refine h.rewrite hu.1 (fun h0 => absurd h0 (h.ne_zero hu)) ?_ (fun j hj => ?_) (hup.onDisk (.inl (onDisk_diskInodes hu.1))) hkept hc
      (fun _ => ?_) hup.others
    · obtain ⟨hwt, hwma, hwmi, hwn, -, -⟩ := wf_diskInodes sb img i
      refine ⟨ht ▸ hwt, hmajor ▸ hwma, hminor ▸ hwmi, hnlink ▸ hwn, ?_, fun j hj => ?_⟩
      · have hsize := hup.whole.size_le
        have hmax : MAXFILE * BSIZE < 2 ^ 32 := by decide
        omega
      · have hlt := hc.owned.addrs_lt hu₁ hj
        rwa [set_self] at hlt
    · have hold := congrFun hrest (j - 13)
      rw [Nat.add_sub_cancel' hj] at hold
      rw [hold]
      exact rest_diskInodes sb img i hj
    · rw [hup.size, hde]
      omega
  refine ⟨hre, slotsIn (data img₁ d₁), ?_, ?_⟩
  · rw [hslots, hup.data]
    exact slotsIn_overwrite (by rw [length_data]; exact hal) (by rw [length_data]; exact hk) hde
  · rw [hre.node (by rw [ht]; exact hu.2), treeOf_of_used hu]
    unfold nodeOf Node.withSlots
    rw [ht, hnlink, if_pos htype]

/-! ### Inodes without blocks -/

theorem Consistent.blank {s : State} (h : Consistent sb s) (d' : DInode) (img' : Image) (hown : ∀ k, s.ptr sb (i, k) = 0) (hsize : d'.size = 0)
    (haddrs : ∀ k ≤ NDIRECT, d'.addrs k = 0) (hbyte : ∀ p, sb.bmapstart ≤ p / BSIZE → img'.byte p = s.img.byte p) :
    Consistent sb (s.set i d' img') := by
  have hlast : sb.bmapstart ≤ lastMap sb := Nat.le_add_left _ _
  have hptr : ∀ x, (s.set i d' img').ptr sb x = s.ptr sb x := by
    rintro ⟨j, k⟩
    rw [h.owned.ptr_trunc haddrs (fun p hp => hbyte p (by omega))]
    split
    · next hj => rw [hj, hown]
    · rfl
  have hused : ∀ x < sb.size, inUse sb img' x = inUse sb s.img x := fun x hx => inUse_congr hx fun p hp _ => hbyte p hp
  refine ⟨⟨h.owned.size_lt, h.owned.inodes, fun b hb hlt => ?_, fun x hx => ?_, fun x y hxy hne => ?_⟩, fun j huj bn hbn => ?_⟩
  · rw [set_img, hused b hlt]
    exact h.owned.reserved b hb hlt
  · rw [hptr] at hx ⊢
    have hdata := h.owned.data x hx
    exact ⟨hdata.lt, hdata.behind, by rw [set_img, hused _ hdata.lt]; exact hdata.used⟩
  · rw [hptr, hptr] at hxy
    rw [hptr] at hne
    exact h.owned.distinct x y hxy hne
  · rcases eq_or_ne j i with rfl | hj
    · rw [set_self, hsize] at hbn
      exact absurd hbn (Nat.not_lt_zero _)
    · have huj' : s.Used sb j := by
        unfold State.Used at huj ⊢
        rwa [set_of_ne hj] at huj
      rw [set_of_ne hj] at hbn
      obtain ⟨hmax, hne⟩ := h.whole j huj' bn hbn
      refine ⟨hmax, ?_⟩
      rwa [← ptr_slotFor huj hmax, hptr, ptr_slotFor huj' hmax]

theorem iupdate_behind (h : Good sb img) (hi : i < sb.ninodes) (d : DInode) (img₁ : Image) {p : Nat} (hp : sb.bmapstart ≤ p / BSIZE) :
    (iupdate sb i d img₁).byte p = img₁.byte p := by
  have hlt := h.consistent.owned.inodes i hi
  exact iupdate_of_ne (by omega)

theorem Good.ialloc (h : Good sb img) (hi : i < sb.ninodes) (hpos : 1 ≤ i) (hfree : (treeOf sb img i).type = 0) {type : Int} (htype : IsShort type) :
    Rewritten sb img i { DInode.zero with type } (Kernel.iupdate sb i { DInode.zero with type } img) := by
  have hnot : ¬ (diskInodes sb img).Used sb i := fun hu => used_iff.1 hu hfree
  have hbyte := fun {p : Nat} (hp : sb.bmapstart ≤ p / BSIZE) => iupdate_behind h hi { DInode.zero with type } img hp
  have hlast : sb.bmapstart ≤ lastMap sb := Nat.le_add_left _ _
  have hshort : IsShort 0 := by decide
  refine h.rewrite hi (fun h0 => by omega) ⟨htype, hshort, hshort, hshort, Nat.two_pow_pos 32, fun _ _ => Nat.two_pow_pos 32⟩
    (fun _ _ => rfl) (onDisk_iupdate sb i _ img) (inodesKept_iupdate (fun _ _ => rfl) i _) ?_ (fun _ => rfl) fun j _ huj p hp => ?_
  · exact h.consistent.blank _ _ (fun k => if_neg fun hu => hnot hu.1) rfl (fun _ _ => rfl) fun p hp => hbyte hp
  · exact content_congr (h.consistent.owned.sound huj) (fun p hp => hbyte (by omega)) hp

/-! ### Freeing an inode -/

theorem Good.free (h : Good sb img) (hu : (diskInodes sb img).Used sb i) (hok : Kernel.itrunc sb i ((diskInodes sb img).inode i) img = .ok (d, img')) :
    Rewritten sb img i { d with type := 0 } (Kernel.iupdate sb i { d with type := 0 } img') := by
  have how := h.consistent.owned
  obtain ⟨d₁, img₁, hok₁, -, hc, -⟩ := h.consistent.itrunc hu
  obtain ⟨d₂, img₂, hok₂, hd, -, hkept, hbyte⟩ := how.itrunc hu
  obtain ⟨rfl, rfl⟩ := Prod.mk.inj (Except.ok.inj (hok₁.symm.trans hok))
  obtain ⟨rfl, rfl⟩ := Prod.mk.inj (Except.ok.inj (hok₂.symm.trans hok))
  have hsize : d₂.size = 0 := by rw [hd]
  have haddrs : ∀ k ≤ NDIRECT, d₂.addrs k = 0 := fun k hk => by rw [hd]; exact if_pos hk
  have hrest : ∀ k, d₂.addrs k = 0 := by
    intro k
    rcases Nat.lt_or_ge NDIRECT k with hk | hk
    · rw [hd]
      exact (if_neg (Nat.not_le.2 hk)).trans (rest_diskInodes sb img i hk)
    · exact haddrs k hk
  have hbyte' := fun {p : Nat} (hp : sb.bmapstart ≤ p / BSIZE) => iupdate_behind h hu.1 { d₂ with type := 0 } img₂ hp
  have hlast : sb.bmapstart ≤ lastMap sb := Nat.le_add_left _ _
  have hwf : ({ d₂ with type := 0 } : DInode).Wf := by
    obtain ⟨-, hma, hmi, hn, -, -⟩ := wf_diskInodes sb img i
    refine ⟨show IsShort 0 by decide, ?_, ?_, ?_, ?_, fun j _ => ?_⟩
    · exact congrArg DInode.major hd ▸ hma
    · exact congrArg DInode.minor hd ▸ hmi
    · exact congrArg DInode.nlink hd ▸ hn
    · exact hsize ▸ Nat.two_pow_pos 32
    · exact hrest j ▸ Nat.two_pow_pos 32
  refine h.rewrite hu.1 (fun _ => rfl) hwf (fun j _ => hrest j) (onDisk_iupdate sb i _ img₂)
    (fun p hp hout => (inodesKept_iupdate (fun _ _ => rfl) i _ p hp hout).trans (hkept p hp hout)) ?_ ?_ fun j _ huj p hp => ?_
  · have hblank := hc.blank (i := i) { d₂ with type := 0 } (Kernel.iupdate sb i { d₂ with type := 0 } img₂)
      (fun k => by rw [how.ptr_trunc haddrs hbyte, if_pos rfl]) hsize haddrs fun p hp => hbyte' hp
    rwa [set_set] at hblank
  · intro hdir
    exact absurd hdir (show (0 : Int) ≠ T_DIR by decide)
  · refine content_congr (how.sound huj) (fun p hp => ?_) hp
    rw [hbyte' (by omega)]
    exact hbyte p hp

/-! ### Slots in all directories -/

def dirBlocks (sb : SuperBlock) (img : Image) (i : Nat) : Nat :=
  if (treeOf sb img i).type = T_DIR then (((diskInodes sb img).inode i).size + 511) / 512 else 0

theorem Good.sum_dirBlocks_le (h : Good sb img) : ∑ i ∈ Finset.range sb.ninodes, dirBlocks sb img i ≤ sb.size := by
  have hblock : ∀ x ∈ (Finset.range sb.ninodes).sigma fun i => Finset.range (dirBlocks sb img i),
      (diskInodes sb img).ptr sb (x.1, slotFor x.2) ≠ 0 := by
    rintro ⟨i, bn⟩ hx
    obtain ⟨-, hbn⟩ := Finset.mem_sigma.1 hx
    have hbn : bn < dirBlocks sb img i := Finset.mem_range.1 hbn
    unfold dirBlocks at hbn
    split at hbn
    · next hdir =>
      have hu : (diskInodes sb img).Used sb i := used_iff.2 (dir_ne_zero hdir)
      obtain ⟨hmax, hne⟩ := h.consistent.whole i hu bn (by unfold BSIZE; omega)
      show (diskInodes sb img).ptr sb (i, slotFor bn) ≠ 0
      rwa [ptr_slotFor hu hmax]
    · exact absurd hbn (Nat.not_lt_zero _)
  rw [← Finset.card_range sb.size]
  have hcard : ∑ i ∈ Finset.range sb.ninodes, dirBlocks sb img i =
      ((Finset.range sb.ninodes).sigma fun i => Finset.range (dirBlocks sb img i)).card := by
    rw [Finset.card_sigma]
    simp only [Finset.card_range]
  rw [hcard]
  refine Finset.card_le_card_of_injOn (fun x => (diskInodes sb img).ptr sb (x.1, slotFor x.2)) (fun x hx => ?_) ?_
  · exact Finset.mem_coe.2 (Finset.mem_range.2 (h.consistent.owned.data _ (hblock x hx)).lt)
  · rintro ⟨i, bn⟩ hx ⟨j, bn'⟩ hy heq
    obtain ⟨hi, hs⟩ := Prod.mk.inj (h.consistent.owned.distinct _ _ heq (hblock _ hx))
    dsimp only at hi hs
    have hbn : bn = bn' := by
      unfold slotFor at hs
      split at hs <;> split at hs <;> omega
    subst hbn hi
    rfl

theorem Good.links_le (h : Good sb img) (i : Nat) : links sb.ninodes (treeOf sb img) i ≤ 32000 := by
  have hle : links sb.ninodes (treeOf sb img) i ≤ ∑ d ∈ Finset.range sb.ninodes, 32 * dirBlocks sb img d := by
    refine Finset.sum_le_sum fun d _ => ?_
    refine List.countP_le_length.trans ?_
    unfold dirBlocks
    split
    · next hdir =>
      rw [slots_treeOf hdir, length_slotsIn, length_data]
      omega
    · next hdir =>
      have hnil : (treeOf sb img d).slots = [] := by
        unfold treeOf
        split
        · next hu =>
          refine if_neg fun ht => hdir ?_
          rw [type_treeOf]
          exact ht
        · rfl
      rw [hnil]
      exact Nat.zero_le _
  rw [← Finset.mul_sum] at hle
  have hsum := h.sum_dirBlocks_le
  have hsize := h.size_le
  omega

end Ostep.Fs.Kernel
