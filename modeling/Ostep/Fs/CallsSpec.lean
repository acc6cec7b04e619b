import Ostep.Fs.CallWrites

/-!
# The calls keep the tree

Each call on paths, with the references it takes and gives back. A call that makes an entry needs a directory that has not been
removed, and one that removes a directory must leave that of a directory in use that has been removed already.
-/

namespace Ostep.Fs.Kernel

variable {sb : SuperBlock} {w w' w₁ w₂ : World} {B R E : Nat → Int} {T : Nat → Node} {d i j k ip dp cwd : Nat} {name path : List UInt8}

theorem single_pos (hB : 0 ≤ B) (k : Nat) : 0 < (B + Pi.single k 1 : Nat → Int) k := by
  have hk : 0 ≤ B k := hB k
  rw [Pi.add_apply, Pi.single_eq_same]
  omega

/-! ### `create` -/

/-- A new name does not go to a directory that has been removed. -/
def ParentLinked (sb : SuperBlock) (w : World) (cwd : Nat) (path : List UInt8) : Prop :=
  ∀ d ∈ goTo (treeOf sb w.img) (startOf w cwd path) (elements path).dropLast,
    goTo (treeOf sb w.img) (startOf w cwd path) (elements path) = none → (treeOf sb w.img d).nlink ≠ 0

instance (sb : SuperBlock) (w : World) (cwd : Nat) (path : List UInt8) : Decidable (ParentLinked sb w cwd path) :=
  inferInstanceAs (Decidable (∀ d ∈ goTo _ _ _, goTo _ _ _ = none → _ ≠ _))

theorem ParentLinked.nlink {es : List (List UInt8)} {d : Nat} (h : ParentLinked sb w cwd path) (hel : elements path = es ++ [name])
    (hwalk : goTo (treeOf sb w.img) (startOf w cwd path) es = some d) (hdir : (treeOf sb w.img d).type = T_DIR)
    (hget : SlotMap.get (treeOf sb w.img d).slots name = none) : (treeOf sb w.img d).nlink ≠ 0 := by
  refine h d ?_ ?_
  · rw [hel, List.dropLast_concat]
    exact hwalk
  · rw [hel, goTo_concat hwalk hdir, hget]

theorem During.createEntry (h : During sb w B w₁ (Pi.single dp 1 + Pi.single ip 1) T) (hdp : Opened w₁ dp d) (hip : Opened w₁ ip i)
    (hok : createEntry sb dp ip name w₁ = .ok w₂) :
    ∃ j n l, Entered (T d).slots j n i l ∧ During sb w B w₂ (Pi.single ip 1) (Function.update T d ((T d).withSlots l)) := by
  obtain ⟨⟨ok, w₃⟩, hlink, hrest⟩ := bind_ok hok
  cases ok with
  | false => cases hrest
  | true =>
    rw [hip.inum] at hlink
    obtain ⟨-, -, j, n, l, hent, -, h₃, -⟩ := h.dirlinkAt_true hdp (h.live hip) hlink
    exact ⟨j, n, l, hent, (h₃.iunlockput (add_comm _ _) (single_nonneg ip) ((mapError_eq_ok _).1 hrest)).1⟩

theorem entered_nil {n : List UInt8} {l : List (Option (List UInt8 × Nat))} (h : Entered [] j n i l) : l = [some (n, i)] := by
  obtain rfl : j = 0 := Nat.le_zero.1 h.le
  exact h.stored.eq h.le

theorem entered_one {e : List UInt8 × Nat} {n : List UInt8} {l : List (Option (List UInt8 × Nat))} (h : Entered [some e] j n i l) :
    l = [some e, some (n, i)] := by
  rcases Nat.le_one_iff_eq_zero_or_eq_one.1 h.le with rfl | rfl
  · exact absurd rfl (h.free e)
  · exact h.stored.eq h.le

theorem During.createDots (h : During sb w B w₁ E T) (hdp : Opened w₁ dp d) (hip : Opened w₁ ip i) (hne : i ≠ d) (hi : T i = ⟨T_DIR, 1, []⟩)
    (hn : IsShort ((T d).nlink + 1)) (hn0 : (T d).nlink + 1 ≠ 0) (hok : createDots sb dp ip w₁ = .ok w₂) :
    During sb w B w₂ E (Function.update (Function.update T d ((T d).withNlink ((T d).nlink + 1))) i
      ⟨T_DIR, 1, [some ([46], i), some ([46, 46], d)]⟩) ∧ Stays w₁ w₂ := by
  obtain ⟨w₃, hw₃⟩ : ∃ w₃, w₃ = iupdateAt sb dp { (w₁.inode dp).d with nlink := short ((w₁.inode dp).d.nlink + 1) } w₁ := ⟨_, rfl⟩
  unfold Kernel.createDots at hok
  rw [← hw₃] at hok
  rw [h.nlink hdp] at hw₃
  obtain ⟨h₃, hst₃⟩ := h.setNlink hdp hn (fun h0 => absurd h0 hn0) hw₃
  have hip₃ := hst₃ ip i hip
  obtain ⟨⟨ok₄, w₄⟩, hlink₄, hrest⟩ := bind_ok hok
  cases ok₄ with
  | false => cases hrest
  | true =>
    rw [hip₃.inum] at hlink₄
    obtain ⟨-, -, j₄, n₄, l₄, hent₄, hname₄, h₄, hst₄⟩ := h₃.dirlinkAt_true hip₃ (h₃.live hip₃) hlink₄
    have hdp₄ := hst₄ dp d (hst₃ dp d hdp)
    obtain ⟨⟨ok₅, w₅⟩, hlink₅, hrest₅⟩ := bind_ok hrest
    cases ok₅ with
    | false => cases hrest₅
    | true =>
      cases hrest₅
      change dirlinkAt sb ip [46, 46] (w₄.inode dp).inum w₄ = _ at hlink₅
      rw [hdp₄.inum] at hlink₅
      obtain ⟨-, -, j₅, n₅, l₅, hent₅, hname₅, h₅, hst₅⟩ := h₄.dirlinkAt_true (hst₄ ip i hip₃) (h₄.live hdp₄) hlink₅
      obtain rfl : n₄ = [46] := hname₄ (by decide)
      obtain rfl : n₅ = [46, 46] := hname₅ (by decide)
      rw [Function.update_of_ne hne, hi] at hent₄ hent₅ h₅
      obtain rfl := entered_nil hent₄
      rw [Function.update_self] at hent₅ h₅
      obtain rfl := entered_one hent₅
      rw [Function.update_idem] at h₅
      exact ⟨h₅, fun k x ho => hst₅ k x (hst₄ k x (hst₃ k x ho))⟩

theorem subdirs_le (N : Nat) (T : Nat → Node) (d : Nat) : subdirs N T d ≤ N := by
  have h : subdirs N T d ≤ ∑ _c ∈ Finset.range N, 1 := Finset.sum_le_sum fun c _ => by split <;> omega
  simpa using h

theorem Good.nlink_dir {P : Nat → Prop} {img : Image} (hg : Good sb img) (h : TreeOk sb.ninodes (treeOf sb img) P)
    (hd : (treeOf sb img i).type = T_DIR) (hlive : (treeOf sb img i).nlink ≠ 0) :
    1 ≤ (treeOf sb img i).nlink ∧ (treeOf sb img i).nlink ≤ 2 ^ 14 + 1 := by
  have hn := (h.node i).dirLinks hd hlive
  have hle := subdirs_le sb.ninodes (treeOf sb img) i
  have hN := hg.ninodes_le
  omega

theorem During.createNew {type : Int} (h : During sb w R w₁ (Pi.single dp 1) (treeOf sb w.img)) (hs : Settled sb w R) (ho : Opened w₁ dp d)
    (htype : type = T_DIR ∨ type = T_FILE) (hdir : (treeOf sb w.img d).type = T_DIR) (hlive : (treeOf sb w.img d).nlink ≠ 0)
    (hok : createNew sb dp name type w₁ = .ok (ip, w₂)) : Settled sb w₂ (R + Pi.single ip 1) ∧ Keeps sb R w w₂ := by
  obtain ⟨⟨ip', w₃⟩, hal, hrest⟩ := bind_ok hok
  obtain ⟨w₄, hlock, hrest⟩ := bind_mapError_ok hrest
  obtain ⟨w₅, hw₅⟩ : ∃ w₅, w₅ = iupdateAt sb ip' { (w₄.inode ip').d with major := 0, minor := 0, nlink := 1 } w₄ := ⟨_, rfl⟩
  obtain ⟨i, hlt, hfree, hip, hst, h₅⟩ := h.newInode htype hal hlock hw₅
  have hdp := hst dp d ho
  have hne : i ≠ d := by
    rintro rfl
    exact dir_ne_zero hdir hfree
  have hd : Function.update (treeOf sb w.img) i ⟨type, 1, []⟩ d = treeOf sb w.img d := Function.update_of_ne hne.symm ..
  dsimp only at hrest
  rw [← hw₅] at hrest
  split at hrest
  · next hT =>
    obtain ⟨w₆, hdots, hrest⟩ := bind_ok hrest
    obtain ⟨w₇, hentry, hrest⟩ := bind_ok hrest
    cases hrest
    obtain ⟨hpos, hbound⟩ := hs.good.nlink_dir hs.tree hdir hlive
    have hshort : IsShort ((treeOf sb w.img d).nlink + 1) := by
      unfold IsShort
      omega
    obtain ⟨h₆, hst₆⟩ := h₅.createDots hdp hip hne (by rw [Function.update_self, hT]) (by rw [hd]; exact hshort) (by rw [hd]; omega) hdots
    obtain ⟨j, n, l, hent, h₇⟩ := h₆.createEntry (hst₆ dp d hdp) (hst₆ ip i hip) hentry
    simp only [Function.update_of_ne hne.symm, Function.update_self] at hent h₇
    refine h₇.settled (hs.tree.addDir hdir hlive hent hlt hfree ?_)
    rw [Function.update_comm hne, Function.update_idem, Function.update_comm hne, Function.update_idem]
  · next hT =>
    obtain ⟨w₆, hentry, hrest⟩ := bind_ok hrest
    cases hrest
    obtain ⟨j, n, l, hent, h₆⟩ := h₅.createEntry hdp hip hentry
    rw [hd] at hent h₆
    refine h₆.settled (hs.tree.addFile hdir hlive hent hlt (by rw [hfree]; decide) ⟨htype.resolve_left hT, rfl, ?_⟩ (Function.update_comm hne ..))
    rw [hs.tree.entries_free hfree]
    rfl

theorem take_last {es : List (List UInt8)} (h : elements path = es ++ [name]) : name.take DIRSIZ = name :=
  take_element (h ▸ List.mem_append_right es (List.mem_singleton_self name))

/-- The new inode or the file that was there. -/
theorem Settled.create {type : Int} {r : Option Nat} (h : Settled sb w R) (hcwd : 0 < R cwd) (htype : type = T_DIR ∨ type = T_FILE)
    (hlinked : ParentLinked sb w cwd path) (hok : create sb cwd path type w = .ok (r, w')) : Settled sb w' (R + held r) ∧ Keeps sb R w w' := by
  obtain ⟨⟨parent, w₁⟩, hnamex, hrest⟩ := bind_mapError_ok hok
  obtain ⟨h₁, hfound⟩ := h.during.namex hcwd (dir_ne_zero h.tree.root.1) hnamex
  obtain _ | ⟨dp, name⟩ := parent
  · cases hrest
    exact h₁.settled h.tree
  obtain ⟨es, hel, hwalk, hdir⟩ := hfound rfl dp name rfl
  obtain ⟨w₂, hlock, hrest⟩ := bind_mapError_ok hrest
  obtain ⟨h₂, ho, -⟩ := h₁.ilock hlock
  obtain ⟨⟨found, w₃⟩, hlook, hrest₃⟩ := bind_mapError_ok hrest
  obtain ⟨-, h₃, -, hnone, hget⟩ := h₂.dirlookupAt ho hlook
  cases found with
  | some ip =>
    obtain ⟨w₄, hput, hrest₄⟩ := bind_mapError_ok hrest₃
    obtain ⟨h₄, -⟩ := h₃.iunlockput (add_comm _ _) (single_nonneg ip) hput
    obtain ⟨w₅, hlock₅, hrest₅⟩ := bind_mapError_ok hrest₄
    obtain ⟨h₅, -⟩ := h₄.ilock hlock₅
    split at hrest₅
    · cases hrest₅
      exact h₅.settled h.tree
    · obtain ⟨w₆, hput₆, hrest₆⟩ := bind_mapError_ok hrest₅
      cases hrest₆
      exact (h₅.done hput₆).settled h.tree
  | none =>
    obtain rfl := hnone rfl
    obtain ⟨⟨ip, w₄⟩, hnew, hrest₄⟩ := bind_ok hrest₃
    cases hrest₄
    rw [take_last hel] at hget
    exact h₂.createNew h ho htype hdir (hlinked.nlink hel hwalk hdir hget) hnew

/-! ### `link` -/

theorem isShort_nlink (sb : SuperBlock) (img : Image) (i : Nat) : IsShort (treeOf sb img i).nlink := by
  unfold treeOf
  split
  · exact (wf_diskInodes sb img i).2.2.2.1
  · decide

def addLink (T : Nat → Node) (i : Nat) : Nat → Node := Function.update T i ((T i).withNlink ((T i).nlink + 1))

theorem addLink_same (T : Nat → Node) (i x : Nat) : (addLink T i x).type = (T x).type ∧ (addLink T i x).slots = (T x).slots := by
  rw [addLink, Function.update_apply]
  split
  · next hx =>
    rw [hx]
    exact ⟨rfl, rfl⟩
  · exact ⟨rfl, rfl⟩

section
variable {w₀ : World} (hs : Settled sb w R) (hkeep : Keeps sb R w w₀) (hip : (w₀.inode ip).inum = i)
  (h : During sb w₀ (R + Pi.single ip 1) w₁ 0 (addLink (treeOf sb w.img) i))
include hs hkeep

theorem Settled.linked : TreeOk sb.ninodes (treeOf sb w.img) (HeldBy w₀ (R + Pi.single ip 1)) :=
  hs.tree.mono fun _ _ _ hi => (hi.keeps hkeep).mono (le_add_of_nonneg_right (single_nonneg ip))

include hip h

theorem Settled.linkBad (hok : linkBad sb ip w₁ = .ok w') : Settled sb w' R ∧ Keeps sb R w w' := by
  have hpos := single_pos hs.refs_nonneg ip
  obtain ⟨w₂, hlock, hput⟩ := bind_mapError_ok hok
  obtain ⟨h₂, ho, -⟩ := h.ilock hlock
  rw [h.keeps.inum ip hpos, hip] at ho
  obtain ⟨w₃, hw₃⟩ : ∃ w₃, w₃ = iupdateAt sb ip { (w₂.inode ip).d with nlink := short ((w₂.inode ip).d.nlink - 1) } w₂ := ⟨_, rfl⟩
  rw [← hw₃] at hput
  have hn : (w₂.inode ip).d.nlink - 1 = (treeOf sb w.img i).nlink := by
    rw [h₂.nlink ho, addLink, Function.update_self]
    exact Int.add_sub_cancel _ _
  rw [hn] at hw₃
  obtain ⟨h₃, -⟩ := h₂.setNlink ho (isShort_nlink ..) (fun _ => hpos) hw₃
  have hback : Function.update (addLink (treeOf sb w.img) i) i ((addLink (treeOf sb w.img) i i).withNlink (treeOf sb w.img i).nlink) =
      treeOf sb w.img := by
    rw [addLink, Function.update_idem, Function.update_self]
    exact Function.update_eq_self _ _
  rw [hback] at h₃
  obtain ⟨hset, hkeep₃⟩ := h₃.settled (hs.linked hkeep)
  rw [add_zero] at hset
  obtain ⟨hset', hkeep'⟩ := hset.iunlockput hs.refs_nonneg ((mapError_eq_ok _).1 hput)
  exact ⟨hset', (hkeep.trans (hkeep₃.mono (le_add_of_nonneg_right (single_nonneg ip)))).trans hkeep'⟩

theorem Settled.linkEntry {new : List UInt8} {r : Option Nat} (hfile : (treeOf sb w.img i).type = T_FILE) (hcwd : 0 < R cwd) (hw₁ : w₁ = w₀)
    (hlinked : ParentLinked sb w cwd new) (hok : linkEntry sb cwd new ip w₁ = .ok (r, w')) : Settled sb w' R ∧ Keeps sb R w w' := by
  have hsame := addLink_same (treeOf sb w.img) i
  have hle : R ≤ R + Pi.single ip 1 := le_add_of_nonneg_right (single_nonneg ip)
  obtain ⟨⟨parent, w₂⟩, hnamex, hrest⟩ := bind_mapError_ok hok
  obtain ⟨h₂, hfound⟩ := h.namex (hcwd.trans_le (hle cwd)) (by rw [(hsame _).1]; exact dir_ne_zero hs.tree.root.1) hnamex
  obtain _ | ⟨dp, name⟩ := parent
  · obtain ⟨w₃, hbad, hrest₃⟩ := bind_ok hrest
    cases hrest₃
    exact hs.linkBad hkeep hip h₂ hbad
  obtain ⟨es, hel, hwalk, hdir⟩ := hfound rfl dp name rfl
  obtain ⟨w₃, hlock, hrest₃⟩ := bind_mapError_ok hrest
  obtain ⟨h₃, ho, -⟩ := h₂.ilock hlock
  obtain ⟨⟨ok, w₄⟩, hlink, hrest₄⟩ := bind_ok hrest₃
  obtain ⟨w₅, hput, hrest₅⟩ := bind_mapError_ok hrest₄
  cases ok with
  | false =>
    have h₅ := (h₃.dirlinkAt_false ho hlink).done hput
    obtain ⟨w₆, hbad, hrest₆⟩ := bind_ok hrest₅
    cases hrest₆
    exact hs.linkBad hkeep hip h₅ hbad
  | true =>
    rw [h₃.keeps.inum ip (single_pos hs.refs_nonneg ip), hip] at hlink
    obtain ⟨-, hget, j, n, l, hent, -, h₄, -⟩ := h₃.dirlinkAt_true ho (by rw [(hsame i).1]; exact file_ne_zero hfile) hlink
    have h₅ := h₄.done hput
    -- the walk was in the tree with the new link count
    rw [(hsame _).1] at hdir
    rw [(hsame _).2, take_last hel] at hget
    have hstart : startOf w₁ cwd new = startOf w cwd new := by rw [hw₁, startOf, startOf, hkeep.inum cwd hcwd]
    rw [goTo_congr hsame, hstart] at hwalk
    have hlive := hlinked.nlink hel hwalk hdir hget
    have hnode := hs.tree.node i
    have hne : i ≠ (w₂.inode dp).inum := by
      intro heq
      rw [← heq] at hdir
      exact file_ne_dir hfile hdir
    have hd : addLink (treeOf sb w.img) i (w₂.inode dp).inum = treeOf sb w.img (w₂.inode dp).inum := Function.update_of_ne hne.symm ..
    rw [hd] at hent h₅
    have hlinks : TreeOk sb.ninodes (treeOf sb w.img) (HeldBy w₀ (R + Pi.single ip 1)) := hs.linked hkeep
    have htree := hlinks.addFile hdir hlive hent (hnode.bound (file_ne_zero hfile)) (file_ne_dir hfile)
      (m := ((treeOf sb w.img i).withNlink ((treeOf sb w.img i).nlink + 1))) ⟨hfile, hnode.leaf (file_ne_dir hfile), by rw [hnode.fileLinks hfile]; rfl⟩
      (Function.update_comm hne ..)
    obtain ⟨hset, hkeep₅⟩ := h₅.settled htree
    rw [add_zero] at hset
    obtain ⟨w₆, hput₆, hrest₆⟩ := bind_mapError_ok hrest₅
    cases hrest₆
    obtain ⟨hset', hkeep'⟩ := hset.iput hs.refs_nonneg hput₆
    exact ⟨hset', (hkeep.trans (hkeep₅.mono hle)).trans hkeep'⟩

end

theorem Settled.link {old new : List UInt8} {p p' : Proc} {r : Option Nat} (h : Settled sb w R) (hcwd : 0 < R p.cwd)
    (hlinked : ParentLinked sb w p.cwd new) (hok : sysLink sb old new w p = .ok (r, w', p')) : p' = p ∧ Settled sb w' R ∧ Keeps sb R w w' := by
  obtain ⟨⟨ip, w₁⟩, hnamei, hrest⟩ := bind_mapError_ok hok
  obtain ⟨⟨r₁, w₁'⟩, hnamex, hret⟩ := bind_ok hnamei
  cases hret
  obtain ⟨h₁, -⟩ := h.during.namex hcwd (dir_ne_zero h.tree.root.1) hnamex
  obtain _ | ⟨ip, last⟩ := r₁
  · cases hrest
    exact ⟨rfl, h.back h₁⟩
  obtain ⟨w₂, hlock, hrest₂⟩ := bind_mapError_ok hrest
  obtain ⟨h₂, ho, -⟩ := h₁.ilock hlock
  obtain ⟨i, hi⟩ : ∃ i, (w₁.inode ip).inum = i := ⟨_, rfl⟩
  rw [hi] at ho
  split at hrest₂
  · obtain ⟨w₃, hput, hrest₃⟩ := bind_mapError_ok hrest₂
    cases hrest₃
    exact ⟨rfl, h.back (h₂.done hput)⟩
  next hdir =>
  obtain ⟨w₃, hw₃⟩ : ∃ w₃, w₃ = iupdateAt sb ip { (w₂.inode ip).d with nlink := short ((w₂.inode ip).d.nlink + 1) } w₂ := ⟨_, rfl⟩
  rw [← hw₃] at hrest₂
  rw [h₂.nlink ho] at hw₃
  have hfile : (treeOf sb w.img i).type = T_FILE := by
    rw [h₂.type ho] at hdir
    exact ((h.tree.node i).kinds.resolve_left (h₂.live ho)).resolve_left hdir
  have hn := (h.tree.node i).fileLinks hfile
  have hle := h.good.links_le i
  rw [h.tree.links_eq hfile] at hle
  have hshort : IsShort ((treeOf sb w.img i).nlink + 1) := by
    unfold IsShort
    omega
  obtain ⟨h₃, hst₃⟩ := h₂.setNlink ho hshort (by omega) hw₃
  have hhold : During sb w₃ (R + Pi.single ip 1) w₃ 0 (addLink (treeOf sb w.img) i) :=
    During.hold (E := 0) (by rwa [zero_add]) (le_refl _) (single_nonneg ip)
  obtain ⟨-, -, hrest₃⟩ := bind_mapError_ok hrest₂
  obtain ⟨⟨r', w₄⟩, hentry, hrest₄⟩ := bind_ok hrest₃
  cases hrest₄
  exact ⟨rfl, h.linkEntry h₃.keeps (hst₃ ip i ho).inum hhold hfile hcwd rfl hlinked hentry⟩

/-! ### `unlink` -/

/-- What is removed is not the parent of a directory that has been removed and is still in use. -/
def ParentStays (sb : SuperBlock) (w : World) (cwd : Nat) (path : List UInt8) : Prop :=
  ∀ i ∈ goTo (treeOf sb w.img) (startOf w cwd path) (elements path), ∀ c < sb.ninodes,
    (treeOf sb w.img c).type = T_DIR → (treeOf sb w.img c).nlink = 0 → (treeOf sb w.img c).parent ≠ some i

instance (sb : SuperBlock) (w : World) (cwd : Nat) (path : List UInt8) : Decidable (ParentStays sb w cwd path) :=
  inferInstanceAs (Decidable (∀ i ∈ goTo _ _ _, ∀ c < _, _ = _ → _ = _ → _ ≠ _))

/-- The entry in slot `j` of a directory that `unlink` may clear. -/
structure Removable (T : Nat → Node) (d j i : Nat) : Prop where
  dir : (T d).type = T_DIR
  behind : 2 ≤ j
  slot : ∃ n, (T d).slots[j]? = some (some (n, i))
  empty : (T i).type = T_DIR → ∀ x, (T i).rest x = 0
  last : ∀ c, (T c).type = T_DIR → (T c).nlink = 0 → (T c).parent ≠ some i
  linked : 1 ≤ (T i).nlink

theorem Removable.ne {T : Nat → Node} {d j : Nat} (h : Removable T d j i) : i ≠ d := by
  rintro rfl
  obtain ⟨n, hn⟩ := h.slot
  have hpos := Node.rest_pos h.behind hn
  rw [h.empty h.dir] at hpos
  exact Nat.lt_irrefl 0 hpos

theorem Removable.treeOk {N : Nat} {T T' : Nat → Node} {P : Nat → Prop} {d j : Nat} {l : List (Option (List UInt8 × Nat))} (h : Removable T d j i)
    (htree : TreeOk N T P) (hlive : (T i).type ≠ 0) (hs : SlotMap.Stored (T d).slots j none l) (hP : P i)
    (hT : T' = Function.update (Function.update T d (((T d).withSlots l).withNlink (if (T i).type = T_DIR then (T d).nlink - 1 else (T d).nlink))) i
      ((T i).withNlink ((T i).nlink - 1))) : TreeOk N T' P := by
  obtain ⟨n, hn⟩ := h.slot
  rcases (htree.node i).kinds.resolve_left hlive with hi | hi
  · rw [if_pos hi] at hT
    exact htree.removeDir h.dir h.behind hn hs hi (h.empty hi) h.last hP hT
  · rw [if_neg (file_ne_dir hi)] at hT
    exact htree.removeFile h.dir h.behind hn hs hi hP hT

theorem During.unlinkParent (h : During sb w B w₁ E T) (hdp : Opened w₁ dp d) (hip : Opened w₁ ip i)
    (htwo : (T i).type = T_DIR → 2 ≤ (T d).nlink ∧ IsShort (T d).nlink)
    (hw₂ : w₂ = if (w₁.inode ip).d.type = T_DIR then iupdateAt sb dp { (w₁.inode dp).d with nlink := short ((w₁.inode dp).d.nlink - 1) } w₁ else w₁) :
    During sb w B w₂ E (Function.update T d ((T d).withNlink (if (T i).type = T_DIR then (T d).nlink - 1 else (T d).nlink))) := by
  rw [h.type hip] at hw₂
  split at hw₂
  · next hdir =>
    obtain ⟨htwo, hshort⟩ := htwo hdir
    unfold IsShort at hshort
    rw [h.nlink hdp] at hw₂
    rw [if_pos hdir]
    exact (h.setNlink hdp (show IsShort _ from ⟨by omega, by omega⟩) (by omega) hw₂).1
  · next hdir =>
    rw [if_neg hdir]
    subst hw₂
    rwa [show ((T d).withNlink (T d).nlink) = T d from rfl, Function.update_eq_self]

/-- The entry is cleared; the inode loses a link, and so does the parent of a directory. -/
theorem Settled.unlinkFound (hs : Settled sb w R) (h : During sb w R w₁ (Pi.single dp 1 + Pi.single ip 1) (treeOf sb w.img))
    (hdp : Opened w₁ dp d) (hip : Opened w₁ ip i) (hrem : Removable (treeOf sb w.img) d j i) (hok : unlinkFound sb dp ip (16 * j) w₁ = .ok w') :
    Settled sb w' R ∧ Keeps sb R w w' := by
  have hpos := single_pos hs.refs_nonneg ip
  have hle : R ≤ R + Pi.single ip 1 := le_add_of_nonneg_right (single_nonneg ip)
  obtain ⟨n, hn⟩ := hrem.slot
  obtain ⟨⟨r, d', img⟩, hwrite, hrest⟩ := bind_mapError_ok hok
  dsimp only at hrest
  split at hrest
  · cases hrest
  next hr =>
  obtain rfl : r = some 16 := not_not.1 hr
  -- the slot
  obtain ⟨l, hstored, h₂⟩ := (h.hold (single_nonneg dp) (single_nonneg ip)).writeSlot hdp hrem.dir (List.getElem?_eq_some_iff.1 hn).1.le
    List.length_replicate (by rintro _ _ ⟨⟩) hwrite
  have hst := stays_write w₁ dp d' img
  -- the parent
  obtain ⟨w₃, hw₃⟩ : ∃ w₃, w₃ = if ((w₁.write dp d' img).inode ip).d.type = T_DIR then iupdateAt sb dp { ((w₁.write dp d' img).inode dp).d with
      nlink := short (((w₁.write dp d' img).inode dp).d.nlink - 1) } (w₁.write dp d' img) else w₁.write dp d' img := ⟨_, rfl⟩
  rw [← hw₃] at hrest
  have h₃ := h₂.unlinkParent (hst dp d hdp) (hst ip i hip) (fun hdir => ?_) hw₃
  rw [Function.update_self, Function.update_of_ne hrem.ne, Function.update_idem] at h₃
  · obtain ⟨w₄, hput, hrest₄⟩ := bind_mapError_ok hrest
    have h₄ := h₃.done hput
    have ho := h₄.opened hip hpos
    -- the inode
    obtain ⟨w₅, hw₅⟩ : ∃ w₅, w₅ = iupdateAt sb ip { (w₄.inode ip).d with nlink := short ((w₄.inode ip).d.nlink - 1) } w₄ := ⟨_, rfl⟩
    rw [← hw₅] at hrest₄
    rw [h₄.nlink ho, Function.update_of_ne hrem.ne] at hw₅
    have hone := hrem.linked
    have hshort := isShort_nlink sb w.img i
    unfold IsShort at hshort
    obtain ⟨h₅, -⟩ := h₄.setNlink ho (show IsShort _ from ⟨by omega, by omega⟩) (fun _ => hpos) hw₅
    rw [Function.update_of_ne hrem.ne] at h₅
    have htree : TreeOk sb.ninodes (treeOf sb w.img) (HeldBy w₁ (R + Pi.single ip 1)) :=
      hs.tree.mono fun _ _ _ hi => (hi.keeps h.keeps).mono hle
    obtain ⟨hset, hkeep⟩ := h₅.settled (hrem.treeOk htree (h.live hip) hstored ⟨ip, hpos, hip.inum, hip.valid⟩ rfl)
    rw [add_zero] at hset
    obtain ⟨hset', hkeep'⟩ := hset.iunlockput hs.refs_nonneg ((mapError_eq_ok _).1 hrest₄)
    exact ⟨hset', (h.keeps.trans (hkeep.mono hle)).trans hkeep'⟩
  · rw [Function.update_of_ne hrem.ne] at hdir
    rw [Function.update_self]
    exact ⟨hs.tree.two_le_nlink hrem.dir hdir (Node.rest_pos hrem.behind hn), isShort_nlink sb w.img d⟩

theorem NodeOk.two_le_find {N j : Nat} {T : Nat → Node} {d : Nat} (h : NodeOk N T d) (hd : (T d).type = T_DIR)
    (hj : (T d).slots[j]? = some (some (name, i))) (hdot : name ≠ [46]) (hdots : name ≠ [46, 46]) : 2 ≤ j := by
  obtain ⟨p, htake, -⟩ := h.dots hd
  by_contra hlt
  have hj' : ((T d).slots.take 2)[j]? = some (some (name, i)) := by rw [List.getElem?_take, if_pos (Nat.lt_of_not_le hlt), hj]
  rw [htake] at hj'
  rcases Nat.le_one_iff_eq_zero_or_eq_one.1 (Nat.le_of_lt_succ (Nat.lt_of_not_le hlt)) with rfl | rfl
  · cases hj'
    exact hdot rfl
  · cases hj'
    exact hdots rfl

theorem Settled.unlink {p p' : Proc} {r : Option Nat} (h : Settled sb w R) (hcwd : 0 < R p.cwd) (hstays : ParentStays sb w p.cwd path)
    (hok : sysUnlink sb path w p = .ok (r, w', p')) : p' = p ∧ Settled sb w' R ∧ Keeps sb R w w' := by
  obtain ⟨⟨parent, w₁⟩, hnamex, hrest⟩ := bind_mapError_ok hok
  obtain ⟨h₁, hfound⟩ := h.during.namex hcwd (dir_ne_zero h.tree.root.1) hnamex
  obtain _ | ⟨dp, name⟩ := parent
  · cases hrest
    exact ⟨rfl, h.back h₁⟩
  obtain ⟨es, hel, hwalk, hdir⟩ := hfound rfl dp name rfl
  obtain ⟨w₂, hlock, hrest₂⟩ := bind_mapError_ok hrest
  obtain ⟨h₂, ho, -⟩ := h₁.ilock hlock
  obtain ⟨d, hd⟩ : ∃ d, (w₁.inode dp).inum = d := ⟨_, rfl⟩
  rw [hd] at ho hwalk hdir
  dsimp only at hrest₂
  split at hrest₂
  · obtain ⟨w₃, hput, hrest₃⟩ := bind_mapError_ok hrest₂
    cases hrest₃
    exact ⟨rfl, h.back (h₂.done hput)⟩
  next hdots =>
  obtain ⟨⟨found, d', img⟩, hlook, hrest₃⟩ := bind_mapError_ok hrest₂
  obtain ⟨-, rfl, rfl, rfl⟩ := h₂.dirlookup ho hlook
  have hsame : w₂.write dp (w₂.inode dp).d w₂.img = w₂ := World.set_same w₂ dp
  dsimp only at hrest₃
  rw [hsame, take_last hel] at hrest₃
  split at hrest₃
  · obtain ⟨w₃, hput, hrest₄⟩ := bind_mapError_ok hrest₃
    cases hrest₄
    exact ⟨rfl, h.back (h₂.done hput)⟩
  next inum off hfind =>
  obtain ⟨⟨i, j⟩, hij, hoff⟩ := Option.map_eq_some_iff.1 hfind
  cases hoff
  obtain ⟨m, hm, hslot⟩ := SlotMap.find_spec hij
  obtain rfl : j = m := hm.trans (Nat.zero_add m)
  obtain ⟨⟨ip, w₃⟩, hget, hrest₄⟩ := bind_mapError_ok hrest₃
  obtain ⟨h₃, hinum₃, hkeep₃⟩ := h₂.iget (h₂.find_live hij) hget
  obtain ⟨w₄, hlock₄, hrest₅⟩ := bind_mapError_ok hrest₄
  obtain ⟨h₄, hip, hkeep₄⟩ := h₃.ilock hlock₄
  change (w₃.inode ip).inum = i at hinum₃
  rw [hinum₃] at hip
  split at hrest₅
  · cases hrest₅
  next hlinked =>
  obtain ⟨⟨empty, w₅⟩, hrem, hrest₆⟩ := bind_ok hrest₅
  obtain ⟨rfl, hempty⟩ := h₄.removable hip hrem
  cases empty with
  | false =>
    obtain ⟨w₆, hput, hrest₇⟩ := bind_mapError_ok hrest₆
    obtain ⟨w₇, hput₇, hrest₈⟩ := bind_mapError_ok hrest₇
    cases hrest₈
    obtain ⟨h₆, -⟩ := h₄.iunlockput rfl (single_nonneg dp) hput
    exact ⟨rfl, h.back (h₆.done hput₇)⟩
  | true =>
    obtain ⟨w₆, hunlink, hrest₇⟩ := bind_ok hrest₆
    cases hrest₇
    have hdp : Opened w₅ dp d := ho.keeps (hkeep₃.trans (hkeep₄ _)) (by
      rw [ilock_refs hlock₄, iget_refs hget]
      exact ho.pos.trans_le (le_add_of_nonneg_right (single_nonneg ip) dp))
    rw [h₄.nlink hip] at hlinked
    have hname : name ≠ [46] ∧ name ≠ [46, 46] := by
      refine ⟨?_, ?_⟩
      · rintro rfl
        exact hdots (.inl (by decide))
      · rintro rfl
        exact hdots (.inr (by decide))
    have hrem : Removable (treeOf sb w.img) d j i := by
      refine ⟨hdir, NodeOk.two_le_find (h.tree.node d) hdir hslot hname.1 hname.2, ⟨name, hslot⟩, hempty rfl, ?_, by omega⟩
      refine fun c hc => hstays i ?_ c ((h.tree.node c).bound (dir_ne_zero hc)) hc
      rw [hel, goTo_concat hwalk hdir, SlotMap.get, hij]
      rfl
    exact ⟨rfl, h.unlinkFound h₄ hdp hip hrem hunlink⟩

end Ostep.Fs.Kernel
