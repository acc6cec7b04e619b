import Mathlib.Algebra.Order.Group.Int
import Mathlib.Algebra.Order.Pi
import Ostep.Fs.Namex
import Ostep.Fs.Nodes

/-!
# The inode cache over the tree

A slot with references holds an inode in use, and what it has read is what the disk holds (`Cached`). A call has references of its own
before it ends, and the tree need not be right (`During`). A walk along a path leaves the disk alone: the inodes without links are
those that somebody else holds, so that none of its references is the last one.
-/

namespace Ostep.Fs.Kernel

variable {sb : SuperBlock} {w w' w'' w₁ w₂ : World} {B B' E E' : Nat → Int} {T : Nat → Node} {i j k l inum : Nat} {name : List UInt8}

/-- Slot `k` holds an inode in use. -/
structure SlotOk (sb : SuperBlock) (w : World) (k : Nat) : Prop where
  bound : k < NINODE
  fresh : (w.inode k).valid = true → (w.inode k).d = (diskInodes sb w.img).inode (w.inode k).inum
  live : ((diskInodes sb w.img).inode (w.inode k).inum).type ≠ 0

structure Cached (sb : SuperBlock) (w : World) : Prop where
  good : Good sb w.img
  nonneg : 0 ≤ w.refs
  slot : ∀ k, 0 < w.refs k → SlotOk sb w k
  inj : ∀ k l, 0 < w.refs k → 0 < w.refs l → (w.inode k).inum = (w.inode l).inum → k = l

/-- What the holders of the references `B` rely on. -/
structure Keeps (sb : SuperBlock) (B : Nat → Int) (w w' : World) : Prop where
  inum : ∀ k, 0 < B k → (w'.inode k).inum = (w.inode k).inum
  valid : ∀ k, 0 < B k → (w.inode k).valid = true → (w'.inode k).valid = true
  type : ∀ k, 0 < B k → (treeOf sb w'.img (w.inode k).inum).type = (treeOf sb w.img (w.inode k).inum).type

theorem Keeps.refl (sb : SuperBlock) (B : Nat → Int) (w : World) : Keeps sb B w w := ⟨fun _ _ => rfl, fun _ _ => id, fun _ _ => rfl⟩

theorem Keeps.trans (h : Keeps sb B w w') (h' : Keeps sb B w' w'') : Keeps sb B w w'' where
  inum := fun k hk => (h'.inum k hk).trans (h.inum k hk)
  valid := fun k hk hv => h'.valid k hk (h.valid k hk hv)
  type := fun k hk => by
    have ht := h'.type k hk
    rw [h.inum k hk] at ht
    exact ht.trans (h.type k hk)

theorem Keeps.mono (h : Keeps sb B' w w') (hle : B ≤ B') : Keeps sb B w w' where
  inum := fun k hk => h.inum k (hk.trans_le (hle k))
  valid := fun k hk => h.valid k (hk.trans_le (hle k))
  type := fun k hk => h.type k (hk.trans_le (hle k))

@[simp] theorem World.set_self (w : World) (k : Nat) (ip : Inode) : (w.set k ip).inode k = ip := Function.update_self ..

theorem World.set_of_ne (hl : l ≠ k) (w : World) (ip : Inode) : (w.set k ip).inode l = w.inode l := Function.update_of_ne hl ..

theorem keeps_set {ip : Inode} (sb : SuperBlock) (B : Nat → Int) (hinum : ip.inum = (w.inode k).inum)
    (hvalid : (w.inode k).valid = true → ip.valid = true) : Keeps sb B w (w.set k ip) := by
  refine ⟨fun l _ => ?_, fun l _ hv => ?_, fun _ _ => rfl⟩
  · rcases eq_or_ne l k with rfl | hl
    · rw [World.set_self, hinum]
    · rw [World.set_of_ne hl]
  · rcases eq_or_ne l k with rfl | hl
    · rw [World.set_self]
      exact hvalid hv
    · rw [World.set_of_ne hl]
      exact hv

/-- Only slot `k` changes, and on the disk only what the other slots do not hold. -/
theorem Cached.of_slot (h : Cached sb w) (k : Nat) (hg : Good sb w'.img) (hother : ∀ l, l ≠ k → w'.inode l = w.inode l)
    (hdisk : ∀ l, l ≠ k → 0 < w.refs l → (diskInodes sb w'.img).inode (w.inode l).inum = (diskInodes sb w.img).inode (w.inode l).inum)
    (h0 : 0 ≤ w'.refs k) (hk : 0 < w'.refs k → SlotOk sb w' k ∧ ∀ l, l ≠ k → 0 < w.refs l → (w.inode l).inum ≠ (w'.inode k).inum) :
    Cached sb w' := by
  have hrefs : ∀ l, l ≠ k → w'.refs l = w.refs l := fun l hl => by rw [World.refs, hother l hl, World.refs]
  refine ⟨hg, fun l => ?_, fun l hl => ?_, fun l m hl hm heq => ?_⟩
  · rcases eq_or_ne l k with rfl | hlk
    · exact h0
    · exact (h.nonneg l).trans (hrefs l hlk).ge
  · rcases eq_or_ne l k with rfl | hlk
    · exact (hk hl).1
    · rw [hrefs l hlk] at hl
      have hs := h.slot l hl
      refine ⟨hs.bound, ?_, ?_⟩
      · rw [hother l hlk, hdisk l hlk hl]
        exact hs.fresh
      · rw [hother l hlk, hdisk l hlk hl]
        exact hs.live
  · rcases eq_or_ne l k with rfl | hlk
    · rcases eq_or_ne m l with rfl | hml
      · rfl
      · rw [hrefs m hml] at hm
        rw [hother m hml] at heq
        exact absurd heq.symm ((hk hl).2 m hml hm)
    · rw [hrefs l hlk] at hl
      rw [hother l hlk] at heq
      rcases eq_or_ne m k with rfl | hmk
      · exact absurd heq ((hk hm).2 l hlk hl)
      · rw [hrefs m hmk] at hm
        rw [hother m hmk] at heq
        exact h.inj l m hl hm heq

theorem Cached.ne (h : Cached sb w) (hk : 0 < w.refs k) (l : Nat) (hl : l ≠ k) (hpos : 0 < w.refs l) : (w.inode l).inum ≠ (w.inode k).inum :=
  fun heq => hl (h.inj l k hpos hk heq)

theorem Cached.set {ip : Inode} (h : Cached sb w) (h0 : 0 ≤ ip.ref) (hk : 0 < ip.ref → k < NINODE)
    (hinj : 0 < ip.ref → ∀ l, l ≠ k → 0 < w.refs l → (w.inode l).inum ≠ ip.inum)
    (hfresh : 0 < ip.ref → ip.valid = true → ip.d = (diskInodes sb w.img).inode ip.inum)
    (hlive : 0 < ip.ref → ((diskInodes sb w.img).inode ip.inum).type ≠ 0) : Cached sb (w.set k ip) := by
  have hself := w.set_self k ip
  refine h.of_slot k h.good (fun l hl => World.set_of_ne hl w ip) (fun _ _ _ => rfl) ?_ ?_
  · rw [World.refs, hself]
    exact h0
  · rw [World.refs, hself]
    refine fun hpos => ⟨⟨hk hpos, ?_, ?_⟩, hinj hpos⟩
    · rw [hself]
      exact hfresh hpos
    · rw [hself]
      exact hlive hpos

theorem Cached.setRef {r : Int} (h : Cached sb w) (h0 : 0 ≤ r) (hr : 0 < r → 0 < w.refs k) : Cached sb (w.set k { w.inode k with ref := r }) :=
  h.set h0 (fun hpos => (h.slot k (hr hpos)).bound) (fun hpos => h.ne (hr hpos)) (fun hpos => (h.slot k (hr hpos)).fresh)
    fun hpos => (h.slot k (hr hpos)).live

/-! ### `iget` and `ilock` -/

theorem Cached.iget (h : Cached sb w) (hlive : (treeOf sb w.img inum).type ≠ 0) (hok : iget inum w = .ok (k, w')) :
    Cached sb w' ∧ w'.img = w.img ∧ (w'.inode k).inum = inum ∧ Keeps sb w.refs w w' := by
  unfold Kernel.iget at hok
  split at hok
  · next l hl =>
    cases hok
    have hfound := List.find?_some hl
    simp only [decide_eq_true_eq] at hfound
    have hpos : 0 < w.refs k := hfound.1
    refine ⟨h.setRef (by unfold World.refs at hpos; omega) fun _ => hpos, rfl, ?_, keeps_set sb _ rfl id⟩
    rw [World.set_self]
    exact hfound.2
  · next hnone =>
    split at hok
    · next l hl =>
      cases hok
      have hzero : w.refs k = 0 := show (w.inode k).ref = 0 by simpa using List.find?_some hl
      have hk : k < NINODE := List.mem_range.1 (List.mem_of_find?_eq_some hl)
      rw [type_treeOf] at hlive
      refine ⟨h.set Int.one_nonneg (fun _ => hk) (fun _ l _ hpos heq => ?_) (by rintro _ ⟨⟩) (fun _ => hlive), rfl, ?_, ?_⟩
      · -- the slot would have been found
        have hnot := List.find?_eq_none.1 hnone l (List.mem_range.2 (h.slot l hpos).bound)
        simp only [decide_eq_true_eq] at hnot
        exact hnot ⟨hpos, heq⟩
      · rw [World.set_self]
      · have hother : ∀ l, 0 < w.refs l → (w.set k { w.inode k with inum, ref := 1, valid := false }).inode l = w.inode l := by
          intro l hl
          refine World.set_of_ne ?_ w _
          rintro rfl
          omega
        exact ⟨fun l hl => by rw [hother l hl], fun l hl hv => by rw [hother l hl]; exact hv, fun _ _ => rfl⟩
    · cases hok

structure Opened (w : World) (k i : Nat) : Prop where
  pos : 0 < w.refs k
  valid : (w.inode k).valid = true
  inum : (w.inode k).inum = i

/-- What is open stays so. -/
def Stays (w w' : World) : Prop := ∀ k i, Opened w k i → Opened w' k i

theorem Opened.keeps (h : Opened w k i) (hk : Keeps sb w.refs w w') (hpos : 0 < w'.refs k) : Opened w' k i :=
  ⟨hpos, hk.valid k h.pos h.valid, (hk.inum k h.pos).trans h.inum⟩

theorem Cached.d (h : Cached sb w) (ho : Opened w k i) : (w.inode k).d = (diskInodes sb w.img).inode i := by
  rw [(h.slot k ho.pos).fresh ho.valid, ho.inum]

theorem Cached.ilock (h : Cached sb w) (hok : ilock sb k w = .ok w') :
    Cached sb w' ∧ w'.img = w.img ∧ (∀ B, Keeps sb B w w') ∧ Opened w' k (w.inode k).inum := by
  have hrefs := ilock_refs hok
  obtain ⟨hpos, -⟩ := ilock_spec hok
  have hpos : 0 < w.refs k := hpos
  unfold Kernel.ilock at hok
  dsimp only at hok
  split at hok
  · cases hok
  split at hok
  · next hvalid =>
    split at hok
    · cases hok
    · cases hok
      have hs := h.slot k hpos
      have hu : (diskInodes sb w.img).Used sb (w.inode k).inum := used_iff.2 (by rw [type_treeOf]; exact hs.live)
      refine ⟨h.set hpos.le (fun _ => hs.bound) (fun _ => h.ne hpos) (fun _ _ => (if_pos hu.1).symm) (fun _ => hs.live), rfl,
        fun B => keeps_set sb B rfl fun _ => rfl, ⟨by rw [hrefs]; exact hpos, ?_, ?_⟩⟩
      · rw [World.set_self]
      · rw [World.set_self]
  · next hvalid =>
    cases hok
    exact ⟨h, rfl, fun B => .refl .., hpos, by simpa using hvalid, rfl⟩

/-! ### Calls -/

theorem single_nonneg (k : Nat) : (0 : Nat → Int) ≤ Pi.single k 1 := Pi.single_nonneg.2 Int.one_nonneg

theorem held_nonneg (r : Option Nat) : 0 ≤ held r := by
  cases r with
  | none => exact le_refl _
  | some k => exact single_nonneg k

/-- A reference in `R` is to a slot that has read inode `i`. -/
def HeldBy (w : World) (R : Nat → Int) (i : Nat) : Prop := ∃ k, 0 < R k ∧ (w.inode k).inum = i ∧ (w.inode k).valid = true

theorem HeldBy.keeps (h : HeldBy w B i) (hk : Keeps sb B w w') : HeldBy w' B i := by
  obtain ⟨k, hpos, hinum, hv⟩ := h
  exact ⟨k, hpos, (hk.inum k hpos).trans hinum, hk.valid k hpos hv⟩

theorem HeldBy.mono (h : HeldBy w B i) (hle : B ≤ B') : HeldBy w B' i := by
  obtain ⟨k, hpos, hrest⟩ := h
  exact ⟨k, hpos.trans_le (hle k), hrest⟩

/-- Directories name inodes in use, and each inode without links is in a slot that `B` refers to. -/
structure Calm (sb : SuperBlock) (w : World) (B : Nat → Int) : Prop extends Cached sb w where
  named : ∀ d (j : Nat) n x, (treeOf sb w.img d).slots[j]? = some (some (n, x)) → (treeOf sb w.img x).type ≠ 0
  base : 0 ≤ B ∧ B ≤ w.refs
  held : ∀ i, (treeOf sb w.img i).type ≠ 0 → (treeOf sb w.img i).nlink = 0 → HeldBy w B i

/-- A call that started in `w` has reached `w'`. It holds the references `E`, others hold `B`, and the tree is `T`. -/
structure During (sb : SuperBlock) (w : World) (B : Nat → Int) (w' : World) (E : Nat → Int) (T : Nat → Node) : Prop extends Calm sb w' B where
  keeps : Keeps sb B w w'
  refs : w'.refs = B + E
  tree : treeOf sb w'.img = T

namespace During

section
variable (h : During sb w B w₁ E T)
include h

theorem own_nonneg : 0 ≤ E := by
  have hle := h.base.2
  rwa [h.refs, le_add_iff_nonneg_right] at hle

theorem live (ho : Opened w₁ k i) : (T i).type ≠ 0 := by
  rw [← h.tree, ← ho.inum, type_treeOf]
  exact (h.slot k ho.pos).live

theorem type (ho : Opened w₁ k i) : (w₁.inode k).d.type = (T i).type := by
  rw [h.d ho, ← type_treeOf, h.tree]

theorem nlink (ho : Opened w₁ k i) : (w₁.inode k).d.nlink = (T i).nlink := by
  have hu : (diskInodes sb w₁.img).Used sb i := by
    rw [used_iff, h.tree]
    exact h.live ho
  rw [h.d ho, ← h.tree, treeOf_of_used hu]
  rfl

theorem read (hc : Cached sb w₂) (himg : w₂.img = w₁.img) (hk : Keeps sb w₁.refs w₁ w₂) (hrefs : w₂.refs = B + E')
    (h0 : 0 ≤ E') : During sb w B w₂ E' T := by
  have hk' := hk.mono h.base.2
  refine ⟨⟨hc, ?_, ⟨h.base.1, ?_⟩, fun i => ?_⟩, h.keeps.trans hk', hrefs, by rw [himg, h.tree]⟩
  · rw [himg]
    exact h.named
  · rw [hrefs]
    exact le_add_of_nonneg_right h0
  · rw [himg]
    exact fun ht hn => (h.held i ht hn).keeps hk'

theorem iget (hlive : (T i).type ≠ 0) (hok : iget i w₁ = .ok (k, w₂)) :
    During sb w B w₂ (E + Pi.single k 1) T ∧ (w₂.inode k).inum = i ∧ Keeps sb w₁.refs w₁ w₂ := by
  rw [← h.tree] at hlive
  obtain ⟨hc, himg, hinum, hk⟩ := h.toCached.iget hlive hok
  refine ⟨h.read hc himg hk ?_ (add_nonneg h.own_nonneg (single_nonneg k)), hinum, hk⟩
  rw [iget_refs hok, h.refs, add_assoc]

theorem ilock (hok : ilock sb k w₁ = .ok w₂) :
    During sb w B w₂ E T ∧ Opened w₂ k (w₁.inode k).inum ∧ ∀ B', Keeps sb B' w₁ w₂ := by
  obtain ⟨hc, himg, hk, ho⟩ := h.toCached.ilock hok
  exact ⟨h.read hc himg (hk _) ((ilock_refs hok).trans h.refs) h.own_nonneg, ho, hk⟩

theorem iput (hE : E = E' + Pi.single k 1) (h0 : 0 ≤ E') (hok : iput sb k w₁ = .ok w₂) :
    During sb w B w₂ E' T ∧ ∀ B', Keeps sb B' w₁ w₂ := by
  have hrefs := h.refs
  rw [hE, ← add_assoc] at hrefs
  have hk : w₁.refs k = B k + E' k + 1 := by rw [hrefs, Pi.add_apply, Pi.single_eq_same, Pi.add_apply]
  have hB : 0 ≤ B k := h.base.1 k
  have hE' : 0 ≤ E' k := h0 k
  have hsame : freeUnlinked sb k w₁ = .ok w₁ := by
    refine if_neg fun hfree => ?_
    obtain ⟨hv, hn, hr⟩ := hfree
    have hpos : 0 < w₁.refs k := by omega
    have ho : Opened w₁ k (w₁.inode k).inum := ⟨hpos, hv, rfl⟩
    rw [h.nlink ho, ← h.tree] at hn
    obtain ⟨l, hl, hinum, -⟩ := h.held _ (by rw [h.tree]; exact h.live ho) hn
    obtain rfl := h.inj l k (hl.trans_le (h.base.2 l)) hpos hinum
    have hr : w₁.refs l = 1 := hr
    omega
  have hrefs₂ := iput_refs hok
  unfold Kernel.iput at hok
  rw [hsame, ok_bind] at hok
  cases hok
  have hkeep : ∀ B', Keeps sb B' w₁ (w₁.set k { w₁.inode k with ref := (w₁.inode k).ref - 1 }) := fun B' => keeps_set sb B' rfl id
  have hr : (w₁.inode k).ref = B k + E' k + 1 := hk
  refine ⟨h.read (h.setRef (by omega) fun _ => by omega) rfl (hkeep _) ?_ h0, hkeep⟩
  rw [hrefs₂, hrefs, add_sub_cancel_right]

theorem iunlockput (hE : E = E' + Pi.single k 1) (h0 : 0 ≤ E') (hok : iunlockput sb k w₁ = .ok w₂) :
    During sb w B w₂ E' T ∧ ∀ B', Keeps sb B' w₁ w₂ := by
  obtain ⟨-, -, hok⟩ := bind_ok hok
  exact h.iput hE h0 hok

end

theorem hold (h : During sb w B w₁ (E + E') T) (hE : 0 ≤ E) (hE' : 0 ≤ E') : During sb w₁ (B + E') w₁ E T where
  toCached := h.toCached
  named := h.named
  base := ⟨add_nonneg h.base.1 hE', by
    rw [h.refs]
    exact add_le_add_right (le_add_of_nonneg_left hE) B⟩
  held := fun i ht hn => (h.held i ht hn).mono (le_add_of_nonneg_right hE')
  keeps := .refl ..
  refs := by rw [h.refs, add_comm E, add_assoc]
  tree := h.tree

theorem opened (h : During sb w B w₁ E T) (ho : Opened w k i) (hk : 0 < B k) : Opened w₁ k i :=
  ⟨hk.trans_le (h.base.2 k), h.keeps.valid k hk ho.valid, (h.keeps.inum k hk).trans ho.inum⟩

theorem done (h : During sb w B w₁ (Pi.single k 1) T) (hok : Kernel.iunlockput sb k w₁ = .ok w₂) : During sb w B w₂ 0 T :=
  (h.iunlockput (zero_add _).symm (le_refl _) hok).1

end During

/-! ### Paths -/

theorem World.set_same (w : World) (k : Nat) : ({ w.set k { w.inode k with d := (w.inode k).d } with img := w.img } : World) = w := by
  show (⟨Function.update w.inode k (w.inode k), w.img⟩ : World) = w
  rw [Function.update_eq_self]

theorem During.whole (h : During sb w B w₁ E T) (ho : Opened w₁ k i) (hdir : (T i).type = T_DIR) :
    Whole w₁.img (w₁.inode k).d ∧ (w₁.inode k).d.size % 16 = 0 ∧ slotsIn (data w₁.img (w₁.inode k).d) = (T i).slots := by
  rw [← h.tree] at hdir
  have hu : (diskInodes sb w₁.img).Used sb i := used_iff.2 (dir_ne_zero hdir)
  rw [h.d ho, ← h.tree, slots_treeOf hdir]
  exact ⟨h.good.consistent.whole i hu, h.good.aligned i (by rw [← type_treeOf, hdir]), rfl⟩

theorem During.dirlookup {r : Option (Nat × Nat)} {d : DInode} {img : Image} (h : During sb w B w₁ E T) (ho : Opened w₁ k i)
    (hok : dirlookup sb (w₁.inode k).d w₁.img name = .ok (r, d, img)) :
    (T i).type = T_DIR ∧ d = (w₁.inode k).d ∧ img = w₁.img ∧ r = (SlotMap.find (name.take DIRSIZ) 0 (T i).slots).map fun x => (x.1, 16 * x.2) := by
  have htype : (w₁.inode k).d.type = T_DIR := by
    unfold Kernel.dirlookup at hok
    split at hok
    · cases hok
    · next ht => exact not_not.1 ht
  have hdir := (h.type ho).symm.trans htype
  obtain ⟨hw, hal, hslots⟩ := h.whole ho hdir
  have hlook := dirlookup_slots sb hw hal htype name
  rw [hok, hslots] at hlook
  cases hlook
  exact ⟨hdir, rfl, rfl, rfl⟩

theorem During.find_live (h : During sb w B w₁ E T) {d : Nat} (hf : SlotMap.find name 0 (T d).slots = some (i, j)) : (T i).type ≠ 0 := by
  obtain ⟨m, -, hm⟩ := SlotMap.find_spec hf
  rw [← h.tree] at hm ⊢
  exact h.named d m name i hm

theorem During.dirlookupAt {r : Option Nat} (h : During sb w B w₁ E T) (ho : Opened w₁ k i) (hok : dirlookupAt sb k name w₁ = .ok (r, w₂)) :
    (T i).type = T_DIR ∧ During sb w B w₂ (E + Kernel.held r) T ∧ Keeps sb w₁.refs w₁ w₂ ∧ (r = none → w₂ = w₁) ∧
      SlotMap.get (T i).slots (name.take DIRSIZ) = r.map fun l => (w₂.inode l).inum := by
  obtain ⟨⟨found, d, img⟩, hlook, hok⟩ := bind_mapError_ok hok
  obtain ⟨hdir, rfl, rfl, rfl⟩ := h.dirlookup ho hlook
  dsimp only at hok
  rw [World.set_same] at hok
  unfold SlotMap.get
  cases hf : SlotMap.find (name.take DIRSIZ) 0 (T i).slots with
  | none =>
    rw [hf] at hok
    cases hok
    exact ⟨hdir, by rwa [Kernel.held, add_zero], .refl .., fun _ => rfl, rfl⟩
  | some x =>
    obtain ⟨inum, j⟩ := x
    rw [hf] at hok
    obtain ⟨⟨next, w₃⟩, hget, hok⟩ := bind_ok hok
    cases hok
    obtain ⟨h₂, hinum, hkeep⟩ := h.iget (h.find_live hf) hget
    exact ⟨hdir, h₂, hkeep, by rintro ⟨⟩, by rw [Option.map_some, Option.map_some, hinum]⟩

/-- What `nameiparent` has found along the path `es` from inode `start`. -/
def Found (T : Nat → Node) (start : Nat) (es : List (List UInt8)) (w : World) (r : Option (Nat × List UInt8)) : Prop :=
  ∀ k name, r = some (k, name) →
    ∃ es', es = es' ++ [name] ∧ goTo T start es' = some (w.inode k).inum ∧ (T (w.inode k).inum).type = T_DIR

variable {start : Nat} {es : List (List UInt8)} {r : Option (Nat × List UInt8)}

theorem Found.none : Found T start es w none := by rintro _ _ ⟨⟩

theorem Found.cons {next : Nat} (h : Found T next es w r)
    (hdir : (T start).type = T_DIR) (hnext : SlotMap.get (T start).slots name = some next) : Found T start (name :: es) w r := by
  intro k last hr
  obtain ⟨es', rfl, hwalk, htype⟩ := h k last hr
  refine ⟨name :: es', rfl, ?_, htype⟩
  rw [goTo_cons hdir hnext, hwalk]

theorem take_element {path : List UInt8} (h : name ∈ elements path) : name.take DIRSIZ = name := by
  obtain ⟨f, -, rfl⟩ := List.mem_map.1 h
  rw [List.take_take, Nat.min_self]

namespace During
variable {parent : Bool} {path : List UInt8}

theorem namexDone (h : During sb w B w₁ (Pi.single k 1) T) (hok : namexDone sb parent k w₁ = .ok (r, w₂)) :
    During sb w B w₂ (Kernel.held (r.map Prod.fst)) T ∧ (parent = true → Found T start es w₂ r) := by
  unfold Kernel.namexDone at hok
  split at hok
  · obtain ⟨w₃, hput, hok⟩ := bind_ok hok
    cases hok
    exact ⟨(h.iput (zero_add _).symm (le_refl _) hput).1, fun _ => .none⟩
  · next hp =>
    cases hok
    exact ⟨h, fun ht => absurd ht hp⟩

theorem namexFrom {fuel : Nat} (h : During sb w B w₁ (Pi.single k 1) T) (hfuel : path.length ≤ fuel)
    (hok : namexFrom sb parent fuel k path w₁ = .ok (r, w₂)) :
    During sb w B w₂ (Kernel.held (r.map Prod.fst)) T ∧ (parent = true → Found T (w₁.inode k).inum (elements path) w₂ r) := by
  induction fuel generalizing k path w₁ with
  | zero => exact h.namexDone hok
  | succ fuel ih =>
    rw [Kernel.namexFrom] at hok
    obtain ⟨hskip, -⟩ | ⟨name, rest, hskip, hel, hlen, -⟩ := skipelem_cases path
    · rw [hskip] at hok
      exact h.namexDone hok
    rw [hskip] at hok
    obtain ⟨w₃, hlock, hok⟩ := bind_ok hok
    obtain ⟨h₃, ho, hkeep₃⟩ := h.ilock hlock
    dsimp only at hok
    split at hok
    · obtain ⟨w₄, hput, hok⟩ := bind_ok hok
      cases hok
      exact ⟨h₃.done hput, fun _ => .none⟩
    next htype =>
    have hdir : (T (w₁.inode k).inum).type = T_DIR := by
      rw [← h₃.type ho]
      exact not_not.1 htype
    split at hok
    · next hend =>
      obtain ⟨-, -, hok⟩ := bind_ok hok
      cases hok
      refine ⟨h₃, fun _ l last heq => ?_⟩
      cases heq
      rw [ho.inum]
      exact ⟨[], by rw [hel, hend.2]; rfl, rfl, hdir⟩
    obtain ⟨⟨next, w₄⟩, hlook, hok⟩ := bind_ok hok
    obtain ⟨-, h₄, -, -, hget⟩ := h₃.dirlookupAt ho hlook
    obtain ⟨w₅, hput, hok⟩ := bind_ok hok
    obtain ⟨h₅, hkeep₅⟩ := h₄.iunlockput (add_comm _ _) (held_nonneg next) hput
    cases next with
    | none =>
      cases hok
      exact ⟨h₅, fun _ => .none⟩
    | some n =>
      have hn : (w₅.inode n).inum = (w₄.inode n).inum := (hkeep₅ fun _ => 1).inum n Int.one_pos
      rw [take_element (by rw [hel]; exact List.mem_cons_self ..)] at hget
      have hnext : SlotMap.get (T (w₁.inode k).inum).slots name = some (w₅.inode n).inum := by rw [hget, hn]; rfl
      obtain ⟨h₆, hfound⟩ := ih h₅ (by omega) hok
      refine ⟨h₆, fun hp => ?_⟩
      rw [hel]
      exact (hfound hp).cons hdir hnext

/-- The loop of `namei` comes to where the path leads in the tree. -/
theorem namexFrom_goTo {fuel : Nat} (h : During sb w B w₁ (Pi.single k 1) T) (hfuel : path.length ≤ fuel)
    (hok : Kernel.namexFrom sb false fuel k path w₁ = .ok (r, w₂)) :
    r.map (fun x => (w₂.inode x.1).inum) = goTo T (w₁.inode k).inum (elements path) := by
  induction fuel generalizing k path w₁ with
  | zero =>
    rw [List.length_eq_zero_iff.1 (Nat.le_zero.1 hfuel)]
    cases hok
    rfl
  | succ fuel ih =>
    rw [Kernel.namexFrom] at hok
    obtain ⟨hskip, hnil⟩ | ⟨name, rest, hskip, hel, hlen, -⟩ := skipelem_cases path
    · rw [hskip] at hok
      cases hok
      rw [hnil]
      rfl
    rw [hskip] at hok
    obtain ⟨w₃, hlock, hok⟩ := bind_ok hok
    obtain ⟨h₃, ho, -⟩ := h.ilock hlock
    dsimp only at hok
    rw [hel, goTo]
    split at hok
    · next htype =>
      obtain ⟨w₄, -, hok⟩ := bind_ok hok
      cases hok
      rw [h₃.type ho] at htype
      rw [if_neg htype]
      rfl
    next htype =>
    rw [h₃.type ho, not_not] at htype
    rw [if_pos htype]
    rw [if_neg (by simp)] at hok
    obtain ⟨⟨next, w₄⟩, hlook, hok⟩ := bind_ok hok
    obtain ⟨-, h₄, -, -, hget⟩ := h₃.dirlookupAt ho hlook
    obtain ⟨w₅, hput, hok⟩ := bind_ok hok
    obtain ⟨h₅, hkeep₅⟩ := h₄.iunlockput (add_comm _ _) (held_nonneg next) hput
    rw [take_element (by rw [hel]; exact List.mem_cons_self ..)] at hget
    rw [hget]
    cases next with
    | none =>
      cases hok
      rfl
    | some n =>
      rw [Option.map_some, Option.bind_some, ← (hkeep₅ fun _ => 1).inum n Int.one_pos]
      exact ih h₅ (by omega) hok

end During

def startOf (w : World) (cwd : Nat) (path : List UInt8) : Nat := if path.head?.any isSlash then ROOTINO else (w.inode cwd).inum

theorem During.namexStart {cwd : Nat} {path : List UInt8} (h : During sb w B w₁ 0 T) (hcwd : 0 < B cwd) (hroot : (T ROOTINO).type ≠ 0)
    (hstart : Kernel.namexStart cwd path w₁ = .ok (k, w₂)) :
    During sb w B w₂ (Pi.single k 1) T ∧ (w₂.inode k).inum = startOf w₁ cwd path := by
  unfold Kernel.namexStart at hstart
  unfold startOf
  split at hstart
  · next hslash =>
    obtain ⟨h₂, hinum, -⟩ := h.iget hroot hstart
    rw [if_pos hslash]
    exact ⟨by rwa [zero_add] at h₂, hinum⟩
  · next hslash =>
    cases hstart
    have hpos : 0 < (w₁.inode k).ref := hcwd.trans_le (h.base.2 k)
    have hkeep : ∀ B, Keeps sb B w₁ (Kernel.idup k w₁) := fun B => keeps_set sb B rfl id
    refine ⟨h.read (h.setRef (by omega) fun _ => hpos) rfl (hkeep _) ?_ (single_nonneg k), ?_⟩
    · rw [← zero_add (Pi.single k 1 : Nat → Int), ← add_assoc, ← h.refs]
      exact idup_refs k w₁
    · rw [if_neg hslash]
      exact (hkeep B).inum k hcwd

theorem During.namex {cwd : Nat} {parent : Bool} {path : List UInt8} (h : During sb w B w₁ 0 T) (hcwd : 0 < B cwd)
    (hroot : (T ROOTINO).type ≠ 0) (hok : namex sb cwd parent path w₁ = .ok (r, w₂)) :
    During sb w B w₂ (Kernel.held (r.map Prod.fst)) T ∧ (parent = true → Found T (startOf w₁ cwd path) (elements path) w₂ r) := by
  obtain ⟨⟨k, w₃⟩, hstart, hok⟩ := bind_ok hok
  obtain ⟨h₃, hinum⟩ := h.namexStart hcwd hroot hstart
  rw [← hinum]
  exact h₃.namexFrom (Nat.le_refl _) hok

end Ostep.Fs.Kernel
