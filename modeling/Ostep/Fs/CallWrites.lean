import Ostep.Fs.Cached
import Ostep.Fs.Calls

/-!
# The writes of the calls on paths

What the writes in `sysfile.c` and `iput` do to the tree and the cache. Between two writes of a call the tree need not be right. At its
end it is again (`Settled`).
-/

namespace Ostep.Fs.Kernel

variable {sb : SuperBlock} {w w' w₁ w₂ : World} {B R E E' : Nat → Int} {T : Nat → Node} {i j k l inum : Nat} {name : List UInt8} {img' : Image}
  {d d' : DInode}

/-! ### The inode in a slot -/

@[simp] theorem World.write_self (w : World) (k : Nat) (d : DInode) (img : Image) : (w.write k d img).inode k = { w.inode k with d } :=
  Function.update_self ..

theorem World.write_of_ne (hl : l ≠ k) (w : World) (d : DInode) (img : Image) : (w.write k d img).inode l = w.inode l :=
  Function.update_of_ne hl ..

theorem World.write_fields (w : World) (k : Nat) (d : DInode) (img : Image) (l : Nat) :
    ((w.write k d img).inode l).inum = (w.inode l).inum ∧ (w.write k d img).refs l = w.refs l ∧
      ((w.write k d img).inode l).valid = (w.inode l).valid := by
  unfold World.refs
  rcases eq_or_ne l k with rfl | hl
  · rw [World.write_self]
    exact ⟨rfl, rfl, rfl⟩
  · rw [World.write_of_ne hl]
    exact ⟨rfl, rfl, rfl⟩

theorem World.write_refs (w : World) (k : Nat) (d : DInode) (img : Image) : (w.write k d img).refs = w.refs :=
  funext fun l => (w.write_fields k d img l).2.1

theorem stays_write (w : World) (k : Nat) (d : DInode) (img : Image) : Stays w (w.write k d img) := by
  intro l i ho
  obtain ⟨hinum, hrefs, hvalid⟩ := w.write_fields k d img l
  exact ⟨hrefs ▸ ho.pos, hvalid.trans ho.valid, hinum.trans ho.inum⟩

theorem short_eq {n : Int} (h : IsShort n) : short n = n := toInt16_toUint16 h

theorem exists_slotIn_direntBytes (hinum : 1 ≤ inum ∧ inum ≤ 65535) (name : List UInt8) : ∃ n, slotIn (direntBytes inum name) = some (n, inum) := by
  rw [slotIn, inum_direntBytes hinum.2, if_neg (by omega)]
  exact ⟨_, rfl⟩

section
variable (h : During sb w B w₁ E T) (ho : Opened w₁ k i)
include h ho

/-- The inode in slot `k` is written and stays in use. -/
theorem During.write (hre : Rewritten sb w₁.img i d' img') (ht : d'.type = (T i).type)
    (hnamed : ∀ (j : Nat) n x, (treeOf sb img' i).slots[j]? = some (some (n, x)) → (T x).type ≠ 0)
    (hheld : (treeOf sb img' i).nlink = 0 → 0 < B k) : During sb w B (w₁.write k d' img') E (Function.update T i (treeOf sb img' i)) := by
  have hfields := w₁.write_fields k d' img'
  have ho' := stays_write w₁ k d' img' k i ho
  have hlive := h.live ho
  obtain rfl := h.tree
  have htypes : ∀ x, (treeOf sb img' x).type = (treeOf sb w₁.img x).type := by
    intro x
    rcases eq_or_ne x i with rfl | hx
    · rw [type_treeOf, hre.self, ht]
    · rw [hre.nodes x hx]
  have hc : Cached sb (w₁.write k d' img') := by
    have hne := h.ne ho.pos
    rw [ho.inum] at hne
    refine h.of_slot k hre.good (fun l hl => World.write_of_ne hl ..) (fun l hl hpos => hre.other (hne l hl hpos)) ?_ fun _ => ⟨⟨?_, fun _ => ?_, ?_⟩, ?_⟩
    · rw [(hfields k).2.1]
      exact h.nonneg k
    · exact (h.slot k ho.pos).bound
    · rw [ho'.inum, World.write_self]
      exact hre.self.symm
    · rw [ho'.inum, ← type_treeOf]
      exact (htypes i).trans_ne hlive
    · rw [ho'.inum]
      exact hne
  have hkeep : Keeps sb B w₁ (w₁.write k d' img') := ⟨fun l _ => (hfields l).1, fun l _ => (hfields l).2.2.trans, fun l _ => htypes _⟩
  refine ⟨⟨hc, fun d j n x hx => ?_, ?_, fun x hx hn => ?_⟩, h.keeps.trans hkeep, (World.write_refs ..).trans h.refs,
    Function.eq_update_iff.2 ⟨rfl, fun x hx => hre.nodes x hx⟩⟩
  · refine (htypes x).trans_ne ?_
    rcases eq_or_ne d i with rfl | hd
    · exact hnamed j n x hx
    · exact h.named d j n x (hre.nodes d hd ▸ hx)
  · rw [World.write_refs]
    exact h.base
  · rcases eq_or_ne x i with rfl | hxi
    · exact ⟨k, hheld hn, ho'.inum, ho'.valid⟩
    · have hnode : treeOf sb (w₁.write k d' img').img x = treeOf sb w₁.img x := hre.nodes x hxi
      rw [hnode] at hx hn
      exact (h.held x hx hn).keeps hkeep

theorem During.setLinks (d' : DInode)
    (hd : d'.type = (w₁.inode k).d.type ∧ d'.size = (w₁.inode k).d.size ∧ d'.addrs = (w₁.inode k).d.addrs)
    (hshort : IsShort d'.major ∧ IsShort d'.minor ∧ IsShort d'.nlink) (hheld : d'.nlink = 0 → 0 < B k) :
    During sb w B (iupdateAt sb k d' w₁) E (Function.update T i ((T i).withNlink d'.nlink)) := by
  have hlive := h.live ho
  obtain rfl := h.tree
  have hu : (diskInodes sb w₁.img).Used sb i := used_iff.2 hlive
  rw [h.d ho] at hd
  obtain ⟨ht, hsize, haddrs⟩ := hd
  obtain ⟨hwt, -, -, -, hws, hwa⟩ := wf_diskInodes sb w₁.img i
  have hwf : d'.Wf := ⟨ht ▸ hwt, hshort.1, hshort.2.1, hshort.2.2, hsize ▸ hws, haddrs ▸ hwa⟩
  have hnode := h.good.iupdate_node hu hwf ht hsize haddrs
  have hw := h.write ho (h.good.iupdate hu hwf ht hsize haddrs) (by rw [ht, type_treeOf])
    (fun j n x hx => h.named i j n x (by rw [hnode] at hx; exact hx)) (by rw [hnode]; exact hheld)
  rw [hnode] at hw
  unfold iupdateAt
  rwa [ho.inum]

theorem During.setNlink {n : Int} (hn : IsShort n) (hheld : n = 0 → 0 < B k)
    (hw₂ : w₂ = iupdateAt sb k { (w₁.inode k).d with nlink := short n } w₁) :
    During sb w B w₂ E (Function.update T i ((T i).withNlink n)) ∧ Stays w₁ w₂ := by
  obtain ⟨-, hmajor, hminor, -⟩ := wf_diskInodes sb w₁.img i
  rw [← h.d ho] at hmajor hminor
  rw [short_eq hn] at hw₂
  subst hw₂
  exact ⟨h.setLinks ho _ ⟨rfl, rfl, rfl⟩ ⟨hmajor, hminor, hn⟩ hheld, stays_write w₁ k _ _⟩

/-! ### Entries -/

theorem During.writeSlot {de : List UInt8} (hdir : (T i).type = T_DIR) (hj : j ≤ (T i).slots.length)
    (hde : de.length = 16) (hentry : ∀ n x, slotIn de = some (n, x) → (T x).type ≠ 0)
    (hok : writei sb (w₁.inode k).inum (w₁.inode k).d w₁.img de (16 * j) = .ok (some 16, d', img')) :
    ∃ l, SlotMap.Stored (T i).slots j (slotIn de) l ∧ During sb w B (w₁.write k d' img') E (Function.update T i ((T i).withSlots l)) := by
  obtain rfl := h.tree
  rw [ho.inum, h.d ho] at hok
  obtain ⟨hre, l, hstored, hnode⟩ := h.good.writeSlot hdir hj hde hok
  have hw := h.write ho hre (by rw [← hre.self, ← type_treeOf, hnode]; rfl) (fun m n x hm => ?_) fun hn => ?_
  · rw [hnode] at hw
    exact ⟨l, hstored, hw⟩
  · rw [hnode] at hm
    change l[m]? = _ at hm
    rw [hstored] at hm
    split at hm
    · exact hentry n x (Option.some.inj hm)
    · exact h.named i m n x hm
  · rw [hnode] at hn
    obtain ⟨m, hm, heq, -⟩ := h.held i (dir_ne_zero hdir) hn
    rwa [← h.inj m k (hm.trans_le (h.base.2 m)) ho.pos (heq.trans ho.inum.symm)]

theorem During.putEntry (hdir : (T i).type = T_DIR) (hinum : (T inum).type ≠ 0)
    (hok : putEntry sb k name inum w₁ = .ok w₂) :
    ∃ j n l, Entered (T i).slots j n inum l ∧ (0 ∉ name → n = name.take DIRSIZ) ∧
      During sb w B w₂ E (Function.update T i ((T i).withSlots l)) ∧ Stays w₁ w₂ := by
  obtain ⟨hw, hal, hslots⟩ := h.whole ho hdir
  have hrange : 1 ≤ inum ∧ inum ≤ 65535 := by
    have hu : (diskInodes sb w₁.img).Used sb inum := used_iff.2 (by rw [h.tree]; exact hinum)
    have h0 := h.good.ne_zero hu
    have hlt := hu.1
    have hle := h.good.ninodes_le
    omega
  obtain ⟨n, hn⟩ := exists_slotIn_direntBytes hrange name
  obtain ⟨j, hj, heq, hnot, -⟩ := SlotMap.free_spec 0 (T i).slots
  have hfree := freeFrom_slots sb hw hal (Nat.zero_le _) (show _ < (w₁.inode k).d.size + 1 by omega)
  rw [Nat.mul_zero, List.drop_zero, hslots, heq, Nat.zero_add] at hfree
  unfold Kernel.putEntry at hok
  rw [hfree, mapError_ok, ok_bind] at hok
  obtain ⟨⟨r, d, img⟩, hwrite, hok⟩ := bind_mapError_ok hok
  dsimp only at hok
  split at hok
  · next hr =>
    cases hok
    subst hr
    obtain ⟨l, hstored, h₂⟩ := h.writeSlot ho hdir hj (length_direntBytes inum name) (fun m x hx => by rw [hn] at hx; cases hx; exact hinum) hwrite
    rw [hn] at hstored
    refine ⟨j, n, l, ⟨hj, hnot, hstored⟩, fun h0 => ?_, h₂, stays_write w₁ k d img⟩
    rw [slotIn_direntBytes hrange h0] at hn
    cases hn
    rfl
  · cases hok

theorem During.dirlinkAt_true (hinum : (T inum).type ≠ 0)
    (hok : dirlinkAt sb k name inum w₁ = .ok (true, w₂)) :
    (T i).type = T_DIR ∧ SlotMap.get (T i).slots (name.take DIRSIZ) = none ∧
      ∃ j n l, Entered (T i).slots j n inum l ∧ (0 ∉ name → n = name.take DIRSIZ) ∧
        During sb w B w₂ E (Function.update T i ((T i).withSlots l)) ∧ Stays w₁ w₂ := by
  obtain ⟨⟨found, w₃⟩, hlook, hrest⟩ := bind_mapError_ok hok
  obtain ⟨hdir, -, -, hnone, hget⟩ := h.dirlookupAt ho hlook
  cases found with
  | some ip =>
    obtain ⟨w₄, -, hret⟩ := bind_ok hrest
    cases hret
  | none =>
    obtain rfl := hnone rfl
    obtain ⟨w₄, hput, hret⟩ := bind_ok hrest
    cases hret
    exact ⟨hdir, hget, h.putEntry ho hdir hinum hput⟩

theorem During.dirlinkAt_false (hok : dirlinkAt sb k name inum w₁ = .ok (false, w₂)) :
    During sb w B w₂ E T := by
  obtain ⟨⟨found, w₃⟩, hlook, hok⟩ := bind_mapError_ok hok
  obtain ⟨-, h₃, -⟩ := h.dirlookupAt ho hlook
  cases found with
  | some ip =>
    obtain ⟨w₄, hput, hok⟩ := bind_mapError_ok hok
    cases hok
    exact (h₃.iput rfl h.own_nonneg hput).1
  | none =>
    obtain ⟨w₄, -, hok⟩ := bind_ok hok
    cases hok

end

/-! ### New inodes -/

theorem Cached.withImg (h : Cached sb w) (hre : Rewritten sb w.img i d' img') (hfree : (treeOf sb w.img i).type = 0) : Cached sb { w with img := img' } := by
  refine h.of_slot NINODE hre.good (fun _ _ => rfl) (fun l _ hl => hre.other ?_) (h.nonneg NINODE) fun hpos =>
    absurd (h.slot NINODE hpos).bound (Nat.lt_irrefl _)
  rintro rfl
  rw [type_treeOf] at hfree
  exact (h.slot l hl).live hfree

theorem ialloc_ok {type : Int} {ip : Nat} (hok : ialloc sb type w = .ok (ip, w')) :
    ∃ i, 1 ≤ i ∧ i < sb.ninodes ∧ (treeOf sb w.img i).type = 0 ∧
      iget i { w with img := iupdate sb i { DInode.zero with type } w.img } = .ok (ip, w') := by
  unfold ialloc at hok
  split at hok
  · next i hi =>
    have hfound := List.find?_some hi
    simp only [decide_eq_true_eq] at hfound
    have hlt : i < sb.ninodes := List.mem_range.1 (List.mem_of_find?_eq_some hi)
    refine ⟨i, hfound.1, hlt, ?_, (mapError_eq_ok _).1 hok⟩
    rw [type_treeOf]
    show (if i < sb.ninodes then dinodeOn w.img (inodePos sb i) else DInode.zero).type = 0
    rw [if_pos hlt]
    exact hfound.2
  · cases hok

theorem During.release (h : During sb w (B + Pi.single k 1) w₁ E T) (hB : 0 ≤ B) (ho : Opened w₁ k i) (hn : (T i).nlink ≠ 0) (hkeep : Keeps sb B w' w) :
    During sb w' B w₁ (E + Pi.single k 1) T where
  toCached := h.toCached
  named := h.named
  base := ⟨hB, (le_add_of_nonneg_right (single_nonneg k)).trans h.base.2⟩
  held := fun x hx h0 => by
    obtain ⟨l, hl, hinum, hv⟩ := h.held x hx h0
    refine ⟨l, ?_, hinum, hv⟩
    rcases eq_or_ne l k with rfl | hlk
    · rw [h.tree, ← hinum, ho.inum] at h0
      exact absurd h0 hn
    · rwa [Pi.add_apply, Pi.single_eq_of_ne hlk, add_zero] at hl
  keeps := hkeep.trans (h.keeps.mono (le_add_of_nonneg_right (single_nonneg k)))
  refs := by rw [h.refs, add_right_comm, add_assoc]
  tree := h.tree

theorem During.newInode {type : Int} {ip : Nat} {w₃ w₄ : World} (h : During sb w B w₁ E T) (htype : type = T_DIR ∨ type = T_FILE)
    (hal : ialloc sb type w₁ = .ok (ip, w₂)) (hlock : Kernel.ilock sb ip w₂ = .ok w₃)
    (hw₄ : w₄ = iupdateAt sb ip { (w₃.inode ip).d with major := 0, minor := 0, nlink := 1 } w₃) :
    ∃ i < sb.ninodes, (T i).type = 0 ∧ Opened w₄ ip i ∧ Stays w₁ w₄ ∧ During sb w B w₄ (E + Pi.single ip 1) (Function.update T i ⟨type, 1, []⟩) := by
  obtain ⟨i, hpos, hlt, hfree, hget⟩ := ialloc_ok hal
  have hshort : IsShort type := by
    rcases htype with rfl | rfl <;> decide
  have hne : type ≠ 0 := by
    rcases htype with rfl | rfl <;> decide
  have hre := h.good.ialloc hlt hpos hfree hshort
  have hnode : treeOf sb (iupdate sb i { DInode.zero with type } w₁.img) i = ⟨type, 0, []⟩ := by
    rw [hre.node hne]
    exact nodeOf_empty rfl _
  obtain ⟨hc₂, himg₂, hinum₂, hkeep₂⟩ := (h.toCached.withImg hre hfree).iget (by rw [hnode]; exact hne) hget
  obtain ⟨hc₃, himg₃, hkeep₃, ho₃⟩ := hc₂.ilock hlock
  rw [hinum₂] at ho₃
  have hkeep : Keeps sb w₁.refs w₁ w₃ := by
    have h₀ : Keeps sb w₁.refs w₁ { w₁ with img := iupdate sb i { DInode.zero with type } w₁.img } := by
      refine ⟨fun _ _ => rfl, fun _ _ => id, fun l hl => ?_⟩
      rw [hre.nodes]
      rintro rfl
      rw [type_treeOf] at hfree
      exact (h.slot l hl).live hfree
    exact (h₀.trans hkeep₂).trans (hkeep₃ _)
  have hrefs₃ : w₃.refs = w₁.refs + Pi.single ip 1 := by
    rw [ilock_refs hlock, iget_refs hget]
    rfl
  obtain rfl := h.tree
  have htree₃ : treeOf sb w₃.img = Function.update (treeOf sb w₁.img) i ⟨type, 0, []⟩ := by
    rw [himg₃, himg₂]
    exact Function.eq_update_iff.2 ⟨hnode, fun x hx => hre.nodes x hx⟩
  have hself₃ : treeOf sb w₃.img i = ⟨type, 0, []⟩ := by rw [htree₃, Function.update_self]
  have hother₃ : ∀ x, x ≠ i → treeOf sb w₃.img x = treeOf sb w₁.img x := fun x hx => by rw [htree₃, Function.update_of_ne hx]
  -- the new inode has no links yet, but its slot is held
  have h₃ : During sb w₃ (B + Pi.single ip 1) w₃ E (Function.update (treeOf sb w₁.img) i ⟨type, 0, []⟩) := by
    refine ⟨⟨hc₃, fun d j n x hx => ?_, ⟨add_nonneg h.base.1 (single_nonneg ip), ?_⟩, fun x hx hn => ?_⟩, .refl .., ?_, htree₃⟩
    · rcases eq_or_ne x i with rfl | hxi
      · rw [hself₃]
        exact hne
      · rcases eq_or_ne d i with rfl | hdi
        · rw [hself₃] at hx
          cases hx
        · rw [hother₃ d hdi] at hx
          rw [hother₃ x hxi]
          exact h.named d j n x hx
    · rw [hrefs₃]
      exact add_le_add_left h.base.2 _
    · rcases eq_or_ne x i with rfl | hxi
      · refine ⟨ip, ?_, ho₃.inum, ho₃.valid⟩
        rw [Pi.add_apply, Pi.single_eq_same]
        exact Int.add_pos_of_nonneg_of_pos (h.base.1 ip) Int.one_pos
      · rw [hother₃ x hxi] at hx hn
        exact ((h.held x hx hn).keeps (hkeep.mono h.base.2)).mono (le_add_of_nonneg_right (single_nonneg ip))
    · rw [hrefs₃, h.refs, add_right_comm]
  have hshort₁ : IsShort (1 : Int) := by decide
  have hshort₀ : IsShort (0 : Int) := by decide
  have h₄ := h₃.setLinks ho₃ { (w₃.inode ip).d with major := 0, minor := 0, nlink := 1 } ⟨rfl, rfl, rfl⟩ ⟨hshort₀, hshort₀, hshort₁⟩ fun h0 =>
    absurd h0 Int.one_ne_zero
  rw [← hw₄, Function.update_self, Function.update_idem] at h₄
  have hstays : Stays w₃ w₄ := hw₄ ▸ stays_write w₃ ip _ _
  have ho₄ := hstays ip i ho₃
  refine ⟨i, hlt, hfree, ho₄, fun m j ho => hstays m j (ho.keeps hkeep ?_), h₄.release h.base.1 ho₄ ?_ ((h.keeps).trans (hkeep.mono h.base.2))⟩
  · rw [hrefs₃]
    exact ho.pos.trans_le (le_add_of_nonneg_right (single_nonneg ip) m)
  · rw [Function.update_self]
    exact Int.one_ne_zero

/-! ### Empty directories -/

theorem emptyFrom_slots {img : Image} (hw : Whole img d) (hal : d.size % 16 = 0) {fuel : Nat} (hfuel : d.size / 16 - k < fuel) :
    emptyFrom sb fuel (16 * k) d img = .ok (((slotsIn (data img d)).drop k).all Option.isNone, d, img) := by
  induction fuel generalizing k with
  | zero => omega
  | succ fuel ih =>
    rw [emptyFrom]
    by_cases hend : d.size / 16 ≤ k
    · rw [if_neg (by omega), List.drop_eq_nil_of_le (by rw [length_slotsIn, length_data]; exact hend)]
      rfl
    have hlt : k < d.size / 16 := Nat.lt_of_not_le hend
    obtain ⟨hread, hlen⟩ := readi_slot sb hw hal hlt
    have hrest := ih (show d.size / 16 - (k + 1) < fuel by omega)
    rw [show 16 * (k + 1) = 16 * k + 16 by omega] at hrest
    rw [if_pos (by omega), hread, mapError_ok, ok_bind, drop_slotsIn (by rwa [length_data])]
    simp only [hlen, ne_eq, not_true_eq_false, if_false, slotIn, List.all_cons]
    by_cases h0 : (direntOf (((data img d).drop (16 * k)).take 16)).inum = 0
    · rw [if_neg (not_not.2 h0), if_pos h0, hrest, Option.isNone_none, Bool.true_and]
    · rw [if_pos h0, if_neg h0, Option.isNone_some, Bool.false_and]
      rfl

theorem During.removable {empty : Bool} (h : During sb w B w₁ E T) (ho : Opened w₁ k i) (hok : removable sb k w₁ = .ok (empty, w₂)) :
    w₂ = w₁ ∧ (empty = true → (T i).type = T_DIR → ∀ x, (T i).rest x = 0) := by
  unfold Kernel.removable at hok
  rw [h.type ho] at hok
  split at hok
  · next hdir =>
    obtain ⟨hw, hal, hslots⟩ := h.whole ho hdir
    rw [show 2 * 16 = 16 * 2 from rfl, emptyFrom_slots hw hal (by omega), hslots, ok_bind] at hok
    cases hok
    refine ⟨World.set_same w₁ k, fun hall _ x => ?_⟩
    rw [List.all_eq_true] at hall
    refine List.countP_eq_zero.2 fun s hs hname => ?_
    rw [Option.isNone_iff_eq_none.1 (hall s hs)] at hname
    cases hname
  · next hdir =>
    cases hok
    exact ⟨rfl, fun _ ht => absurd ht hdir⟩

/-! ### Between calls -/

/-- The tree is right, and `R` are all references. -/
structure Settled (sb : SuperBlock) (w : World) (R : Nat → Int) : Prop extends Cached sb w where
  refs : w.refs = R
  tree : TreeOk sb.ninodes (treeOf sb w.img) (HeldBy w R)

theorem Settled.refs_nonneg (h : Settled sb w R) : 0 ≤ R := h.refs ▸ h.nonneg

theorem Settled.during (h : Settled sb w R) : During sb w R w 0 (treeOf sb w.img) where
  toCached := h.toCached
  named := fun _ _ _ _ hx => h.tree.named hx
  base := ⟨h.refs_nonneg, h.refs.ge⟩
  held := h.tree.held
  keeps := .refl ..
  refs := h.refs.trans (add_zero R).symm
  tree := rfl

theorem During.settled (h : During sb w R w' E T) (htree : TreeOk sb.ninodes T (HeldBy w R)) : Settled sb w' (R + E) ∧ Keeps sb R w w' := by
  obtain rfl := h.tree
  exact ⟨⟨h.toCached, h.refs, htree.mono fun i _ _ hi => (hi.keeps h.keeps).mono (le_add_of_nonneg_right h.own_nonneg)⟩, h.keeps⟩

theorem Settled.back (h : Settled sb w R) (h' : During sb w R w' 0 (treeOf sb w.img)) : Settled sb w' R ∧ Keeps sb R w w' := by
  have hs := h'.settled h.tree
  rwa [add_zero] at hs

theorem Settled.free {d : DInode} {img : Image} (h : Settled sb w (R + Pi.single k 1)) (hv : (w.inode k).valid = true)
    (hn : (w.inode k).d.nlink = 0) (hr : (w.inode k).ref = 1) (hok : itrunc sb (w.inode k).inum (w.inode k).d w.img = .ok (d, img))
    (hw' : w' = { w.set k { w.inode k with d := { d with type := 0 }, valid := false, ref := 0 } with
      img := iupdate sb (w.inode k).inum { d with type := 0 } img }) : Settled sb w' R ∧ Keeps sb R w w' := by
  have hpos : 0 < w.refs k := by
    show 0 < (w.inode k).ref
    omega
  have ho : Opened w k (w.inode k).inum := ⟨hpos, hv, rfl⟩
  have hRk : R k = 0 := by
    have hk : w.refs k = 1 := hr
    rw [h.refs, Pi.add_apply, Pi.single_eq_same] at hk
    omega
  have hlive : (treeOf sb w.img (w.inode k).inum).type ≠ 0 := h.during.live ho
  rw [h.during.nlink ho] at hn
  rw [h.d ho] at hok
  have hre := h.good.free (used_iff.2 hlive) hok
  have hother : ∀ l, l ≠ k → w'.inode l = w.inode l := fun l hl => by
    rw [hw']
    exact Function.update_of_ne hl ..
  have himg : w'.img = iupdate sb (w.inode k).inum { d with type := 0 } img := by rw [hw']
  have hrefk : w'.refs k = 0 := by
    rw [hw']
    exact congrArg Inode.ref (Function.update_self (β := fun _ => Inode) k _ _)
  have hc : Cached sb w' := by
    refine h.of_slot k (himg ▸ hre.good) hother (fun l hl hl' => ?_) hrefk.ge fun h0 => absurd h0 hrefk.not_gt
    rw [himg]
    exact hre.other (h.ne hpos l hl hl')
  have hR : ∀ l, 0 < R l → l ≠ k ∧ 0 < w.refs l := by
    intro l hl
    refine ⟨?_, ?_⟩
    · rintro rfl
      omega
    · rw [h.refs]
      exact hl.trans_le (le_add_of_nonneg_right (single_nonneg k) l)
  have htree : TreeOk sb.ninodes (treeOf sb w.img) fun x => HeldBy w' R x ∨ x = (w.inode k).inum := by
    refine h.tree.mono fun i _ _ hi => ?_
    obtain ⟨l, hl, hinum, hv⟩ := hi
    rcases eq_or_ne l k with rfl | hlk
    · exact .inr hinum.symm
    · rw [Pi.add_apply, Pi.single_eq_of_ne hlk, add_zero] at hl
      exact .inl ⟨l, hl, by rw [hother l hlk, hinum], by rw [hother l hlk, hv]⟩
  refine ⟨⟨hc, funext fun l => ?_, htree.free hlive hn ?_⟩, fun l hl => ?_, fun l hl hv => ?_, fun l hl => ?_⟩
  · rcases eq_or_ne l k with rfl | hlk
    · rw [hrefk, hRk]
    · rw [World.refs, hother l hlk, ← World.refs, h.refs, Pi.add_apply, Pi.single_eq_of_ne hlk, add_zero]
  · rw [himg]
    exact Function.eq_update_iff.2 ⟨hre.free rfl, fun x hx => hre.nodes x hx⟩
  · rw [hother l (hR l hl).1]
  · rw [hother l (hR l hl).1]
    exact hv
  · rw [himg, hre.nodes _ (h.ne hpos l (hR l hl).1 (hR l hl).2)]

theorem Settled.iput (h : Settled sb w (R + Pi.single k 1)) (hR : 0 ≤ R) (hok : iput sb k w = .ok w') : Settled sb w' R ∧ Keeps sb R w w' := by
  have hrefs := iput_refs hok
  obtain ⟨w₁, hfree, hok⟩ := bind_ok hok
  cases hok
  unfold freeUnlinked at hfree
  dsimp only at hfree
  split at hfree
  · next hcond =>
    obtain ⟨⟨d, img⟩, htrunc, hfree⟩ := bind_mapError_ok hfree
    cases hfree
    obtain ⟨hv, hn, hr⟩ := hcond
    refine h.free hv hn hr htrunc ?_
    simp only [World.set, Function.update_self, Function.update_idem, hr, sub_self]
  · next hcond =>
    cases hfree
    have hr : (w.inode k).ref = R k + 1 := by
      show w.refs k = _
      rw [h.refs, Pi.add_apply, Pi.single_eq_same]
    have hRk : 0 ≤ R k := hR k
    have hpos : 0 < w.refs k := by
      show 0 < (w.inode k).ref
      omega
    have hkeep : Keeps sb R w (w.set k { w.inode k with ref := (w.inode k).ref - 1 }) := keeps_set sb R rfl id
    refine ⟨⟨h.setRef (by omega) fun _ => hpos, by rw [hrefs, h.refs, add_sub_cancel_right], ?_⟩, hkeep⟩
    refine h.tree.mono fun i hi hn hheld => ?_
    obtain ⟨l, hl, hinum, hv⟩ := hheld
    suffices hRl : 0 < R l from HeldBy.keeps ⟨l, hRl, hinum, hv⟩ hkeep
    rcases eq_or_ne l k with rfl | hlk
    · -- it would have been freed
      by_contra hle
      refine hcond ⟨hv, ?_, by omega⟩
      rw [h.during.nlink ⟨hpos, hv, hinum⟩, hn]
    · rwa [Pi.add_apply, Pi.single_eq_of_ne hlk, add_zero] at hl

theorem Settled.iunlockput (h : Settled sb w (R + Pi.single k 1)) (hR : 0 ≤ R) (hok : iunlockput sb k w = .ok w') :
    Settled sb w' R ∧ Keeps sb R w w' := by
  obtain ⟨-, -, hput⟩ := bind_ok hok
  exact h.iput hR hput

end Ostep.Fs.Kernel
