import Mathlib.Algebra.BigOperators.Group.Finset.Piecewise
import Ostep.Lib.Prefix
import Ostep.Fs.Bitmap

/-!
# The scan of the inodes as a list of events

`check_inodes` first goes through the inodes and, for directories, through the slots of their direct blocks. What it comes to is
a list that only depends on the image: `events`. An event is out of range (`Event.Bad`), or rejected (`Event.Rejected`), or it
changes the counters. `scanInodes_eq` says that the loops are a pass over this list, and `foldlM_evStep_ok` what it leaves.
-/

namespace Ostep.Fs.Xcheck

variable {img : Image} {sb : SuperBlock} {c c' : Nat → Int}

/-! ### Slots of directories -/

structure Entry where
  inum : Int
  name : List UInt8
deriving DecidableEq

def nameAt (img : Image) : Nat → Nat → List UInt8
  | _, 0 => []
  | ptr, n + 1 => if img.byte ptr = 0 then [] else img.byte ptr :: nameAt img (ptr + 1) n

def entryAt (img : Image) (ptr : Nat) : Entry := ⟨shortAt img ptr, nameAt img (ptr + 2) 14⟩

theorem strncpy_ok {ptr n : Nat} (h : ptr + n ≤ img.len) : strncpy img ptr n = .ok (nameAt img ptr n) := by
  induction n generalizing ptr with
  | zero => rfl
  | succ n ih =>
    rw [strncpy, nameAt, byteAt_ok (by omega), ok_bind]
    split
    · rfl
    · rw [ih (by omega)]
      rfl

def readSlot (img : Image) (ptr : Nat) : Except Stop Entry := do
  let inum ← getShortFromMem img ptr
  let name ← strncpy img (ptr + 2) 14
  return ⟨inum, name⟩

theorem readSlot_ok {ptr : Nat} (h : ptr + 16 ≤ img.len) : readSlot img ptr = .ok (entryAt img ptr) := by
  rw [readSlot, getShortFromMem_ok (by omega), ok_bind, strncpy_ok (by omega)]
  rfl

theorem byteAt_error {ptr : Nat} {e : Stop} (h : byteAt img ptr = .error e) : e = .undefined := by
  unfold byteAt at h
  split at h
  · cases h
  · cases h
    rfl

theorem strncpy_error {ptr n : Nat} {e : Stop} (h : strncpy img ptr n = .error e) : e = .undefined := by
  induction n generalizing ptr with
  | zero => cases h
  | succ n ih =>
    rw [strncpy] at h
    cases hb : byteAt img ptr with
    | error e' =>
      rw [hb] at h
      cases h
      exact byteAt_error hb
    | ok b =>
      rw [hb, ok_bind] at h
      split at h
      · cases h
      · cases hn : strncpy img (ptr + 1) n with
        | error e' =>
          rw [hn] at h
          cases h
          exact ih hn
        | ok name =>
          rw [hn] at h
          cases h

theorem getShortFromMem_error {ptr : Nat} {e : Stop} (h : getShortFromMem img ptr = .error e) : e = .undefined := by
  unfold getShortFromMem at h
  cases h₀ : byteAt img ptr with
  | error e' =>
    rw [h₀] at h
    cases h
    exact byteAt_error h₀
  | ok b₀ =>
    rw [h₀, ok_bind] at h
    cases h₁ : byteAt img (ptr + 1) with
    | error e' =>
      rw [h₁] at h
      cases h
      exact byteAt_error h₁
    | ok b₁ =>
      rw [h₁] at h
      cases h

/-- A slot, or nothing when it does not lie in the image. -/
def slotAt (img : Image) (ptr : Nat) : Option Entry := (readSlot img ptr).toOption

theorem readSlot_mapError (ptr : Nat) : (readSlot img ptr).mapError undef = (slotAt img ptr).elim (.error true) .ok := by
  unfold slotAt
  cases h : readSlot img ptr with
  | ok e => rfl
  | error e =>
    have : e = .undefined := by
      unfold readSlot at h
      cases h₁ : getShortFromMem img ptr with
      | error e' =>
        rw [h₁] at h
        cases h
        exact getShortFromMem_error h₁
      | ok inum =>
        rw [h₁, ok_bind] at h
        cases h₂ : strncpy img (ptr + 2) 14 with
        | error e' =>
          rw [h₂] at h
          cases h
          exact strncpy_error h₂
        | ok name =>
          rw [h₂] at h
          cases h
    rw [this]
    rfl

theorem strncpy_eq {ptr n : Nat} {name : List UInt8} (h : strncpy img ptr n = .ok name) : name = nameAt img ptr n := by
  induction n generalizing ptr name with
  | zero =>
    cases h
    rfl
  | succ n ih =>
    rw [strncpy] at h
    obtain ⟨b, hb, h⟩ := bind_ok h
    obtain rfl := byteAt_eq hb
    rw [nameAt]
    split at h
    · next h0 =>
      cases h
      rw [if_pos h0]
    · next h0 =>
      obtain ⟨rest, hrest, h⟩ := bind_ok h
      cases h
      rw [if_neg h0, ih hrest]

theorem slotAt_some {ptr : Nat} {e : Entry} (h : slotAt img ptr = some e) : e = entryAt img ptr := by
  unfold slotAt at h
  cases hread : readSlot img ptr with
  | error _ => rw [hread] at h; cases h
  | ok e' =>
    rw [hread] at h
    cases h
    obtain ⟨inum, hinum, hread⟩ := bind_ok hread
    obtain ⟨name, hname, hread⟩ := bind_ok hread
    cases hread
    rw [getShortFromMem_eq hinum, strncpy_eq hname]
    rfl

def goesOn : Option Entry → Bool
  | none => true
  | some e => e.inum ≠ 0

def blockSlots (n ptr : Nat) : List Nat := (List.range n).map fun k => ptr + 16 * k

/-- The slots of the direct blocks, up to the first missing block. -/
def slotPtrs (addrs : List Nat) : List Nat := (addrs.takeWhile fun a => a ≠ 0).flatMap fun a => blockSlots 32 (a * 512)

def walk (img : Image) (addrs : List Nat) : List (Option Entry) := ((slotPtrs addrs).map (slotAt img)).takeWhile goesOn

/-! ### One slot -/

/-- Tests of `.` and `..`. -/
def DotOk (nodeNum : Nat) (e : Entry) : Prop :=
  (e.name = dot → (nodeNum : Int) = e.inum) ∧ (e.name = dotdot → nodeNum = 1 → (nodeNum : Int) = e.inum)

instance (nodeNum : Nat) (e : Entry) : Decidable (DotOk nodeNum e) := inferInstanceAs (Decidable (_ ∧ _))

def InTable (sb : SuperBlock) (e : Entry) : Prop := 0 ≤ e.inum ∧ e.inum < sb.ninodes

instance (e : Entry) : Decidable (InTable sb e) := inferInstanceAs (Decidable (_ ∧ _))

/-- An entry that counts as a reference to inode `i`. -/
def Names (i : Nat) (e : Entry) : Prop := e.inum = i ∧ e.name ≠ dot ∧ e.name ≠ dotdot

instance (i : Nat) (e : Entry) : Decidable (Names i e) := inferInstanceAs (Decidable (_ ∧ _))

def slotStep (sb : SuperBlock) (nodeNum : Nat) (c : Nat → Int) : Option Entry → Except Bool (Nat → Int)
  | none => .error true
  | some e =>
    if InTable sb e then
      if DotOk nodeNum e then .ok fun i => c i + if Names i e then 1 else 0 else .error false
    else .error true

theorem update_add_sub (c : Nat → Int) (i : Nat) :
    Function.update (Function.update c i (c i + 1)) i (Function.update c i (c i + 1) i + -1) = c := by
  rw [Function.update_self, Function.update_idem, Int.add_neg_cancel_right, Function.update_eq_self]

theorem checkEntry_eq (nodeNum : Nat) (e : Entry) :
    (checkEntry sb nodeNum e.inum e.name c).mapError undef = slotStep sb nodeNum c (some e) := by
  unfold checkEntry slotStep addAt
  by_cases hin : InTable sb e
  · have hin' : 0 ≤ e.inum ∧ e.inum < sb.ninodes := hin
    simp only [if_pos hin', if_pos hin, ok_bind]
    have hnat : ∀ i : Nat, e.inum = i ↔ i = e.inum.toNat := fun i => by omega
    have hdd : dot ≠ dotdot := by decide
    by_cases hdot : e.name = dot
    · have hnone : ∀ i, ¬ Names i e := fun i h => h.2.1 hdot
      have hok : DotOk nodeNum e ↔ (nodeNum : Int) = e.inum := by
        unfold DotOk
        rw [hdot]
        exact ⟨fun h => h.1 rfl, fun h => ⟨fun _ => h, fun h' => absurd h' hdd⟩⟩
      rw [if_pos hdot]
      by_cases hn : (nodeNum : Int) = e.inum
      · rw [if_neg (not_not.2 hn), if_pos (hok.2 hn), update_add_sub]
        simp [hnone]
      · rw [if_pos hn, if_neg (mt hok.1 hn)]
        rfl
    · rw [if_neg hdot]
      by_cases hdotdot : e.name = dotdot
      · have hnone : ∀ i, ¬ Names i e := fun i h => h.2.2 hdotdot
        have hok : DotOk nodeNum e ↔ ¬ (nodeNum = 1 ∧ (nodeNum : Int) ≠ e.inum) := by
          unfold DotOk
          rw [hdotdot]
          have := hdd.symm
          tauto
        rw [if_pos hdotdot]
        by_cases hn : nodeNum = 1 ∧ (nodeNum : Int) ≠ e.inum
        · rw [if_pos hn, if_neg fun h => hok.1 h hn]
          rfl
        · rw [if_neg hn, if_pos (hok.2 hn), update_add_sub]
          simp [hnone]
      · have hok : DotOk nodeNum e := ⟨fun h => absurd h hdot, fun h => absurd h hdotdot⟩
        rw [if_neg hdotdot, if_pos hok]
        show Except.ok _ = _
        congr 1
        funext i
        by_cases hi : i = e.inum.toNat
        · have : Names i e := ⟨(hnat i).2 hi, hdot, hdotdot⟩
          rw [if_pos this, hi, Function.update_self]
        · have : ¬ Names i e := fun h => hi ((hnat i).1 h.1)
          rw [if_neg this, Function.update_of_ne hi, Int.add_zero]
  · have hin' : ¬ (0 ≤ e.inum ∧ e.inum < sb.ninodes) := hin
    simp only [if_neg hin', if_neg hin]
    rfl

/-! ### One directory -/

theorem checkSlots_eq (nodeNum n ptr : Nat) :
    (checkSlots img sb nodeNum n ptr c).mapError undef =
      (((blockSlots n ptr).map (slotAt img)).takeWhile goesOn).foldlM (slotStep sb nodeNum) c >>= fun c' =>
        .ok (((blockSlots n ptr).map (slotAt img)).all goesOn, c') := by
  induction n generalizing ptr c with
  | zero => rfl
  | succ n ih =>
    have hslots : blockSlots (n + 1) ptr = ptr :: blockSlots n (ptr + 16) := by
      unfold blockSlots
      rw [List.range_succ_eq_map, List.map_cons, List.map_map]
      congr 1
      refine List.map_congr_left fun k _ => ?_
      show ptr + 16 * (k + 1) = ptr + 16 + 16 * k
      omega
    have hread : checkSlots img sb nodeNum (n + 1) ptr c = readSlot img ptr >>= fun e =>
        if e.inum = 0 then .ok (false, c)
        else checkEntry sb nodeNum e.inum e.name c >>= checkSlots img sb nodeNum n (ptr + 16) := by
      rw [checkSlots, readSlot]
      cases getShortFromMem img ptr with
      | error e => rfl
      | ok inum =>
        cases strncpy img (ptr + 2) 14 with
        | error e => rfl
        | ok name => rfl
    rw [hread, mapError_bind, readSlot_mapError, hslots, List.map_cons, List.takeWhile_cons, List.all_cons]
    cases hs : slotAt img ptr with
    | none => rfl
    | some e =>
      by_cases h0 : e.inum = 0
      · have hg : goesOn (some e) = false := by simp [goesOn, h0]
        simp only [Option.elim_some, ok_bind, if_pos h0, hg, Bool.false_and]
        rfl
      · have hg : goesOn (some e) = true := by simp [goesOn, h0]
        simp only [Option.elim_some, ok_bind, if_neg h0, hg, Bool.true_and, if_true, List.foldlM_cons]
        rw [mapError_bind, checkEntry_eq, bind_assoc]
        congr 1
        funext c
        exact ih (ptr + 16)

theorem checkBlocks_eq (nodeNum : Nat) (addrs : List Nat) :
    (checkBlocks img sb nodeNum addrs c).mapError undef = (walk img addrs).foldlM (slotStep sb nodeNum) c := by
  induction addrs generalizing c with
  | nil => rfl
  | cons addr addrs ih =>
    rw [checkBlocks]
    by_cases h0 : addr = 0
    · rw [if_pos h0, walk, slotPtrs, List.takeWhile_cons, if_neg (by simpa using h0)]
      rfl
    · have hwalk : walk img (addr :: addrs) = if ((blockSlots 32 (addr * 512)).map (slotAt img)).all goesOn
          then (blockSlots 32 (addr * 512)).map (slotAt img) ++ walk img addrs
          else ((blockSlots 32 (addr * 512)).map (slotAt img)).takeWhile goesOn := by
        rw [walk, slotPtrs, List.takeWhile_cons, if_pos (by simpa using h0), List.flatMap_cons, List.map_append,
          takeWhile_append_eq]
        rfl
      rw [if_neg h0, mapError_bind, checkSlots_eq, hwalk, bind_assoc]
      by_cases hall : ((blockSlots 32 (addr * 512)).map (slotAt img)).all goesOn = true
      · rw [if_pos hall, List.foldlM_append, takeWhile_of_all hall]
        congr 1
        funext c
        rw [ok_bind, hall]
        exact ih
      · rw [if_neg hall]
        rw [Bool.not_eq_true] at hall
        simp only [ok_bind, hall]
        cases (((blockSlots 32 (addr * 512)).map (slotAt img)).takeWhile goesOn).foldlM (slotStep sb nodeNum) c <;> rfl

/-! ### All inodes -/

def TypeOk (inode : DInode) : Prop := inode.type = T_DEV ∨ inode.type = T_FILE ∨ inode.type = T_DIR ∨ inode.type = 0

instance (inode : DInode) : Decidable (TypeOk inode) := inferInstanceAs (Decidable (_ ∨ _))

/-- No pointer is beyond the end; one that is just there passes. -/
def AddrsOk (sb : SuperBlock) (inode : DInode) : Prop := ∀ j < 13, inode.addrs j ≤ sb.size

instance (inode : DInode) : Decidable (AddrsOk sb inode) := inferInstanceAs (Decidable (∀ j < 13, inode.addrs j ≤ sb.size))

/-- What the scan comes to: an inode, or a slot of directory `nodeNum`. -/
inductive Event where
  | inode (i : Nat) (d : DInode)
  | slot (nodeNum : Nat) (s : Option Entry)

/-- A place outside the image, or an index outside `inuse_inode`. -/
def Event.Bad (sb : SuperBlock) : Event → Prop
  | .inode _ _ => False
  | .slot _ none => True
  | .slot _ (some e) => ¬ InTable sb e

def Event.Rejected (sb : SuperBlock) : Event → Prop
  | .inode _ d => ¬ (TypeOk d ∧ AddrsOk sb d)
  | .slot _ none => False
  | .slot nodeNum (some e) => ¬ DotOk nodeNum e

instance : DecidablePred (Event.Bad sb)
  | .inode _ _ => inferInstanceAs (Decidable False)
  | .slot _ none => inferInstanceAs (Decidable True)
  | .slot _ (some e) => inferInstanceAs (Decidable (¬ InTable sb e))

instance : DecidablePred (Event.Rejected sb)
  | .inode _ d => inferInstanceAs (Decidable (¬ (TypeOk d ∧ AddrsOk sb d)))
  | .slot _ none => inferInstanceAs (Decidable False)
  | .slot nodeNum (some e) => inferInstanceAs (Decidable (¬ DotOk nodeNum e))

/-- The counter of an inode in use goes down when the scan comes to it, except that of the root directory. -/
def Event.Drops (i : Nat) : Event → Prop
  | .inode j d => j = i ∧ d.type ≠ 0 ∧ ¬ (d.type = T_DIR ∧ j = 1)
  | .slot _ _ => False

instance (i : Nat) : DecidablePred (Event.Drops i)
  | .inode j d => inferInstanceAs (Decidable (j = i ∧ d.type ≠ 0 ∧ ¬ (d.type = T_DIR ∧ j = 1)))
  | .slot _ _ => inferInstanceAs (Decidable False)

def Event.Refers (i : Nat) : Event → Prop
  | .slot _ (some e) => Names i e
  | _ => False

instance (i : Nat) : DecidablePred (Event.Refers i)
  | .inode _ _ => inferInstanceAs (Decidable False)
  | .slot _ none => inferInstanceAs (Decidable False)
  | .slot _ (some e) => inferInstanceAs (Decidable (Names i e))

def evStep (sb : SuperBlock) (c : Nat → Int) : Event → Except Bool (Nat → Int)
  | .inode j d =>
    if TypeOk d ∧ AddrsOk sb d then .ok fun i => c i - if (Event.inode j d).Drops i then 1 else 0 else .error false
  | .slot nodeNum s => slotStep sb nodeNum c s

def inodeEvents (img : Image) (i : Nat) (d : DInode) : List Event :=
  .inode i d :: if d.type = T_DIR then (walk img (direct d)).map (.slot i) else []

def events (img : Image) (sb : SuperBlock) (inodes : Nat → DInode) : List Event :=
  (List.range sb.ninodes).flatMap fun i => inodeEvents img i (inodes i)

theorem evStep_classifies (sb : SuperBlock) : Classifies (evStep sb) (Event.Bad sb) (Event.Rejected sb) := by
  refine ⟨fun c e hb => ?_, fun c e hb hr => ?_, fun c e hb hr => ?_⟩
  · rcases e with _ | ⟨nodeNum, _ | e⟩
    · exact hb.elim
    · rfl
    · exact if_neg hb
  · rcases e with _ | ⟨nodeNum, _ | e⟩
    · exact if_neg hr
    · exact hr.elim
    · exact (if_pos (not_not.1 hb)).trans (if_neg hr)
  · rcases e with _ | ⟨nodeNum, _ | e⟩
    · exact ⟨_, if_pos (not_not.1 hr)⟩
    · exact absurd trivial hb
    · exact ⟨_, (if_pos (not_not.1 hb)).trans (if_pos (not_not.1 hr))⟩

theorem checkInodeType_eq (d : DInode) : (checkInodeType d).mapError undef = if TypeOk d then .ok () else .error false := by
  unfold checkInodeType
  by_cases h : TypeOk d
  · rw [if_pos h, if_neg (by unfold TypeOk at h; tauto)]
    rfl
  · rw [if_neg h, if_pos (by unfold TypeOk at h; tauto)]
    rfl

theorem checkInodeDataBlocks_eq (d : DInode) :
    (checkInodeDataBlocks sb d).mapError undef = if AddrsOk sb d then .ok () else .error false := by
  have htest : ∀ (msg : String) (j : Nat), (if d.addrs j > sb.size then fail msg else .ok () : Except Stop Unit).mapError undef =
      if d.addrs j ≤ sb.size then .ok () else .error false := by
    intro msg j
    by_cases h : d.addrs j > sb.size
    · rw [if_pos h, if_neg (by omega)]
      rfl
    · rw [if_neg h, if_pos (by omega)]
      rfl
  unfold checkInodeDataBlocks
  rw [mapError_bind, forUpTo_tests fun j _ => htest _ j]
  by_cases h12 : ∀ j < 12, d.addrs j ≤ sb.size
  · rw [if_pos h12, ok_bind]
    refine (htest _ 12).trans (if_congr ⟨fun h j hj => ?_, fun hall => hall 12 (by omega)⟩ rfl rfl)
    rcases Nat.lt_succ_iff_lt_or_eq.1 hj with hj | rfl
    · exact h12 j hj
    · exact h
  · have hno : ¬ AddrsOk sb d := fun hall => h12 fun j hj => hall j (by omega)
    rw [if_neg h12, if_neg hno]
    rfl

theorem addAt_neg {i n : Nat} (hi : i < n) : addAt n i (-1) c = .ok (fun j => c j - if i = j then 1 else 0) := by
  unfold addAt
  rw [if_pos (by omega), Int.toNat_natCast]
  congr 1
  funext j
  by_cases hj : j = i
  · rw [hj, Function.update_self, if_pos rfl]
    omega
  · rw [Function.update_of_ne hj, if_neg (Ne.symm hj), Int.sub_zero]

theorem scanInode_eq {i : Nat} (hi : i < sb.ninodes) (d : DInode) :
    (do
      checkInodeType d
      checkInodeDataBlocks sb d
      if d.type = 0 then return c
      else if d.type = T_DIR then checkDir img sb d i c
      else addAt sb.ninodes i (-1) c : Except Stop (Nat → Int)).mapError undef = (inodeEvents img i d).foldlM (evStep sb) c := by
  rw [mapError_bind, checkInodeType_eq, inodeEvents, List.foldlM_cons]
  by_cases htype : TypeOk d
  swap
  · have hno : ¬ (TypeOk d ∧ AddrsOk sb d) := fun h => htype h.1
    rw [if_neg htype, evStep, if_neg hno]
    rfl
  rw [if_pos htype, ok_bind, mapError_bind, checkInodeDataBlocks_eq]
  by_cases haddrs : AddrsOk sb d
  swap
  · have hno : ¬ (TypeOk d ∧ AddrsOk sb d) := fun h => haddrs h.2
    rw [if_neg haddrs, evStep, if_neg hno]
    rfl
  have hyes : TypeOk d ∧ AddrsOk sb d := ⟨htype, haddrs⟩
  rw [if_pos haddrs, ok_bind, evStep, if_pos hyes, ok_bind]
  by_cases h0 : d.type = 0
  · have hdrop : ∀ j, ¬ (Event.inode i d).Drops j := fun j h => h.2.1 h0
    rw [if_pos h0, if_neg (by rw [h0]; decide)]
    simp [hdrop, pure, Except.pure]
  rw [if_neg h0]
  by_cases hdir : d.type = T_DIR
  · have hfold : ∀ c, ((walk img (direct d)).map (.slot i)).foldlM (evStep sb) c =
        (walk img (direct d)).foldlM (slotStep sb i) c := fun c => List.foldlM_map ..
    rw [if_pos hdir, if_pos hdir, hfold, checkDir]
    by_cases h1 : i = 1
    · have hdrop : ∀ j, ¬ (Event.inode i d).Drops j := fun j h => h.2.2 ⟨hdir, h1⟩
      rw [if_neg (not_not.2 h1), ok_bind, checkBlocks_eq]
      simp [hdrop]
    · have hdrop : ∀ j, (Event.inode i d).Drops j ↔ i = j := fun j => ⟨fun h => h.1, fun h => ⟨h, h0, fun h' => h1 h'.2⟩⟩
      rw [if_pos h1, addAt_neg hi, ok_bind, checkBlocks_eq]
      simp only [hdrop]
  · have hdrop : ∀ j, (Event.inode i d).Drops j ↔ i = j := fun j => ⟨fun h => h.1, fun h => ⟨h, h0, fun h' => hdir h'.1⟩⟩
    rw [if_neg hdir, if_neg hdir, addAt_neg hi]
    simp only [hdrop]
    rfl

theorem scanInodes_eq (inodes : Nat → DInode) :
    (scanInodes img sb inodes c).mapError undef = (events img sb inodes).foldlM (evStep sb) c :=
  forUpTo_foldlM fun i hi _ => scanInode_eq hi (inodes i)

/-! ### The counters -/

theorem evStep_ok {e : Event} (h : evStep sb c e = .ok c') (i : Nat) :
    c' i = c i + (if e.Refers i then 1 else 0) - if e.Drops i then 1 else 0 := by
  rcases e with ⟨j, d⟩ | ⟨nodeNum, _ | e⟩
  · rw [evStep] at h
    split at h
    · cases h
      simp [Event.Refers]
    · cases h
  · cases h
  · rw [evStep, slotStep] at h
    split at h
    · split at h
      · cases h
        rw [if_neg (show ¬ (Event.slot nodeNum (some e)).Drops i from id), Int.sub_zero]
        rfl
      · cases h
    · cases h

theorem foldlM_evStep_ok {l : List Event} (h : l.foldlM (evStep sb) c = .ok c') (i : Nat) :
    c' i = c i + l.countP (Event.Refers i) - l.countP (Event.Drops i) := by
  induction l generalizing c with
  | nil => cases h; simp
  | cons e l ih =>
    obtain ⟨c₁, hc₁, h⟩ := bind_ok h
    rw [ih h, evStep_ok hc₁ i, List.countP_cons, List.countP_cons]
    by_cases hr : e.Refers i
    all_goals by_cases hd : e.Drops i
    all_goals simp only [hr, hd, decide_true, decide_false, if_true, if_false, Bool.false_eq_true]
    all_goals push_cast
    all_goals omega

def Event.entry? : Event → Option Entry
  | .slot _ s => s
  | .inode _ _ => none

def counted (img : Image) (sb : SuperBlock) (inodes : Nat → DInode) : List Entry := (events img sb inodes).filterMap Event.entry?

def refs (img : Image) (sb : SuperBlock) (inodes : Nat → DInode) (i : Nat) : Nat := (counted img sb inodes).countP (Names i)

theorem countP_refers (inodes : Nat → DInode) (i : Nat) : (events img sb inodes).countP (Event.Refers i) = refs img sb inodes i := by
  rw [refs, counted, List.countP_filterMap]
  refine List.countP_congr fun e _ => ?_
  rw [decide_eq_true_iff]
  rcases e with _ | ⟨nodeNum, _ | e⟩
  · exact iff_of_false id nofun
  · exact iff_of_false id nofun
  · exact decide_eq_true_iff.symm

theorem countP_drops (inodes : Nat → DInode) {i : Nat} (hi : i < sb.ninodes) : (events img sb inodes).countP (Event.Drops i) =
    if (Event.inode i (inodes i)).Drops i then 1 else 0 := by
  have hone : ∀ j, (inodeEvents img j (inodes j)).countP (Event.Drops i) =
      if j = i then (if (Event.inode i (inodes i)).Drops i then 1 else 0) else 0 := by
    intro j
    have hslots : (if (inodes j).type = T_DIR then (walk img (direct (inodes j))).map (Event.slot j) else []).countP
        (Event.Drops i) = 0 := by
      refine List.countP_eq_zero.2 fun e he => ?_
      split at he
      · obtain ⟨s, -, rfl⟩ := List.mem_map.1 he
        exact of_decide_eq_true
      · cases he
    rw [inodeEvents, List.countP_cons, hslots, Nat.zero_add]
    by_cases hj : j = i
    · subst hj
      simp
    · have : ¬ (Event.inode j (inodes j)).Drops i := fun h => hj h.1
      simp [this, hj]
  rw [events, List.countP_flatMap]
  have hmap : (List.range sb.ninodes).map (List.countP (Event.Drops i) ∘ fun j => inodeEvents img j (inodes j)) =
      (List.range sb.ninodes).map fun j => if j = i then (if (Event.inode i (inodes i)).Drops i then 1 else 0) else 0 :=
    List.map_congr_left fun j _ => hone j
  rw [hmap, ← List.sum_toFinset _ List.nodup_range, Finset.sum_ite_eq',
    if_pos (List.mem_toFinset.2 (List.mem_range.2 hi))]

theorem scanned_count {inodes : Nat → DInode} (h : (events img sb inodes).foldlM (evStep sb) c = .ok c') {i : Nat}
    (hi : i < sb.ninodes) : c' i = c i + refs img sb inodes i - if (Event.inode i (inodes i)).Drops i then 1 else 0 := by
  rw [foldlM_evStep_ok h i, countP_refers, countP_drops inodes hi]
  split <;> rfl

/-! ### The tests of the counters -/

def CountOk (inode : DInode) (count : Int) : Prop := if inode.type = 0 then count ≤ 0 else count = 1

instance (inode : DInode) (count : Int) : Decidable (CountOk inode count) :=
  inferInstanceAs (Decidable (if inode.type = 0 then count ≤ 0 else count = 1))

theorem checkCount_eq (d : DInode) (count : Int) :
    (checkCount d count).mapError undef = if CountOk d count then .ok () else .error false := by
  unfold checkCount CountOk
  by_cases h0 : d.type = 0
  · simp only [if_pos h0]
    by_cases hc : count > 0
    · rw [if_pos hc, if_neg (by omega)]
      rfl
    · rw [if_neg hc, if_pos (by omega)]
      rfl
  · simp only [if_neg h0]
    by_cases hc : count = 1
    · simp [hc]
    · simp only [ne_eq, hc, not_false_eq_true, if_true, if_false]
      split
      · rfl
      · split <;> rfl

theorem checkInodes_eq (t : Table) : (checkInodes img sb t).mapError undef =
    (events img sb t.inodes).foldlM (evStep sb) t.inuseInode >>= fun c =>
      if ∀ i < sb.ninodes, CountOk (t.inodes i) (c i) then .ok () else .error false := by
  unfold checkInodes
  rw [mapError_bind, scanInodes_eq]
  congr 1
  funext c
  exact forUpTo_tests fun i _ => checkCount_eq (t.inodes i) (c i)

end Ostep.Fs.Xcheck
