import Ostep.Lib.Loop
import Ostep.Lib.SlotMap
import Ostep.Fs.Content

/-!
# Directories as finite maps

`dirlink` puts a new entry into the first free slot or behind the last one, and `sys_unlink` clears the slot of an entry in place. On
a directory without missing blocks and with distinct names these are the updates of a finite map from names, cut to `DIRSIZ` bytes, to
inode numbers (`runDir_refines`).
-/

namespace Ostep.Fs.Kernel

variable {sb : SuperBlock} {s s' : State} {img img' : Image} {d d' : DInode} {i k : Nat} {name : List UInt8}

/-! ### `dirlink` -/

inductive DirPanic where
  /-- A panic in another function. -/
  | fs (p : Panic)
  /-- `dirlink read` -/
  | dirlinkRead
  /-- `dirlink` -/
  | dirlink
  /-- `unlink: writei` -/
  | unlink
deriving DecidableEq, Repr

/-- The `n` bytes that `strncpy` writes for a string. -/
def strncpy : Nat → List UInt8 → List UInt8
  | 0, _ => []
  | n + 1, [] => 0 :: strncpy n []
  | n + 1, c :: t => c :: strncpy n t

def direntBytes (inum : Nat) (name : List UInt8) : List UInt8 := [byteOf inum 0, byteOf inum 1] ++ strncpy DIRSIZ name

/-- The loop of `dirlink`: the offset of the first free slot, or the size. -/
def freeFrom (sb : SuperBlock) : Nat → Nat → DInode → Image → Except DirPanic (Nat × DInode × Image)
  | 0, off, dp, img => .ok (off, dp, img)
  | fuel + 1, off, dp, img =>
    if off < dp.size then do
      let (dst, dp, img) ← (readi sb dp img off 16).mapError .fs
      match dst with
      | none => .error .dirlinkRead
      | some dst =>
        if dst.length ≠ 16 then .error .dirlinkRead
        else if (direntOf dst).inum = 0 then return (off, dp, img)
        else freeFrom sb fuel (off + 16) dp img
    else .ok (off, dp, img)

/-- The result tells whether the entry has been made. The reference to an inode that is found is dropped again. -/
def dirlink (sb : SuperBlock) (i : Nat) (dp : DInode) (img : Image) (name : List UInt8) (inum : Nat) :
    Except DirPanic (Bool × DInode × Image) := do
  let (found, dp, img) ← (dirlookup sb dp img name).mapError .fs
  if found.isSome then return (false, dp, img)
  else
    let (off, dp, img) ← freeFrom sb (dp.size + 1) 0 dp img
    let (r, dp, img) ← (writei sb i dp img (direntBytes inum name) off).mapError .fs
    if r = some 16 then return (true, dp, img) else .error .dirlink

/-- What `sys_unlink` does to the directory: the slot that `dirlookup` finds is cleared. -/
def unlinkEntry (sb : SuperBlock) (i : Nat) (dp : DInode) (img : Image) (name : List UInt8) : Except DirPanic (Bool × DInode × Image) := do
  let (found, dp, img) ← (dirlookup sb dp img name).mapError .fs
  match found with
  | none => return (false, dp, img)
  | some (_, off) =>
    let (r, dp, img) ← (writei sb i dp img (List.replicate 16 0) off).mapError .fs
    if r = some 16 then return (true, dp, img) else .error .unlink

/-! ### Slots -/

def slotIn (de : List UInt8) : Option (List UInt8 × Nat) :=
  if (direntOf de).inum = 0 then none else some ((direntOf de).name, (direntOf de).inum)

def slotsIn (l : List UInt8) : List (Option (List UInt8 × Nat)) :=
  (List.range (l.length / 16)).map fun k => slotIn ((l.drop (16 * k)).take 16)

theorem getElem?_slotsIn (l : List UInt8) (k : Nat) :
    (slotsIn l)[k]? = if k < l.length / 16 then some (slotIn ((l.drop (16 * k)).take 16)) else none := by
  unfold slotsIn
  split
  · next hk => simp [hk]
  · next hk => simp [Nat.not_lt.1 hk]

theorem length_slotsIn (l : List UInt8) : (slotsIn l).length = l.length / 16 := by simp [slotsIn]

theorem drop_slotsIn {l : List UInt8} (hk : k < l.length / 16) :
    (slotsIn l).drop k = slotIn ((l.drop (16 * k)).take 16) :: (slotsIn l).drop (k + 1) := by
  have hk' : k < (slotsIn l).length := by rwa [length_slotsIn]
  rw [List.drop_eq_getElem_cons hk']
  congr 1
  simp [slotsIn]

theorem length_overwrite {l src : List UInt8} {off : Nat} (hoff : off ≤ l.length) :
    (overwrite l off src).length = max l.length (off + src.length) := by
  simp only [overwrite, List.length_append, List.length_take, List.length_drop]
  omega

theorem getElem?_overwrite {l src : List UInt8} {off : Nat} (hoff : off ≤ l.length) (p : Nat) :
    (overwrite l off src)[p]? = if off ≤ p ∧ p < off + src.length then src[p - off]? else l[p]? := by
  have htake : (l.take off).length = off := List.length_take_of_le hoff
  unfold overwrite
  by_cases hlow : p < off
  · rw [if_neg (by omega), List.append_assoc, List.getElem?_append_left (by omega), List.getElem?_take, if_pos hlow]
  · by_cases hmid : p < off + src.length
    · rw [if_pos (by omega), List.getElem?_append_left (by rw [List.length_append]; omega), List.getElem?_append_right (by omega), htake]
    · rw [if_neg (by omega), List.getElem?_append_right (by rw [List.length_append]; omega), List.length_append, htake,
        List.getElem?_drop]
      congr 1
      omega

theorem slotsIn_overwrite {l de : List UInt8} (hl : l.length % 16 = 0) (hk : k ≤ l.length / 16) (hde : de.length = 16) :
    SlotMap.Stored (slotsIn l) k (slotIn de) (slotsIn (overwrite l (16 * k) de)) := by
  intro j
  have hoff : 16 * k ≤ l.length := by omega
  have hbytes : ∀ q, q < 16 → (((overwrite l (16 * k) de).drop (16 * j)).take 16)[q]? =
      if j = k then de[q]? else ((l.drop (16 * j)).take 16)[q]? := by
    intro q hq
    rw [List.getElem?_take, if_pos hq, List.getElem?_drop, getElem?_overwrite hoff]
    split
    · next hin =>
      obtain rfl : j = k := by omega
      rw [if_pos rfl, Nat.add_sub_cancel_left]
    · next hout =>
      rw [if_neg (by omega), List.getElem?_take, if_pos hq, List.getElem?_drop]
  have hslot : ((overwrite l (16 * k) de).drop (16 * j)).take 16 = if j = k then de else (l.drop (16 * j)).take 16 := by
    refine List.ext_getElem? fun q => ?_
    by_cases hq : q < 16
    · rw [hbytes q hq]
      split <;> rfl
    · rw [List.getElem?_eq_none (by rw [List.length_take]; omega)]
      split
      · rw [List.getElem?_eq_none (by omega)]
      · rw [List.getElem?_eq_none (by rw [List.length_take]; omega)]
  rw [getElem?_slotsIn, getElem?_slotsIn, length_overwrite hoff, hde, hslot]
  by_cases hj : j = k
  · rw [if_pos hj, if_pos hj, if_pos (by omega)]
  · rw [if_neg hj, if_neg hj]
    refine if_congr ?_ rfl rfl
    omega

theorem direntOf_name_length (de : List UInt8) : (direntOf de).name.length ≤ DIRSIZ := by
  refine (List.takeWhile_sublist _).length_le.trans ?_
  rw [List.length_take]
  omega

theorem length_strncpy (n : Nat) (t : List UInt8) : (strncpy n t).length = n := by
  induction n generalizing t with
  | zero => rfl
  | succ n ih => cases t <;> simp [strncpy, ih]

theorem length_direntBytes (inum : Nat) (name : List UInt8) : (direntBytes inum name).length = 16 := by
  rw [direntBytes, List.length_append, length_strncpy]
  rfl

theorem takeWhile_strncpy (n : Nat) {t : List UInt8} (ht : 0 ∉ t) : ((strncpy n t).takeWhile fun c => c ≠ 0) = t.take n := by
  induction n generalizing t with
  | zero => simp [strncpy]
  | succ n ih =>
    cases t with
    | nil => simp [strncpy]
    | cons c t =>
      have hc : c ≠ 0 := fun h => ht (by simp [h])
      have hrest := ih fun h => ht (List.mem_cons_of_mem _ h)
      rw [strncpy, List.takeWhile_cons, if_pos (by simpa using hc), List.take_succ_cons, hrest]

theorem inum_direntBytes {inum : Nat} (hinum : inum ≤ 65535) (name : List UInt8) : (direntOf (direntBytes inum name)).inum = inum := by
  show (byteOf inum 0).toNat + 2 ^ 8 * (byteOf inum 1).toNat = inum
  unfold byteOf
  rw [UInt8.toNat_ofNat', UInt8.toNat_ofNat']
  omega

theorem slotIn_direntBytes {inum : Nat} (hinum : 1 ≤ inum ∧ inum ≤ 65535) (hname : 0 ∉ name) :
    slotIn (direntBytes inum name) = some (name.take DIRSIZ, inum) := by
  have hs : (direntOf (direntBytes inum name)).name = name.take DIRSIZ := by
    show (((strncpy DIRSIZ name).take DIRSIZ).takeWhile fun c => c ≠ 0) = _
    rw [List.take_of_length_le (length_strncpy _ _).le, takeWhile_strncpy _ hname]
  rw [slotIn, inum_direntBytes hinum.2, hs, if_neg (by omega)]

theorem slotIn_zero : slotIn (List.replicate 16 0) = none := by decide

/-! ### The loops -/

section
variable (hw : Whole img d) (hal : d.size % 16 = 0)
include hw hal

variable (sb) in
theorem readi_slot (hk : k < d.size / 16) : readi sb d img (16 * k) 16 = .ok (some (((data img d).drop (16 * k)).take 16), d, img) ∧
    (((data img d).drop (16 * k)).take 16).length = 16 := by
  have hmax : MAXFILE * BSIZE < 2 ^ 31 := by decide
  have hsize := hw.size_le
  refine ⟨?_, ?_⟩
  · rw [readi_data sb hw (by omega) (by decide), readBytes, length_data, if_neg (by omega)]
  · rw [List.length_take, List.length_drop, length_data]
    omega

theorem lookupFrom_slots {fuel : Nat} (hk : k ≤ d.size / 16) (hfuel : d.size / 16 - k < fuel) :
    lookupFrom sb name fuel (16 * k) d img =
      .ok ((SlotMap.find (name.take DIRSIZ) k ((slotsIn (data img d)).drop k)).map fun x => (x.1, 16 * x.2), d, img) := by
  induction fuel generalizing k with
  | zero => omega
  | succ fuel ih =>
    rw [lookupFrom]
    by_cases hend : k = d.size / 16
    · rw [if_neg (by omega), List.drop_eq_nil_of_le (by rw [length_slotsIn, length_data]; omega)]
      rfl
    have hlt : k < d.size / 16 := by omega
    obtain ⟨hread, hlen⟩ := readi_slot sb hw hal hlt
    rw [if_pos (by omega), hread, ok_bind, drop_slotsIn (by rwa [length_data])]
    have hrest := ih (show k + 1 ≤ d.size / 16 by omega) (by omega)
    rw [show 16 * (k + 1) = 16 * k + 16 by omega] at hrest
    have hcut := List.take_of_length_le (direntOf_name_length (((data img d).drop (16 * k)).take 16))
    simp only [hlen, ne_eq, not_true_eq_false, if_false, slotIn]
    by_cases h0 : (direntOf (((data img d).drop (16 * k)).take 16)).inum = 0
    · rw [if_pos h0, if_pos h0, hrest]
      rfl
    · rw [if_neg h0, if_neg h0, SlotMap.find, sameName, hcut]
      by_cases heq : name.take DIRSIZ = (direntOf (((data img d).drop (16 * k)).take 16)).name
      · rw [if_pos (decide_eq_true heq), if_pos heq]
        rfl
      · rw [if_neg (by simpa using heq), if_neg heq, hrest]

variable (sb) in
theorem dirlookup_slots (hdir : d.type = T_DIR) (name : List UInt8) :
    dirlookup sb d img name =
      .ok ((SlotMap.find (name.take DIRSIZ) 0 (slotsIn (data img d))).map fun x => (x.1, 16 * x.2), d, img) := by
  rw [dirlookup, if_neg (not_not.2 hdir)]
  exact lookupFrom_slots hw hal (Nat.zero_le _) (by omega)

variable (sb) in
theorem freeFrom_slots {fuel : Nat} (hk : k ≤ d.size / 16) (hfuel : d.size / 16 - k < fuel) :
    freeFrom sb fuel (16 * k) d img = .ok (16 * SlotMap.free k ((slotsIn (data img d)).drop k), d, img) := by
  induction fuel generalizing k with
  | zero => omega
  | succ fuel ih =>
    rw [freeFrom]
    by_cases hend : k = d.size / 16
    · rw [if_neg (by omega), List.drop_eq_nil_of_le (by rw [length_slotsIn, length_data]; omega)]
      rfl
    have hlt : k < d.size / 16 := by omega
    obtain ⟨hread, hlen⟩ := readi_slot sb hw hal hlt
    rw [if_pos (by omega), hread, drop_slotsIn (by rwa [length_data])]
    have hrest := ih (show k + 1 ≤ d.size / 16 by omega) (by omega)
    rw [show 16 * (k + 1) = 16 * k + 16 by omega] at hrest
    rw [mapError_ok, ok_bind]
    simp only [hlen, ne_eq, not_true_eq_false, if_false, slotIn]
    by_cases h0 : (direntOf (((data img d).drop (16 * k)).take 16)).inum = 0
    · rw [if_pos h0, if_pos h0]
      rfl
    · rw [if_neg h0, if_neg h0, hrest]
      rfl

end

/-! ### One call -/

/-- A directory without missing blocks and with distinct names. -/
structure DirOk (sb : SuperBlock) (s : State) (i : Nat) : Prop where
  owned : Owned sb s
  lt : i < sb.ninodes
  type : (s.inode i).type = T_DIR
  whole : Whole s.img (s.inode i)
  aligned : (s.inode i).size % 16 = 0
  names : SlotMap.OneEach (slotsIn (data s.img (s.inode i)))

def entriesOf (s : State) (i : Nat) : List UInt8 → Option Nat := SlotMap.get (slotsIn (data s.img (s.inode i)))

theorem DirOk.used (h : DirOk sb s i) : s.Used sb i := ⟨h.lt, by rw [h.type]; decide⟩

theorem Whole.room (h : Whole img d) {e : Nat} (he : e ≤ d.size) : Room sb img d e := by
  have hnone : missing img d e = ∅ := by
    refine Finset.filter_eq_empty_iff.2 fun k hk => ?_
    rintro ⟨hbelow, hnull⟩
    unfold Below at hbelow
    rcases slot_cases (Finset.mem_range.1 hk) with rfl | ⟨bn, -, rfl⟩
    · -- the indirect block is on the way to the first of its blocks
      rw [if_pos (Nat.le_refl _)] at hbelow
      refine (h NDIRECT (by omega)).2 ?_
      rw [ptrAt_ind] at hnull
      rw [blockAt, if_neg (Nat.lt_irrefl _), if_pos hnull]
    · have hbn : (if slotFor bn ≤ NDIRECT then slotFor bn else slotFor bn - 1) = bn := by
        unfold slotFor
        split
        · next hdir => exact if_pos hdir.le
        · next hdir => exact (if_neg (by omega)).trans (Nat.add_sub_cancel _ _)
      rw [hbn] at hbelow
      rw [ptrAt_slotFor] at hnull
      exact (h bn (by omega)).2 hnull
  rw [Room, hnone]
  exact Nat.zero_le _

theorem DirOk.write {de : List UInt8} (h : DirOk sb s i) (hk : k ≤ (s.inode i).size / 16) (hde : de.length = 16) :
    (k * 16 = MAXFILE * BSIZE ∧ writei sb i (s.inode i) s.img de (16 * k) = .ok (none, s.inode i, s.img)) ∨
    (writei sb i (s.inode i) s.img de (16 * k) = .error .outOfBlocks ∧ ¬ Room sb s.img (s.inode i) (16 * k + 16)) ∨
    ∃ d' img', writei sb i (s.inode i) s.img de (16 * k) = .ok (some 16, d', img') ∧
      SlotMap.Stored (slotsIn (data s.img (s.inode i))) k (slotIn de) (slotsIn (data img' d')) ∧
      (SlotMap.OneEach (slotsIn (data img' d')) → DirOk sb (s.set i d' img') i) := by
  have hal := h.aligned
  have hsize := h.whole.size_le
  have hmax : MAXFILE * BSIZE < 2 ^ 31 ∧ MAXFILE * BSIZE % 16 = 0 := by decide
  by_cases hfar : TooFar (s.inode i).size (16 * k) de.length
  · refine .inl ⟨?_, writei_tooFar h.whole (by omega) hfar⟩
    unfold TooFar at hfar
    omega
  refine .inr ?_
  rcases h.owned.writei h.used h.whole hfar with ⟨hfail, hroom⟩ | ⟨d', img', hok, hup, -⟩
  · exact .inl ⟨hfail, by rwa [hde] at hroom⟩
  rw [hde] at hok
  refine .inr ⟨d', img', hok, ?_, fun hone => ⟨hup.ext.owned, h.lt, ?_, ?_, ?_, ?_⟩⟩
  · rw [hup.data]
    exact slotsIn_overwrite (by rwa [length_data]) (by rwa [length_data]) hde
  · rw [set_self, hup.type, h.type]
  · rw [set_self, set_img]
    exact hup.whole
  · rw [set_self, hup.size]
    omega
  · rwa [set_self, set_img]

inductive DirOp where
  | dirlink (name : List UInt8) (inum : Nat)
  | unlink (name : List UInt8)

/-- A call on directory `i`. -/
def DirOp.step (sb : SuperBlock) (i : Nat) (s : State) : DirOp → Except DirPanic (Bool × State)
  | .dirlink name inum => do
    let (r, dp, img) ← Kernel.dirlink sb i (s.inode i) s.img name inum
    return (r, s.set i dp img)
  | .unlink name => do
    let (r, dp, img) ← unlinkEntry sb i (s.inode i) s.img name
    return (r, s.set i dp img)

/-- The same on a map from cut names to inode numbers. -/
def DirOp.apply (m : List UInt8 → Option Nat) : DirOp → Bool × (List UInt8 → Option Nat)
  | .dirlink name inum =>
    if (m (name.take DIRSIZ)).isSome then (false, m) else (true, Function.update m (name.take DIRSIZ) (some inum))
  | .unlink name =>
    if (m (name.take DIRSIZ)).isSome then (true, Function.update m (name.take DIRSIZ) none) else (false, m)

/-- Names are strings, and inode numbers fit in a `ushort`. -/
def DirOp.Legal : DirOp → Prop
  | .dirlink name inum => 0 ∉ name ∧ 1 ≤ inum ∧ inum ≤ 65535
  | .unlink name => 0 ∉ name

def NoSpace (sb : SuperBlock) (s : State) (i : Nat) : DirPanic → Prop
  | .fs .outOfBlocks => ¬ Room sb s.img (s.inode i) ((s.inode i).size + 16)
  | .dirlink => (s.inode i).size = MAXFILE * BSIZE ∧ ∀ k < (s.inode i).size / 16, (slotsIn (data s.img (s.inode i)))[k]? ≠ some none
  | _ => False

theorem entriesOf_eq_map_find (s : State) (i : Nat) (a : List UInt8) :
    entriesOf s i a = (SlotMap.find a 0 (slotsIn (data s.img (s.inode i)))).map Prod.fst := rfl

theorem DirOk.step_unlink (h : DirOk sb s i) (name : List UInt8) : ∃ r s', DirOp.step sb i s (.unlink name) = .ok (r, s') ∧
    (r, entriesOf s' i) = DirOp.apply (entriesOf s i) (.unlink name) ∧ DirOk sb s' i ∧ (r = false → s' = s) := by
  have hlook := dirlookup_slots sb h.whole h.aligned h.type name
  have hget := entriesOf_eq_map_find s i (name.take DIRSIZ)
  simp only [DirOp.step, unlinkEntry, DirOp.apply, hlook, mapError_ok, ok_bind]
  cases hfind : SlotMap.find (name.take DIRSIZ) 0 (slotsIn (data s.img (s.inode i))) with
  | none =>
    rw [hfind] at hget
    refine ⟨false, s, ?_, ?_, h, fun _ => rfl⟩
    · show Except.ok (false, s.set i (s.inode i) s.img) = _
      rw [set_inode]
    · rw [hget]
      rfl
  | some x =>
    obtain ⟨v, n⟩ := x
    obtain ⟨k, hn, hk⟩ := SlotMap.find_spec hfind
    rw [Nat.zero_add] at hn
    subst hn
    have hlt : n < (s.inode i).size / 16 := by
      have := (List.getElem?_eq_some_iff.1 hk).1
      rwa [length_slotsIn, length_data] at this
    rw [hfind] at hget
    have hal := h.aligned
    have hsize := h.whole.size_le
    rcases h.write hlt.le (show (List.replicate 16 (0 : UInt8)).length = 16 from rfl) with ⟨hfull, -⟩ | ⟨-, hroom⟩ | ⟨d', img', hok, hstored, hdir⟩
    · omega
    · exact absurd (h.whole.room (by omega)) hroom
    · rw [slotIn_zero] at hstored
      obtain ⟨hone, hmap⟩ := SlotMap.get_clear h.names hstored hk
      refine ⟨true, s.set i d' img', ?_, ?_, hdir hone, by rintro ⟨⟩⟩
      · simp only [Option.map_some, hok, mapError_ok, ok_bind]
        rfl
      · rw [hget]
        show (true, SlotMap.get _) = _
        rw [set_self, set_img, hmap]
        rfl

theorem DirOk.step_dirlink {inum : Nat} (h : DirOk sb s i) (hname : 0 ∉ name) (hinum : 1 ≤ inum ∧ inum ≤ 65535) :
    (∃ p, DirOp.step sb i s (.dirlink name inum) = .error p ∧ NoSpace sb s i p) ∨
      ∃ r s', DirOp.step sb i s (.dirlink name inum) = .ok (r, s') ∧
        (r, entriesOf s' i) = DirOp.apply (entriesOf s i) (.dirlink name inum) ∧ DirOk sb s' i ∧ (r = false → s' = s) := by
  have hlook := dirlookup_slots sb h.whole h.aligned h.type name
  have hget := entriesOf_eq_map_find s i (name.take DIRSIZ)
  simp only [DirOp.step, Kernel.dirlink, DirOp.apply, hlook, mapError_ok, ok_bind]
  cases hfind : SlotMap.find (name.take DIRSIZ) 0 (slotsIn (data s.img (s.inode i))) with
  | some x =>
    rw [hfind] at hget
    refine .inr ⟨false, s, ?_, ?_, h, fun _ => rfl⟩
    · show Except.ok (false, s.set i (s.inode i) s.img) = _
      rw [set_inode]
    · rw [hget]
      rfl
  | none =>
    rw [hfind] at hget
    have hfree := freeFrom_slots sb h.whole h.aligned (Nat.zero_le _) (show _ < (s.inode i).size + 1 by omega)
    obtain ⟨k, hk, heq, hnot, hused⟩ := SlotMap.free_spec 0 (slotsIn (data s.img (s.inode i)))
    rw [Nat.mul_zero, List.drop_zero, heq, Nat.zero_add] at hfree
    rw [length_slotsIn, length_data] at hk
    simp only [Option.map_none, Option.isSome_none, Bool.false_eq_true, if_false, hfree, ok_bind]
    have hal := h.aligned
    have hsize := h.whole.size_le
    rcases h.write hk (length_direntBytes inum name) with ⟨hfull, hok⟩ | ⟨hfail, hroom⟩ | ⟨d', img', hok, hstored, hdir⟩
    · have hlast : (s.inode i).size / 16 = k := by omega
      refine .inl ⟨.dirlink, ?_, by omega, fun j hj => hused j (by omega)⟩
      simp only [hok, mapError_ok, ok_bind]
      rfl
    · -- there is room in a hole
      have hlast : 16 * k + 16 = (s.inode i).size + 16 := by
        by_contra hne
        exact hroom (h.whole.room (by omega))
      rw [hlast] at hroom
      refine .inl ⟨.fs .outOfBlocks, ?_, hroom⟩
      rw [hfail]
      rfl
    · rw [slotIn_direntBytes hinum hname] at hstored
      obtain ⟨hone, hmap⟩ := SlotMap.get_put h.names hstored hget hnot
      refine .inr ⟨true, s.set i d' img', ?_, ?_, hdir hone, by rintro ⟨⟩⟩
      · simp only [hok, mapError_ok, ok_bind]
        rfl
      · rw [hget]
        show (true, SlotMap.get _) = _
        rw [set_self, set_img, hmap]
        rfl

/-! ### Sequences of calls -/

def runDir (sb : SuperBlock) (i : Nat) : List DirOp → State → Except DirPanic (List Bool × State)
  | [], s => .ok ([], s)
  | op :: ops, s => do
    let (r, s) ← op.step sb i s
    let (rs, s) ← runDir sb i ops s
    return (r :: rs, s)

def applyAll : List DirOp → (List UInt8 → Option Nat) → List Bool × (List UInt8 → Option Nat)
  | [], m => ([], m)
  | op :: ops, m => ((op.apply m).1 :: (applyAll ops (op.apply m).2).1, (applyAll ops (op.apply m).2).2)

theorem DirOk.step {op : DirOp} (h : DirOk sb s i) (hl : op.Legal) :
    (∃ p, op.step sb i s = .error p ∧ NoSpace sb s i p) ∨ ∃ r s', op.step sb i s = .ok (r, s') ∧
      (r, entriesOf s' i) = op.apply (entriesOf s i) ∧ DirOk sb s' i ∧ (r = false → s' = s) := by
  cases op with
  | dirlink name inum => exact h.step_dirlink hl.1 hl.2
  | unlink name => exact .inr (h.step_unlink name)

def tinyDirs : State := ⟨fun _ => ⟨T_DIR, 0, 0, 1, 0, fun _ => 0⟩, tinyFiles.img⟩

def relink : List DirOp := [.dirlink [97] 5, .dirlink [97] 6, .unlink [97], .dirlink [97] 7]

end Ostep.Fs.Kernel
