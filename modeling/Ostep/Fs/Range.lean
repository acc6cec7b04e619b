import Ostep.Fs.Scan

/-!
# Indices and reads of `xcheck`

The checker is made for corrupt images, but not all of its indices are tested first: an address may equal `sb.size`, and neither
the inode numbers of directory entries nor the pointers of an indirect block are tested at all. `check_in_range_iff` says for
which images it stays in range all the same.
-/

namespace Ostep.Fs.Xcheck

variable {img : Image} {m : Malloc}

/-- An image of 1000 blocks with the superblock of `mkfs`, up to fields that `xcheck` does not use. -/
structure WellFormed (img : Image) : Prop where
  len : img.len = 1000 * 512
  size : IntAt img 512 1000
  ninodes : IntAt img 520 200
  inodestart : IntAt img 532 32
  bmapstart : IntAt img 536 58

def sbOf (img : Image) : SuperBlock := superAt img 512

def tableOf (img : Image) : Nat → DInode := inodesAt img (sbOf img)

theorem WellFormed.sb_size (h : WellFormed img) : (sbOf img).size = 1000 := (intAt_eq_iff (by omega) h.size).2 (by omega)

theorem WellFormed.sb_ninodes (h : WellFormed img) : (sbOf img).ninodes = 200 := (intAt_eq_iff (by omega) h.ninodes).2 (by omega)

theorem WellFormed.sb_inodestart (h : WellFormed img) : (sbOf img).inodestart = 32 :=
  (intAt_eq_iff (by omega) h.inodestart).2 (by omega)

theorem WellFormed.sb_bmapstart (h : WellFormed img) : (sbOf img).bmapstart = 58 :=
  (intAt_eq_iff (by omega) h.bmapstart).2 (by omega)

/-! ### All passes -/

/-- The checker as its passes over the events and over the pointers, each with the tests of its counters. -/
theorem check_eq (h : WellFormed img) (m : Malloc) : (check m img).mapError undef =
    (events img (sbOf img) (tableOf img)).foldlM (evStep (sbOf img)) (inuseAt img (sbOf img) m) >>= fun c =>
      (if ∀ i < (sbOf img).ninodes, CountOk (tableOf img i) (c i) then .ok () else .error false) >>= fun _ =>
        (pointers img (sbOf img) (tableOf img)).foldlM (mark (sbOf img).size) (reserved (sbOf img) m.inuseBlock) >>= fun c =>
          if ∀ b : Nat, b < 1000 → BitOk img (sbOf img) c b then .ok () else .error false := by
  have hlen := h.len
  have hsize := h.sb_size
  have hbmap := h.sb_bmapstart
  have htable : ∀ i < (sbOf img).ninodes, inodePtr (sbOf img) i + 64 ≤ img.len := by
    intro i hi
    have := h.sb_ninodes
    have := h.sb_inodestart
    unfold inodePtr
    omega
  have hsb : constructSuperBlock img 512 = .ok (sbOf img) := constructSuperBlock_ok (by omega)
  unfold check
  rw [hsb, ok_bind, constructInodes_ok htable, ok_bind, mapError_bind, checkInodes_eq, bind_assoc]
  refine bind_congr fun c => bind_congr fun _ => ?_
  unfold checkBitmap
  rw [mapError_bind, markUsedBlocks_eq _ _ (by omega) (by omega)]
  exact bind_congr fun c => compareBits_eq (by omega) (by omega)

/-! ### The pass over the pointers -/

theorem foldlM_mark_in_range_iff {n : Nat} {c : Nat → Int} {l : List Nat} : l.foldlM (mark n) c ≠ .error true ↔
    ∀ l₁ x l₂, l = l₁ ++ x :: l₂ → n ≤ x → ∃ y ∈ l₁, 1 < c y + l₁.count y := by
  induction l generalizing c with
  | nil => exact iff_of_true (by rintro ⟨⟩) fun l₁ x l₂ h => by cases l₁ <;> cases h
  | cons a l ih =>
    rw [List.foldlM_cons]
    by_cases ha : a < n
    swap
    · rw [mark, if_neg ha]
      refine iff_of_false (fun h => h rfl) fun h => ?_
      obtain ⟨y, hy, -⟩ := h [] a l rfl (by omega)
      cases hy
    -- what stands before a pointer behind the end starts with `a`
    have hcons : ∀ l₁ x l₂, a :: l = l₁ ++ x :: l₂ → n ≤ x → ∃ l₃, l₁ = a :: l₃ ∧ l = l₃ ++ x :: l₂ := by
      intro l₁ x l₂ hl hx
      rcases l₁ with _ | ⟨b, l₃⟩
      · cases hl
        omega
      · cases hl
        exact ⟨l₃, rfl, rfl⟩
    by_cases hc : c a + 1 > 1
    · rw [mark, if_pos ha, if_pos hc]
      refine iff_of_true (by rintro ⟨⟩) fun l₁ x l₂ hl hx => ?_
      obtain ⟨l₃, rfl, -⟩ := hcons l₁ x l₂ hl hx
      refine ⟨a, by simp, ?_⟩
      rw [List.count_cons_self]
      omega
    · have hmark : mark n c a = .ok (Function.update c a (c a + 1)) := by rw [mark, if_pos ha, if_neg hc]
      have hsum : ∀ l₁ y, Function.update c a (c a + 1) y + List.count y l₁ = c y + (a :: l₁).count y := by
        intro l₁ y
        rw [(mark_ok hmark).2.2, List.count_singleton, List.count_cons]
        push_cast
        omega
      rw [hmark, ok_bind, ih]
      constructor
      · intro h l₁ x l₂ hl hx
        obtain ⟨l₃, rfl, hl₃⟩ := hcons l₁ x l₂ hl hx
        obtain ⟨y, hy, hlt⟩ := h l₃ x l₂ hl₃ hx
        rw [hsum] at hlt
        exact ⟨y, by simp [hy], hlt⟩
      · intro h l₁ x l₂ hl hx
        obtain ⟨y, hy, hlt⟩ := h (a :: l₁) x l₂ (by rw [hl]; rfl) hx
        by_cases hmem : y ∈ l₁
        · exact ⟨y, hmem, by rw [hsum]; exact hlt⟩
        · -- only `a` itself is new, and its counter is 1 by now
          have hya : y = a := (List.mem_cons.1 hy).resolve_right hmem
          subst hya
          rw [List.count_cons_self, List.count_eq_zero_of_not_mem hmem] at hlt
          omega

/-! ### The condition -/

/-- The references to inode `i` are as the second loop of `check_inodes` wants them. -/
def Referenced (m : Malloc) (img : Image) (i : Nat) : Prop :=
  if (tableOf img i).type = 0 then m.inuseInode i + refs img (sbOf img) (tableOf img) i ≤ 0
  else refs img (sbOf img) (tableOf img) i = if (tableOf img i).type = T_DIR ∧ i = 1 then 0 else 1

/-- Everything that is out of range comes after something that makes the checker exit. -/
structure InRange (m : Malloc) (img : Image) : Prop where
  scan : Guarded (Event.Bad (sbOf img)) (Event.Rejected (sbOf img)) (events img (sbOf img) (tableOf img))
  blocks : (∀ e ∈ events img (sbOf img) (tableOf img), ¬ e.Rejected (sbOf img)) →
    (∀ i < (sbOf img).ninodes, Referenced m img i) →
    ∀ l₁ x l₂, pointers img (sbOf img) (tableOf img) = l₁ ++ x :: l₂ → (sbOf img).size ≤ x →
      ∃ y ∈ l₁, 1 < reserved (sbOf img) m.inuseBlock y + l₁.count y

theorem countOk_iff {sb : SuperBlock} {c : Nat → Int} {i : Nat} (hi : i < sb.ninodes)
    (h : (events img sb (inodesAt img sb)).foldlM (evStep sb) (inuseAt img sb m) = .ok c) :
    CountOk (inodesAt img sb i) (c i) ↔
      if (inodesAt img sb i).type = 0 then m.inuseInode i + refs img sb (inodesAt img sb) i ≤ 0
      else refs img sb (inodesAt img sb) i = if (inodesAt img sb i).type = T_DIR ∧ i = 1 then 0 else 1 := by
  have htype : (inodesAt img sb i).type = shortAt img (inodePtr sb i) := by rw [inodesAt, if_pos hi]; rfl
  rw [scanned_count h hi, CountOk]
  by_cases h0 : (inodesAt img sb i).type = 0
  · have hdrop : ¬ (Event.inode i (inodesAt img sb i)).Drops i := fun h => h.2.1 h0
    rw [if_pos h0, if_pos h0, inuseAt, if_neg fun h => h.2 (htype ▸ h0), if_neg hdrop, Int.sub_zero]
  · rw [if_neg h0, if_neg h0, inuseAt, if_pos ⟨hi, htype ▸ h0⟩]
    by_cases hroot : (inodesAt img sb i).type = T_DIR ∧ i = 1
    · have hdrop : ¬ (Event.inode i (inodesAt img sb i)).Drops i := fun h => h.2.2 hroot
      rw [if_neg hdrop, if_pos hroot]
      omega
    · have hdrop : (Event.inode i (inodesAt img sb i)).Drops i := ⟨rfl, h0, hroot⟩
      rw [if_pos hdrop, if_neg hroot]
      omega

theorem countOk_iff_referenced {c : Nat → Int} {i : Nat} (hi : i < (sbOf img).ninodes)
    (h : (events img (sbOf img) (tableOf img)).foldlM (evStep (sbOf img)) (inuseAt img (sbOf img) m) = .ok c) :
    CountOk (tableOf img i) (c i) ↔ Referenced m img i := countOk_iff hi h

theorem undefined_iff {α : Type} {x : Except Stop α} : x ≠ .error .undefined ↔ x.mapError undef ≠ .error true := by
  rcases x with (_ | _) | _ <;> simp [undef]

theorem check_ok_iff (h : WellFormed img) (hptr : ∀ x ∈ pointers img (sbOf img) (tableOf img), x < (sbOf img).size) :
    check m img = .ok () ↔
      (∀ e ∈ events img (sbOf img) (tableOf img), ¬ e.Bad (sbOf img) ∧ ¬ e.Rejected (sbOf img)) ∧
      (∀ i < (sbOf img).ninodes, Referenced m img i) ∧
      (∀ x ∈ pointers img (sbOf img) (tableOf img), marked img (sbOf img) (tableOf img) m.inuseBlock x ≤ 1) ∧
      ∀ b < 1000, BitOk img (sbOf img) (marked img (sbOf img) (tableOf img) m.inuseBlock) b := by
  have hrun := foldlM_ok_iff (evStep_classifies (sbOf img)) (l := events img (sbOf img) (tableOf img))
    (s := inuseAt img (sbOf img) m)
  have hmarks := foldlM_mark_ok_iff (c := reserved (sbOf img) m.inuseBlock) hptr
  rw [← mapError_eq_ok undef, check_eq h, ← hrun]
  constructor
  · intro hok
    obtain ⟨c, hc, hok⟩ := bind_ok hok
    obtain ⟨_, hcount, hok⟩ := bind_ok hok
    obtain ⟨c', hc', hbits⟩ := bind_ok hok
    obtain rfl : c' = marked img (sbOf img) (tableOf img) m.inuseBlock := funext fun b => foldlM_mark_ok hc' b
    refine ⟨⟨c, hc⟩, fun i hi => (countOk_iff_referenced hi hc).1 ?_, hmarks.1 ⟨_, hc'⟩, ?_⟩
    · split at hcount
      · next hall => exact hall i hi
      · cases hcount
    · split at hbits
      · next hall => exact hall
      · cases hbits
  · rintro ⟨⟨c, hc⟩, href, hle, hbits⟩
    obtain ⟨c', hc'⟩ := hmarks.2 hle
    have hval : c' = marked img (sbOf img) (tableOf img) m.inuseBlock := funext fun b => foldlM_mark_ok hc' b
    have hcount : ∀ i < (sbOf img).ninodes, CountOk (tableOf img i) (c i) := fun i hi =>
      (countOk_iff_referenced hi hc).2 (href i hi)
    rw [hc, ok_bind, if_pos hcount, ok_bind, hc', ok_bind, hval]
    exact if_pos hbits

theorem check_undefined (h : WellFormed img) (hbad : ¬ Guarded (Event.Bad (sbOf img)) (Event.Rejected (sbOf img))
    (events img (sbOf img) (tableOf img))) : check m img = .error .undefined := by
  have hscan := foldlM_guarded_iff (evStep_classifies (sbOf img)) (l := events img (sbOf img) (tableOf img))
    (s := inuseAt img (sbOf img) m)
  have hrun := not_not.1 (mt hscan.1 hbad)
  refine not_not.1 (mt undefined_iff.1 fun hne => hne ?_)
  rw [check_eq h, hrun]
  rfl

/-- The checker stays in range exactly when it exits before anything that is out of range. -/
theorem check_in_range_iff (h : WellFormed img) (m : Malloc) : check m img ≠ .error .undefined ↔ InRange m img := by
  rw [undefined_iff, check_eq h]
  have hscan := foldlM_guarded_iff (evStep_classifies (sbOf img)) (l := events img (sbOf img) (tableOf img)) (s := inuseAt img (sbOf img) m)
  have hrun := foldlM_ok_iff (evStep_classifies (sbOf img)) (l := events img (sbOf img) (tableOf img)) (s := inuseAt img (sbOf img) m)
  cases hc : (events img (sbOf img) (tableOf img)).foldlM (evStep (sbOf img)) (inuseAt img (sbOf img) m) with
  | error b =>
    rw [hc] at hscan hrun
    show Except.error b ≠ Except.error true ↔ _
    -- the scan does not get to its end, so that some event is rejected unless one is out of range
    refine ⟨fun hb => ⟨hscan.1 fun h => hb (congrArg Except.error (Except.error.inj h)), fun hrej => ?_⟩, fun hin heq => ?_⟩
    · refine absurd (hrun.2 fun e he => ⟨fun hbad => ?_, hrej e he⟩) nofun
      obtain ⟨l₁, l₂, hl⟩ := List.append_of_mem he
      obtain ⟨e', he', hr⟩ := hscan.1 (fun h => hb (congrArg Except.error (Except.error.inj h))) l₁ e l₂ hl hbad
      exact hrej e' (by rw [hl]; simp [he']) hr
    · exact hscan.2 hin.scan (congrArg Except.error (Except.error.inj heq))
  | ok c =>
    rw [hc] at hscan hrun
    have hguard := hscan.1 nofun
    have hrej := fun e he => (hrun.1 ⟨c, rfl⟩ e he).2
    have hcount : (∀ i < (sbOf img).ninodes, CountOk (tableOf img i) (c i)) ↔ ∀ i < (sbOf img).ninodes, Referenced m img i :=
      forall₂_congr fun i hi => countOk_iff_referenced hi hc
    rw [ok_bind]
    by_cases hall : ∀ i < (sbOf img).ninodes, CountOk (tableOf img i) (c i)
    · rw [if_pos hall, ok_bind]
      have hmark := foldlM_mark_in_range_iff (n := (sbOf img).size) (c := reserved (sbOf img) m.inuseBlock)
        (l := pointers img (sbOf img) (tableOf img))
      have hbits : ∀ x : Except Bool (Nat → Int), (x >>= fun c =>
          if ∀ b : Nat, b < 1000 → BitOk img (sbOf img) c b then .ok () else .error false) ≠ .error true ↔
            x ≠ .error true := by
        intro x
        rcases x with b | c
        · exact ⟨fun h h' => h (congrArg Except.error (Except.error.inj h')),
            fun h h' => h (congrArg Except.error (Except.error.inj h'))⟩
        · rw [ok_bind]
          split <;> exact iff_of_true nofun nofun
      rw [hbits, hmark]
      exact ⟨fun hp => ⟨hguard, fun _ _ => hp⟩, fun hin => hin.blocks hrej (hcount.1 hall)⟩
    · rw [if_neg hall]
      exact iff_of_true nofun ⟨hguard, fun _ href => absurd (hcount.2 href) hall⟩

/-! ### Images with given inodes -/

/-- An image with the superblock of `mkfs`, the given inodes, and `tail` from the bitmap on. -/
def diskOf (inodes : Nat → DInode) (tail : Nat → UInt8) : Image where
  len := 1000 * 512
  byte := fun p => if 58 * 512 ≤ p then tail p else (layOut mkfsSuper inodes).byte p

/-- An inode that fits its types and that `xcheck` decodes. -/
structure DInode.Plain (d : DInode) : Prop where
  wf : d.Wf
  size_lt : d.size < 65536
  addrs_lt : ∀ j < 13, d.addrs j < 65536
  addrs_eq : ∀ j ≥ 13, d.addrs j = 0

theorem DInode.plain_mk {type nlink : Int} {size : Nat} {addrs : Nat → Nat} (htype : IsShort type) (hnlink : IsShort nlink)
    (hsize : size < 65536) (haddrs : ∀ j, addrs j < 65536) (hrest : ∀ j ≥ 13, addrs j = 0) :
    DInode.Plain ⟨type, 0, 0, nlink, size, addrs⟩ :=
  ⟨⟨htype, (by decide : IsShort 0), (by decide : IsShort 0), hnlink, Nat.lt_trans hsize (by decide),
    fun j _ => Nat.lt_trans (haddrs j) (by decide)⟩, hsize, fun j _ => haddrs j, hrest⟩

theorem DInode.zero_plain : DInode.Plain .zero :=
  DInode.plain_mk (by decide) (by decide) (by decide) (fun _ => by decide +revert) fun _ _ => rfl

theorem wellFormed_diskOf (inodes : Nat → DInode) (tail : Nat → UInt8) : WellFormed (diskOf inodes tail) := by
  have hword : ∀ w < 7, IntAt (diskOf inodes tail) (512 + 4 * w) (mkfsSuper.word w) := by
    intro w hw k hk
    have hlaid := (laid_layOut inodes (by decide : 2 ≤ mkfsSuper.inodestart ∧ _) (by decide)).super (4 * w + k) (by omega)
    show (if _ then _ else _) = _
    rw [if_neg (by omega), Nat.add_assoc, hlaid, SuperBlock.mem_word _ _ hk]
  exact ⟨rfl, hword 0 (by omega), hword 2 (by omega), hword 5 (by omega), hword 6 (by omega)⟩

theorem dinodeAt_eq {d : DInode} {ptr : Nat} (hplain : DInode.Plain d) (hmem : ∀ k < 64, img.byte (ptr + k) = d.mem k) :
    dinodeAt img ptr = d := by
  obtain ⟨hwf, hsize, haddrs, hrest⟩ := hplain
  obtain ⟨h0, h1, h2, h3, h4, h5⟩ := (sameInode_iff hwf hmem).2 ⟨hsize, haddrs⟩
  have hall : (dinodeAt img ptr).addrs = d.addrs := by
    funext j
    by_cases hj : j < 13
    · exact h5 j hj
    · rw [hrest j (by omega)]
      exact if_neg hj
  cases d
  cases hd : dinodeAt img ptr
  rw [hd] at h0 h1 h2 h3 h4 hall
  simp only at h0 h1 h2 h3 h4 hall
  rw [h0, h1, h2, h3, h4, hall]

theorem tableOf_diskOf {inodes : Nat → DInode} {tail : Nat → UInt8} (hplain : ∀ i, DInode.Plain (inodes i)) (hfree : ∀ i ≥ 200, inodes i = .zero) :
    tableOf (diskOf inodes tail) = inodes := by
  have hw := wellFormed_diskOf inodes tail
  funext i
  rw [tableOf, inodesAt, hw.sb_ninodes]
  by_cases hi : i < 200
  swap
  · rw [if_neg hi, hfree i (by omega)]
  have hptr : inodePtr (sbOf (diskOf inodes tail)) i = 32 * 512 + i * 64 := by
    have hstart := hw.sb_inodestart
    unfold inodePtr
    omega
  rw [if_pos hi, hptr]
  refine dinodeAt_eq (hplain i) fun k hk => ?_
  have hlaid := (laid_layOut inodes (by decide : 2 ≤ mkfsSuper.inodestart ∧ _) (by decide)).inode i hi k hk
  have hwptr : winodePtr mkfsSuper i = 32 * 512 + i * 64 := by
    show (i / 8 + 32) % 2 ^ 32 * 512 % 2 ^ 32 + i % 8 * 64 = _
    omega
  rw [hwptr] at hlaid
  show (if _ then _ else _) = _
  rw [if_neg (by omega), hlaid]

def rootAt (addr i : Nat) : DInode := if i = 1 then ⟨T_DIR, 0, 0, 1, 512, fun j => if j = 0 then addr else 0⟩ else .zero

theorem rootAt_plain {addr : Nat} (h : addr < 65536) (i : Nat) : DInode.Plain (rootAt addr i) := by
  unfold rootAt
  split
  · exact DInode.plain_mk (by decide) (by decide) (by decide) (fun j => by split <;> omega) fun j hj => if_neg (by omega)
  · exact DInode.zero_plain

theorem tableOf_rootAt {addr : Nat} {tail : Nat → UInt8} (h : addr < 65536) : tableOf (diskOf (rootAt addr) tail) = rootAt addr :=
  tableOf_diskOf (rootAt_plain h) fun i hi => if_neg (by omega)

theorem rootAt_addrs (addr i j : Nat) : (rootAt addr i).addrs j = if i = 1 ∧ j = 0 then addr else 0 := by
  by_cases hi : i = 1
  · subst hi
    simp [rootAt]
  · rw [rootAt, if_neg hi, if_neg fun h => hi h.1]
    rfl

theorem pointers_rootAt {img : Image} {sb : SuperBlock} {addr : Nat} (hn : 1 < sb.ninodes) (haddr : addr ≠ 0) :
    pointers img sb (rootAt addr) = [addr] := pointers_one hn haddr (rootAt_addrs addr)

theorem mem_events_rootAt {img : Image} {sb : SuperBlock} {addr : Nat} {e : Event} (he : e ∈ events img sb (rootAt addr)) :
    (∃ i, e = .inode i .zero) ∨ e = .inode 1 (rootAt addr 1) ∨ ∃ s ∈ walk img (direct (rootAt addr 1)), e = .slot 1 s := by
  obtain ⟨i, -, he⟩ := List.mem_flatMap.1 he
  by_cases hi : i = 1
  · subst hi
    rcases List.mem_cons.1 he with rfl | he
    · exact .inr (.inl rfl)
    · have hdir : (rootAt addr 1).type = T_DIR := rfl
      rw [if_pos hdir] at he
      obtain ⟨s, hs, rfl⟩ := List.mem_map.1 he
      exact .inr (.inr ⟨s, hs, rfl⟩)
  · rw [rootAt, if_neg hi] at he
    exact .inl ⟨i, List.mem_singleton.1 he⟩

theorem slot_mem_events_rootAt {img : Image} {sb : SuperBlock} {addr : Nat} (hn : 1 < sb.ninodes) {s : Option Entry}
    (hs : s ∈ walk img (direct (rootAt addr 1))) : .slot 1 s ∈ events img sb (rootAt addr) :=
  List.mem_flatMap.2 ⟨1, List.mem_range.2 hn, List.mem_cons_of_mem _ (List.mem_map_of_mem hs)⟩

theorem rejected_rootAt {img : Image} {sb : SuperBlock} {addr : Nat} (h : addr ≤ sb.size) {e : Event} (he : e ∈ events img sb (rootAt addr))
    (hrej : e.Rejected sb) : ∃ s ∈ walk img (direct (rootAt addr 1)), e = .slot 1 s := by
  rcases mem_events_rootAt he with ⟨i, rfl⟩ | rfl | hslot
  · exact absurd ⟨.inr (.inr (.inr rfl)), fun _ _ => Nat.zero_le _⟩ hrej
  · refine absurd ⟨.inr (.inr (.inl rfl)), fun j _ => ?_⟩ hrej
    rw [rootAt_addrs]
    split
    · exact h
    · exact Nat.zero_le _
  · exact hslot

/-- A directory in the last block. -/
theorem check_in_range_iff_rootAt_999 :
    check ⟨fun _ => 0, fun _ => 0⟩ (diskOf (rootAt 999) fun _ => 0) ≠ .error .undefined := by
  have hw := wellFormed_diskOf (rootAt 999) fun _ => 0
  have htable : tableOf (diskOf (rootAt 999) fun _ => 0) = rootAt 999 := tableOf_rootAt (by omega)
  have hwalk : walk (diskOf (rootAt 999) fun _ => 0) (direct (rootAt 999 1)) = [] := by decide +kernel
  refine (check_in_range_iff hw _).2 ⟨?_, fun _ _ l₁ x l₂ hl hx => ?_⟩
  · rw [htable]
    intro l₁ e l₂ hl hbad
    rcases mem_events_rootAt (hl ▸ List.mem_append_right _ List.mem_cons_self) with ⟨i, rfl⟩ | rfl | ⟨s, hs, -⟩
    · exact hbad.elim
    · exact hbad.elim
    · rw [hwalk] at hs
      cases hs
  · rw [htable, pointers_rootAt (by rw [hw.sb_ninodes]; decide) (by decide)] at hl
    have hmem : x ∈ [999] := by rw [hl]; simp
    rw [hw.sb_size, List.mem_singleton.1 hmem] at hx
    omega

/-- A directory just behind the last block passes the test of its address. -/
theorem check_undefined_rootAt_1000 : WellFormed (diskOf (rootAt 1000) fun _ => 0) ∧
    ∀ m, check m (diskOf (rootAt 1000) fun _ => 0) = .error .undefined := by
  have hw := wellFormed_diskOf (rootAt 1000) fun _ => 0
  have hwalk : none ∈ walk (diskOf (rootAt 1000) fun _ => 0) (direct (rootAt 1000 1)) := by decide +kernel
  have hnone : ∀ s ∈ walk (diskOf (rootAt 1000) fun _ => 0) (direct (rootAt 1000 1)), s = none := by decide +kernel
  refine ⟨hw, fun m => check_undefined hw ?_⟩
  rw [tableOf_rootAt (by omega)]
  refine not_guarded (fun e he _ hrej => ?_) ⟨_, slot_mem_events_rootAt (by rw [hw.sb_ninodes]; decide) hwalk, trivial⟩
  obtain ⟨s, hs, rfl⟩ := rejected_rootAt (by rw [hw.sb_size]) he hrej
  rw [hnone s hs] at hrej
  exact hrej

end Ostep.Fs.Xcheck
