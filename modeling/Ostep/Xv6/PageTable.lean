import Ostep.Lib.Inventory
import Ostep.Xv6.Vm

/-!
# Entries, pages and frames of a directory

`PgDir.pte` reads an entry as 0 where there is no page table, so that a new, empty table changes nothing. `PgDir.frames` lists the
frames of the present pages of a range, `PgDir.tableFrames` those of the page tables, and `Vm.owned` all the frames that a directory
and the free list have between them: mapping and freeing a page only moves frames within that list.
-/

namespace Ostep.Xv6

namespace PgDir

variable {d : PgDir} {va vb : Nat}

theorem entryAt_congr (h : va / PGSIZE = vb / PGSIZE) : d.entryAt va = d.entryAt vb := by
  have hd : PDX va = PDX vb := by unfold PDX PGSIZE at *; omega
  have ht : PTX va = PTX vb := by unfold PTX PGSIZE at *; omega
  rw [entryAt, entryAt, hd, ht]

theorem entryAt_setEntry (e : Pte) (ha : va < 2 ^ 32) (hb : vb < 2 ^ 32) :
    (d.setEntry va e).entryAt vb =
      if va / PGSIZE = vb / PGSIZE then (d.entryAt vb).map fun _ => e else d.entryAt vb := by
  unfold entryAt setEntry
  by_cases hd : PDX vb = PDX va
  · by_cases ht : PTX vb = PTX va
    · rw [if_pos ((same_entry_iff ha hb).1 ⟨hd.symm, ht.symm⟩), if_pos hd]
      simp [ht, Function.comp_def]
    · rw [if_neg fun h => ht ((same_entry_iff ha hb).2 h).2.symm, if_pos hd]
      simp [Function.update_of_ne ht, Function.comp_def]
  · rw [if_neg fun h => hd ((same_entry_iff ha hb).2 h).1.symm, if_neg hd]

theorem isSome_entryAt_setEntry (e : Pte) (ha : va < 2 ^ 32) (hb : vb < 2 ^ 32) :
    ((d.setEntry va e).entryAt vb).isSome = (d.entryAt vb).isSome := by
  rw [entryAt_setEntry e ha hb]
  split <;> simp

def pte (d : PgDir) (va : Nat) : Pte := (d.entryAt va).getD 0

theorem present_eq_pte : d.present va = (d.pte va).present := by
  unfold present pte
  cases d.entryAt va <;> simp

theorem writable_eq_pte : d.writable va = (d.pte va).writable := by
  unfold writable pte
  cases d.entryAt va <;> simp

theorem isSome_of_present (h : d.present va = true) : (d.entryAt va).isSome := by
  unfold present at h
  cases he : d.entryAt va with
  | none => rw [he] at h; cases h
  | some e => rfl

theorem pte_congr (h : va / PGSIZE = vb / PGSIZE) : d.pte va = d.pte vb := by rw [pte, pte, entryAt_congr h]

theorem present_congr (h : va / PGSIZE = vb / PGSIZE) : d.present va = d.present vb := by
  rw [present, present, entryAt_congr h]

theorem pte_of_entryAt {e : Pte} (h : d.entryAt va = some e) : d.pte va = e := by rw [pte, h]; rfl

theorem pte_setEntry {e : Pte} (ha : va < 2 ^ 32) (hb : vb < 2 ^ 32) (hsome : (d.entryAt va).isSome) :
    (d.setEntry va e).pte vb = if va / PGSIZE = vb / PGSIZE then e else d.pte vb := by
  rw [pte, entryAt_setEntry e ha hb]
  split
  · next h =>
    rw [entryAt_congr h] at hsome
    obtain ⟨e', he'⟩ := Option.isSome_iff_exists.1 hsome
    rw [he']
    rfl
  · rfl

theorem entryAt_addTable (i pa : Nat) : (d.addTable i pa).entryAt vb = if PDX vb = i then some 0 else d.entryAt vb := by
  unfold entryAt addTable
  split
  · next h => rw [h, Function.update_self]; rfl
  · next h => rw [Function.update_of_ne h]

theorem pte_addTable {i pa : Nat} (hnone : d i = none) : (d.addTable i pa).pte vb = d.pte vb := by
  rw [pte, entryAt_addTable]
  split
  · next h => rw [pte, entryAt, h, hnone]; rfl
  · rfl

end PgDir

/-- The user pages of the directory are exactly those below `PGROUNDUP sz`. -/
def ExactPages (d : PgDir) (sz : Nat) : Prop := ∀ va, va < KERNBASE → (d.present va = true ↔ va < PGROUNDUP sz)

theorem PGROUNDUP_le {sz : Nat} (hsz : sz < KERNBASE) : sz ≤ PGROUNDUP sz ∧ PGROUNDUP sz ≤ KERNBASE := by
  rw [PGROUNDUP_of_lt hsz]
  unfold KERNBASE at *
  omega

theorem PGROUNDUP_mono {sz sz' : Nat} (hlt : sz' < KERNBASE) (hle : sz ≤ sz') : PGROUNDUP sz ≤ PGROUNDUP sz' := by
  rw [PGROUNDUP_of_lt hlt, PGROUNDUP_of_lt (by omega)]
  omega

theorem ExactPages.isSome {d : PgDir} {sz : Nat} (hd : ExactPages d sz) (hsz : sz < KERNBASE) {va : Nat} (hva : va < sz) :
    (d.entryAt va).isSome :=
  PgDir.isSome_of_present ((hd va (by omega)).2 (lt_of_lt_of_le hva (PGROUNDUP_le hsz).1))

/-! ### Ranges of pages -/

/-- The page of `va` is one of those that a loop from `a` to `b` comes to. -/
def InRange (a b va : Nat) : Prop := a ≤ va ∧ va / PGSIZE * PGSIZE < b

instance (a b va : Nat) : Decidable (InRange a b va) := inferInstanceAs (Decidable (_ ∧ _))

theorem inRange_congr {a b va vb : Nat} (ha : a % PGSIZE = 0) (h : va / PGSIZE = vb / PGSIZE) :
    InRange a b va ↔ InRange a b vb := by
  unfold InRange PGSIZE at *
  omega

theorem inRange_iff {a b vb : Nat} (hb : b < KERNBASE) : InRange a b vb ↔ a ≤ vb ∧ vb < PGROUNDUP b := by
  rw [PGROUNDUP_of_lt hb]
  unfold InRange PGSIZE
  omega

theorem PGROUNDUP_aligned (a : Nat) : PGROUNDUP a % PGSIZE = 0 := by
  unfold PGROUNDUP PGSIZE
  omega

/-- The addresses that a loop from `a` to `b` comes to. -/
@[irreducible]
def pages (a b : Nat) : List Nat := (List.range (Vm.pageCount a b)).map fun i => a + i * PGSIZE

theorem pages_of_le {a b : Nat} (h : b ≤ a) : pages a b = [] := by
  have : Vm.pageCount a b = 0 := by unfold Vm.pageCount PGSIZE; omega
  rw [pages, this]
  rfl

theorem pages_of_lt {a b : Nat} (h : a < b) : pages a b = a :: pages (a + PGSIZE) b := by
  have hcount : Vm.pageCount a b = Vm.pageCount (a + PGSIZE) b + 1 := by unfold Vm.pageCount PGSIZE; omega
  rw [pages, pages, hcount, List.range_succ_eq_map, List.map_cons, List.map_map]
  refine congrArg₂ List.cons (by omega) (List.map_congr_left fun i _ => ?_)
  show a + (i + 1) * PGSIZE = a + PGSIZE + i * PGSIZE
  unfold PGSIZE
  omega

theorem nodup_pages (a b : Nat) : (pages a b).Nodup := by
  unfold pages
  refine List.Nodup.map (fun i j hij => ?_) List.nodup_range
  unfold PGSIZE at hij
  omega

theorem mem_pages {a b va : Nat} (ha : a % PGSIZE = 0) : va ∈ pages a b ↔ va % PGSIZE = 0 ∧ InRange a b va := by
  unfold pages Vm.pageCount InRange
  rw [List.mem_map]
  constructor
  · rintro ⟨i, hi, rfl⟩
    rw [List.mem_range] at hi
    unfold PGSIZE at *
    omega
  · rintro ⟨hal, hle, hlt⟩
    refine ⟨(va - a) / PGSIZE, List.mem_range.2 ?_, ?_⟩
    · unfold PGSIZE at *
      omega
    · unfold PGSIZE at *
      omega

/-! ### Frames -/

namespace PgDir

variable {d d' : PgDir} {a b va : Nat}

def frameAt (d : PgDir) (va : Nat) : Option Nat := if d.present va then some (PTE_ADDR (d.pte va)) else none

/-- The frames of the present pages that a loop from `a` to `b` comes to. -/
def frames (d : PgDir) (a b : Nat) : List Nat := (pages a b).filterMap d.frameAt

theorem frameAt_congr {vb : Nat} (h : va / PGSIZE = vb / PGSIZE) : d.frameAt va = d.frameAt vb := by
  rw [frameAt, frameAt, present_congr h, pte_congr h]

theorem frameAt_eq_of_pte (h : d'.pte va = d.pte va) : d'.frameAt va = d.frameAt va := by
  rw [frameAt, frameAt, present_eq_pte, present_eq_pte, h]

theorem frameAt_of_present (h : d.present va = true) : d.frameAt va = some (PTE_ADDR (d.pte va)) := if_pos h

theorem frameAt_of_absent (h : d.present va = false) : d.frameAt va = none := by
  unfold frameAt
  rw [h]
  rfl

theorem frames_of_le (h : b ≤ a) : d.frames a b = [] := by rw [frames, pages_of_le h]; rfl

theorem frames_of_present (h : a < b) (hp : d.present a = true) : d.frames a b = PTE_ADDR (d.pte a) :: d.frames (a + PGSIZE) b := by
  rw [frames, pages_of_lt h, List.filterMap_cons_some (frameAt_of_present hp)]
  rfl

theorem frames_of_absent (hp : d.present a = false) : d.frames a b = d.frames (a + PGSIZE) b := by
  rcases Nat.lt_or_ge a b with h | h
  · rw [frames, pages_of_lt h, List.filterMap_cons_none (frameAt_of_absent hp)]
    rfl
  · rw [frames_of_le h, frames_of_le (by unfold PGSIZE; omega)]

theorem frames_skip {n : Nat} (hnone : ∀ i < n, d.present (a + i * PGSIZE) = false) : d.frames a b = d.frames (a + n * PGSIZE) b := by
  induction n with
  | zero => rw [Nat.zero_mul, Nat.add_zero]
  | succ n ih =>
    rw [ih fun i hi => hnone i (by omega), frames_of_absent (hnone n (by omega))]
    congr 1
    unfold PGSIZE
    omega

theorem frames_congr (ha : a % PGSIZE = 0) (h : ∀ va, InRange a b va → d'.frameAt va = d.frameAt va) : d'.frames a b = d.frames a b :=
  List.filterMap_congr fun va hva => h va ((mem_pages ha).1 hva).2

theorem mem_frames (ha : a % PGSIZE = 0) {p : Nat} :
    p ∈ d.frames a b ↔ ∃ va, InRange a b va ∧ d.present va = true ∧ PTE_ADDR (d.pte va) = p := by
  unfold frames
  rw [List.mem_filterMap]
  constructor
  · rintro ⟨va, hva, hp⟩
    unfold frameAt at hp
    split at hp
    · next hpres => exact ⟨va, ((mem_pages ha).1 hva).2, hpres, Option.some.inj hp⟩
    · cases hp
  · rintro ⟨va, hr, hpres, rfl⟩
    have hpage : va / PGSIZE * PGSIZE / PGSIZE = va / PGSIZE := Nat.mul_div_cancel _ (by decide)
    refine ⟨va / PGSIZE * PGSIZE, (mem_pages ha).2 ⟨Nat.mul_mod_left _ _, (inRange_congr ha hpage).2 hr⟩, ?_⟩
    rw [frameAt_congr hpage, frameAt_of_present hpres]

theorem frames_of_all_absent (ha : a % PGSIZE = 0) (h : ∀ va, InRange a b va → d.present va = false) : d.frames a b = [] := by
  refine List.eq_nil_iff_forall_not_mem.2 fun p hp => ?_
  obtain ⟨va, hr, hpres, -⟩ := (mem_frames ha).1 hp
  rw [h va hr] at hpres
  cases hpres

theorem frames_put (ha : a % PGSIZE = 0) (hr : InRange a b va) (habs : d.present va = false) {p : Nat} (hnew : d'.frameAt va = some p)
    (hsame : ∀ vb, InRange a b vb → ¬ va / PGSIZE = vb / PGSIZE → d'.frameAt vb = d.frameAt vb) :
    (d'.frames a b).Perm (p :: d.frames a b) := by
  have hpage : va / PGSIZE * PGSIZE / PGSIZE = va / PGSIZE := Nat.mul_div_cancel _ (by decide)
  refine perm_filterMap_of_put (nodup_pages a b) ((mem_pages ha).2 ⟨Nat.mul_mod_left _ _, (inRange_congr ha hpage).2 hr⟩) ?_ ?_ ?_
  · rw [frameAt_congr hpage, frameAt_of_absent habs]
  · rw [frameAt_congr hpage, hnew]
  · intro vb hvb hne
    obtain ⟨hal, hrb⟩ := (mem_pages ha).1 hvb
    refine hsame vb hrb fun heq => hne ?_
    rw [heq]
    unfold PGSIZE at *
    omega

/-! ### Page tables -/

def tables (d : PgDir) (i : Nat) : Bool := (d i).isSome

def tableFrame (d : PgDir) (i : Nat) : Option Nat := (d i).map PgTab.frame

def tableFrames (d : PgDir) : List Nat := (List.range NPDENTRIES).filterMap d.tableFrame

theorem tables_setEntry (d : PgDir) (va : Nat) (e : Pte) : (d.setEntry va e).tables = d.tables := by
  funext i
  unfold tables setEntry
  split <;> simp

theorem tables_addTable (d : PgDir) (i pa : Nat) : (d.addTable i pa).tables = Function.update d.tables i true := by
  funext j
  unfold tables addTable
  by_cases h : j = i
  · subst h; simp
  · simp [h]

theorem isSome_entryAt (d : PgDir) (va : Nat) : (d.entryAt va).isSome = d.tables (PDX va) := by
  unfold entryAt tables
  rw [Option.isSome_map]

theorem frame_setEntry (d : PgDir) (va : Nat) (e : Pte) (i : Nat) : (d.setEntry va e).tableFrame i = d.tableFrame i := by
  unfold tableFrame setEntry
  split
  · rw [Option.map_map]
    rfl
  · rfl

theorem tableFrames_congr (h : ∀ i, d'.tableFrame i = d.tableFrame i) : d'.tableFrames = d.tableFrames :=
  List.filterMap_congr fun i _ => h i

theorem length_tableFrames_le (d : PgDir) : d.tableFrames.length ≤ NPDENTRIES :=
  (List.length_filterMap_le _ _).trans (List.length_range.le)

theorem tableFrames_addTable {i pa : Nat} (hi : i < NPDENTRIES) (hnone : d i = none) :
    (d.addTable i pa).tableFrames.Perm (pa :: d.tableFrames) := by
  refine perm_filterMap_of_put List.nodup_range (List.mem_range.2 hi) ?_ ?_ fun j _ hj => ?_
  · rw [tableFrame, hnone]
    rfl
  · rw [tableFrame, addTable, Function.update_self]
    rfl
  · rw [tableFrame, addTable, Function.update_of_ne hj]
    rfl

end PgDir

/-- All the frames that the directory and the free list have between them. -/
def Vm.owned (vm : Vm) : List Nat := vm.dir.frames 0 KERNBASE ++ (vm.dir.tableFrames ++ vm.free)

end Ostep.Xv6
