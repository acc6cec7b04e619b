import Mathlib.Algebra.Order.BigOperators.Group.List
import Mathlib.Algebra.Order.Group.Int
import Mathlib.Algebra.Order.Pi
import Ostep.Lib.Run
import Ostep.Fs.CallsSpec

/-!
# Runs of calls

The references of the cache are those of the processes: one for each current directory and one for each open file. A completed call
keeps this and the tree, if it meets `CallOk` in the state before it (`SysOk.step`).
-/

namespace Ostep.Fs.Kernel

variable {sb : SuperBlock} {w w' : World} {R : Nat → Int} {i k : Nat} {path : List UInt8} {p p' : Proc} {r : Option Nat}

theorem sum_map_set {α M : Type*} [AddCommMonoid M] (f : α → M) {l : List α} {a : α} (h : l[i]? = some a) (b : α) :
    ((l.set i b).map f).sum + f a = (l.map f).sum + f b := by
  induction l generalizing i with
  | nil => cases h
  | cons x l ih =>
    cases i with
    | zero =>
      cases h
      simp only [List.set_cons_zero, List.map_cons, List.sum_cons]
      abel
    | succ i =>
      have hl := ih h
      simp only [List.set_cons_succ, List.map_cons, List.sum_cons, add_assoc, hl]

/-! ### A process -/

def Proc.refs (p : Proc) : Nat → Int := Pi.single p.cwd 1 + (p.ofile.map held).sum

theorem files_nonneg (l : List (Option Nat)) : 0 ≤ (l.map held).sum := by
  refine List.sum_nonneg fun x hx => ?_
  obtain ⟨r, -, rfl⟩ := List.mem_map.1 hx
  exact held_nonneg r

theorem Proc.refs_nonneg (p : Proc) : 0 ≤ p.refs := add_nonneg (held_nonneg (some p.cwd)) (files_nonneg p.ofile)

theorem Proc.cwd_pos (p : Proc) : 0 < p.refs p.cwd := by
  rw [Proc.refs, add_comm]
  exact single_pos (files_nonneg p.ofile) p.cwd

/-- A process makes a call, others hold the references `R`. -/
structure Ready (sb : SuperBlock) (R : Nat → Int) (w : World) (p : Proc) : Prop where
  nonneg : 0 ≤ R
  settled : Settled sb w (R + p.refs)
  cwd : (treeOf sb w.img (w.inode p.cwd).inum).type = T_DIR

theorem Ready.pos (h : Ready sb R w p) : 0 < (R + p.refs) p.cwd :=
  p.cwd_pos.trans_le (le_add_of_nonneg_left h.nonneg p.cwd)

theorem Ready.stay {R' : Nat → Int} (h : Ready sb R w p) (hcwd : p'.cwd = p.cwd) (hs : Settled sb w' (R + p'.refs)) (hkeep : Keeps sb R' w w')
    (hle : R ≤ R') (hpos : 0 < R' p.cwd) : Ready sb R w' p' ∧ Keeps sb R w w' := by
  refine ⟨⟨h.nonneg, hs, ?_⟩, hkeep.mono hle⟩
  rw [hcwd, hkeep.inum p.cwd hpos, hkeep.type p.cwd hpos]
  exact h.cwd

theorem Ready.same (h : Ready sb R w p) (hs : Settled sb w' (R + p.refs) ∧ Keeps sb (R + p.refs) w w') : Ready sb R w' p ∧ Keeps sb R w w' :=
  h.stay rfl hs.1 hs.2 (le_add_of_nonneg_right p.refs_nonneg) h.pos

theorem Ready.openInode {files ip : Nat} {w₁ : World} (h : Ready sb R w p) (hs : Settled sb w₁ (R + p.refs + Pi.single ip 1))
    (hkeep : Keeps sb (R + p.refs) w w₁) (hok : openInode sb files ip w₁ p = .ok (r, w', p')) : Ready sb R w' p' ∧ Keeps sb R w w' := by
  unfold Kernel.openInode at hok
  split at hok
  · next hfd =>
    obtain ⟨-, -, hrest⟩ := bind_ok hok
    cases hrest
    have hslot : p.ofile[p.ofile.idxOf none]? = some none := by
      rw [List.getElem?_eq_getElem (List.idxOf_lt_length_iff.2 hfd.2), List.getElem_idxOf]
    have hrefs : Proc.refs { p with ofile := p.ofile.set (p.ofile.idxOf none) (some ip) } = p.refs + Pi.single ip 1 := by
      have hsum := sum_map_set held hslot (some ip)
      rw [held, add_zero] at hsum
      rw [Proc.refs, hsum, Proc.refs, add_assoc]
      rfl
    refine h.stay rfl ?_ hkeep (le_add_of_nonneg_right p.refs_nonneg) h.pos
    rw [hrefs, ← add_assoc]
    exact hs
  · obtain ⟨w₂, hput, hrest⟩ := bind_mapError_ok hok
    cases hrest
    obtain ⟨hset, hkeep'⟩ := hs.iunlockput (add_nonneg h.nonneg p.refs_nonneg) hput
    exact h.same ⟨hset, hkeep.trans hkeep'⟩

theorem Ready.sysOpen {files : Nat} (h : Ready sb R w p) (hlinked : ParentLinked sb w p.cwd path)
    (hok : sysOpen sb files path w p = .ok (r, w', p')) : Ready sb R w' p' ∧ Keeps sb R w w' := by
  obtain ⟨⟨ip, w₁⟩, hcreate, hrest⟩ := bind_ok hok
  obtain ⟨hset, hkeep⟩ := h.settled.create h.pos (.inr rfl) hlinked hcreate
  cases ip with
  | none =>
    cases hrest
    exact h.same ⟨by rwa [held, add_zero] at hset, hkeep⟩
  | some ip => exact h.openInode hset hkeep hrest

theorem Ready.sysMkdir (h : Ready sb R w p) (hlinked : ParentLinked sb w p.cwd path) (hok : sysMkdir sb path w p = .ok (r, w', p')) :
    Ready sb R w' p' ∧ Keeps sb R w w' := by
  obtain ⟨⟨ip, w₁⟩, hcreate, hrest⟩ := bind_ok hok
  obtain ⟨hset, hkeep⟩ := h.settled.create h.pos (.inl rfl) hlinked hcreate
  cases ip with
  | none =>
    cases hrest
    exact h.same ⟨by rwa [held, add_zero] at hset, hkeep⟩
  | some ip =>
    obtain ⟨w₂, hput, hrest₂⟩ := bind_mapError_ok hrest
    cases hrest₂
    obtain ⟨hset', hkeep'⟩ := hset.iunlockput (add_nonneg h.nonneg p.refs_nonneg) hput
    exact h.same ⟨hset', hkeep.trans hkeep'⟩

theorem Ready.sysLink {old new : List UInt8} (h : Ready sb R w p) (hlinked : ParentLinked sb w p.cwd new)
    (hok : sysLink sb old new w p = .ok (r, w', p')) : Ready sb R w' p' ∧ Keeps sb R w w' := by
  obtain ⟨rfl, hs⟩ := h.settled.link h.pos hlinked hok
  exact h.same hs

theorem Ready.sysUnlink (h : Ready sb R w p) (hstays : ParentStays sb w p.cwd path) (hok : sysUnlink sb path w p = .ok (r, w', p')) :
    Ready sb R w' p' ∧ Keeps sb R w w' := by
  obtain ⟨rfl, hs⟩ := h.settled.unlink h.pos hstays hok
  exact h.same hs

theorem Ready.sysChdir (h : Ready sb R w p) (hok : sysChdir sb path w p = .ok (r, w', p')) : Ready sb R w' p' ∧ Keeps sb R w w' := by
  obtain ⟨⟨ip, w₁⟩, hnamei, hrest⟩ := bind_mapError_ok hok
  obtain ⟨⟨r₁, w₁'⟩, hnamex, hret⟩ := bind_ok hnamei
  cases hret
  obtain ⟨h₁, -⟩ := h.settled.during.namex h.pos (dir_ne_zero h.settled.tree.root.1) hnamex
  obtain _ | ⟨ip, last⟩ := r₁
  · cases hrest
    exact h.same (h.settled.back h₁)
  obtain ⟨w₂, hlock, hrest₂⟩ := bind_mapError_ok hrest
  obtain ⟨h₂, ho, -⟩ := h₁.ilock hlock
  split at hrest₂
  · obtain ⟨w₃, hput, hrest₃⟩ := bind_mapError_ok hrest₂
    cases hrest₃
    exact h.same (h.settled.back (h₂.done hput))
  · next hdir =>
    obtain ⟨-, -, hrest₃⟩ := bind_mapError_ok hrest₂
    obtain ⟨w₃, hput, hrest₄⟩ := bind_mapError_ok hrest₃
    cases hrest₄
    -- the reference to the old directory is the one given back
    obtain ⟨hset, hkeep⟩ := h₂.settled h.settled.tree
    have hmove : R + p.refs + Pi.single ip 1 = R + Proc.refs { p with cwd := ip } + Pi.single p.cwd 1 := by
      rw [Proc.refs, Proc.refs]
      abel
    have hnew : 0 < (R + Proc.refs { p with cwd := ip }) ip := (Proc.cwd_pos { p with cwd := ip }).trans_le (le_add_of_nonneg_left h.nonneg ip)
    have hle : R ≤ R + Proc.refs { p with cwd := ip } := le_add_of_nonneg_right (Proc.refs_nonneg _)
    have hset' : Settled sb w₂ (R + Proc.refs { p with cwd := ip } + Pi.single p.cwd 1) := hmove ▸ hset
    obtain ⟨hset₃, hkeep₃⟩ := hset'.iput (add_nonneg h.nonneg (Proc.refs_nonneg _)) hput
    refine ⟨⟨h.nonneg, hset₃, ?_⟩, (hkeep.mono (le_add_of_nonneg_right p.refs_nonneg)).trans (hkeep₃.mono hle)⟩
    rw [hkeep₃.inum ip hnew, hkeep₃.type ip hnew, ho.inum, h₂.tree, ← h₂.type ho]
    exact not_not.1 hdir

theorem Ready.sysClose {fd : Nat} (h : Ready sb R w p) (hok : sysClose sb fd w p = .ok (r, w', p')) : Ready sb R w' p' ∧ Keeps sb R w w' := by
  unfold Kernel.sysClose at hok
  split at hok
  · cases hok
    exact ⟨h, Keeps.refl sb R w⟩
  · next ip hfd =>
    obtain ⟨w₁, hput, hrest⟩ := bind_mapError_ok hok
    cases hrest
    have hslot : p.ofile[fd]? = some (some ip) := by
      rw [List.getD_eq_getElem?_getD] at hfd
      cases hget : p.ofile[fd]? with
      | none =>
        rw [hget] at hfd
        cases hfd
      | some e =>
        rw [hget] at hfd
        exact congrArg some hfd
    have hrefs : p.refs = Proc.refs { p with ofile := p.ofile.set fd none } + Pi.single ip 1 := by
      have hsum := sum_map_set held hslot none
      rw [held, add_zero] at hsum
      rw [Proc.refs, ← hsum, Proc.refs, add_assoc]
      rfl
    have hset := h.settled
    rw [hrefs, ← add_assoc] at hset
    obtain ⟨hset', hkeep⟩ := hset.iput (add_nonneg h.nonneg (Proc.refs_nonneg _)) hput
    exact h.stay rfl hset' hkeep (le_add_of_nonneg_right (Proc.refs_nonneg _))
      ((Proc.cwd_pos { p with ofile := p.ofile.set fd none }).trans_le (le_add_of_nonneg_left h.nonneg _))

/-! ### `exit` -/

theorem sum_filterMap_held (l : List (Option Nat)) : (l.map held).sum = ((l.filterMap id).map fun k => held (some k)).sum := by
  induction l with
  | nil => rfl
  | cons e l ih =>
    cases e with
    | none => rw [List.map_cons, List.sum_cons, ih, held, zero_add]; rfl
    | some k => rw [List.map_cons, List.sum_cons, ih]; rfl

theorem Settled.iputs {l : List Nat} (h : Settled sb w (R + (l.map fun k => held (some k)).sum)) (hR : 0 ≤ R)
    (hok : l.foldlM (fun w ip => Kernel.iput sb ip w) w = .ok w') : Settled sb w' R ∧ Keeps sb R w w' := by
  induction l generalizing w with
  | nil =>
    cases hok
    rw [List.map_nil, List.sum_nil, add_zero] at h
    exact ⟨h, Keeps.refl sb R w'⟩
  | cons k l ih =>
    obtain ⟨w₁, hput, hrest⟩ := bind_ok hok
    have hl : 0 ≤ (l.map fun k => held (some k)).sum := List.sum_nonneg fun x hx => by
      obtain ⟨k, -, rfl⟩ := List.mem_map.1 hx
      exact held_nonneg (some k)
    rw [List.map_cons, List.sum_cons, add_comm (held (some k)), ← add_assoc] at h
    obtain ⟨h₁, hkeep₁⟩ := Settled.iput h (add_nonneg hR hl) hput
    obtain ⟨h', hkeep⟩ := ih h₁ hrest
    exact ⟨h', (hkeep₁.mono (le_add_of_nonneg_right hl)).trans hkeep⟩

theorem Ready.exitProc (h : Ready sb R w p) (hok : exitProc sb w p = .ok w') : Settled sb w' R ∧ Keeps sb R w w' := by
  obtain ⟨w₁, hfiles, hput⟩ := bind_mapError_ok hok
  have hset := h.settled
  rw [Proc.refs, sum_filterMap_held, ← add_assoc] at hset
  have hcwd : 0 ≤ R + Pi.single p.cwd 1 := add_nonneg h.nonneg (held_nonneg (some p.cwd))
  obtain ⟨hset₁, hkeep₁⟩ := hset.iputs hcwd hfiles
  obtain ⟨hset', hkeep⟩ := hset₁.iput h.nonneg ((mapError_eq_ok _).1 hput)
  exact ⟨hset', (hkeep₁.mono (le_add_of_nonneg_right (held_nonneg (some p.cwd)))).trans hkeep⟩

/-! ### All processes -/

def procRefs (p : Option Proc) : Nat → Int := p.elim 0 Proc.refs

def Sys.refs (s : Sys) : Nat → Int := (s.procs.map procRefs).sum

theorem procRefs_nonneg (p : Option Proc) : 0 ≤ procRefs p := by
  cases p with
  | none => exact le_refl _
  | some p => exact p.refs_nonneg

theorem procRefs_sum_nonneg (l : List (Option Proc)) : 0 ≤ (l.map procRefs).sum :=
  List.sum_nonneg fun x hx => by
    obtain ⟨p, -, rfl⟩ := List.mem_map.1 hx
    exact procRefs_nonneg p

theorem procRefs_le_sum {l : List (Option Proc)} {p : Option Proc} (hp : p ∈ l) : procRefs p ≤ (l.map procRefs).sum :=
  List.single_le_sum (fun x hx => by
    obtain ⟨p, -, rfl⟩ := List.mem_map.1 hx
    exact procRefs_nonneg p) _ (List.mem_map_of_mem hp)

/-- Between two calls. -/
structure SysOk (sb : SuperBlock) (s : Sys) : Prop where
  settled : Settled sb s.world s.refs
  cwd : ∀ p, some p ∈ s.procs → (treeOf sb s.world.img (s.world.inode p.cwd).inum).type = T_DIR

/-- What a call of process `p` has to meet in the state before it. -/
def Call.Ok (sb : SuperBlock) (w : World) (p : Proc) : Call → Prop
  | .openCreate path => ParentLinked sb w p.cwd path
  | .mkdir path => ParentLinked sb w p.cwd path
  | .link _ new => ParentLinked sb w p.cwd new
  | .unlink path => ParentStays sb w p.cwd path
  | _ => True

instance (sb : SuperBlock) (w : World) (p : Proc) : (c : Call) → Decidable (c.Ok sb w p)
  | .openCreate path => inferInstanceAs (Decidable (ParentLinked sb w p.cwd path))
  | .mkdir path => inferInstanceAs (Decidable (ParentLinked sb w p.cwd path))
  | .link _ new => inferInstanceAs (Decidable (ParentLinked sb w p.cwd new))
  | .unlink path => inferInstanceAs (Decidable (ParentStays sb w p.cwd path))
  | .chdir _ => isTrue trivial
  | .close _ => isTrue trivial
  | .exit => isTrue trivial

theorem goesOn_ok {x : Except CallPanic (Option Nat × World × Proc)} {q : Option Proc} (h : goesOn x = .ok (r, w', q)) :
    ∃ p', q = some p' ∧ x = .ok (r, w', p') := by
  obtain ⟨⟨r', w'', p'⟩, hx, hret⟩ := bind_ok h
  cases hret
  exact ⟨p', rfl, hx⟩

/-- What a call leaves for the process that has made it and for the others. -/
theorem Ready.call {s : Sys} {c : Call} {q : Option Proc} (h : Ready sb R s.world p) (hc : c.Ok sb s.world p)
    (hok : call sb s i p c = .ok (r, w', q)) :
    Settled sb w' (R + procRefs q) ∧ Keeps sb R s.world w' ∧ ∀ p', q = some p' → (treeOf sb w'.img (w'.inode p'.cwd).inum).type = T_DIR := by
  -- all calls but `exit`
  have hgo : ∀ {x}, goesOn x = .ok (r, w', q) → (∀ p', x = .ok (r, w', p') → Ready sb R w' p' ∧ Keeps sb R s.world w') →
      Settled sb w' (R + procRefs q) ∧ Keeps sb R s.world w' ∧ ∀ p', q = some p' → (treeOf sb w'.img (w'.inode p'.cwd).inum).type = T_DIR := by
    intro x hx hready
    obtain ⟨p', rfl, hdone⟩ := goesOn_ok hx
    obtain ⟨hready, hkeep⟩ := hready p' hdone
    refine ⟨hready.settled, hkeep, ?_⟩
    rintro _ ⟨⟩
    exact hready.cwd
  cases c with
  | openCreate path => exact hgo hok fun p' hx => h.sysOpen hc hx
  | mkdir path => exact hgo hok fun p' hx => h.sysMkdir hc hx
  | link old new => exact hgo hok fun p' hx => h.sysLink hc hx
  | unlink path => exact hgo hok fun p' hx => h.sysUnlink hc hx
  | chdir path => exact hgo hok fun p' hx => h.sysChdir hx
  | close fd => exact hgo hok fun p' hx => h.sysClose hx
  | exit =>
    rw [Kernel.call] at hok
    split at hok
    · cases hok
    · obtain ⟨w₁, hexit, hret⟩ := bind_ok hok
      cases hret
      obtain ⟨hset, hkeep⟩ := h.exitProc hexit
      exact ⟨by rwa [show procRefs none = 0 from rfl, add_zero], hkeep, by rintro _ ⟨⟩⟩

def CallOk (sb : SuperBlock) (s : Sys) (a : Nat × Call) : Prop := ∀ p ∈ s.procs.getD a.1 none, a.2.Ok sb s.world p

instance (sb : SuperBlock) (s : Sys) (a : Nat × Call) : Decidable (CallOk sb s a) :=
  inferInstanceAs (Decidable (∀ p ∈ s.procs.getD a.1 none, a.2.Ok sb s.world p))

theorem SysOk.step {s s' : Sys} {a : Nat × Call} (h : SysOk sb s) (ha : CallOk sb s a) (hok : callStep sb s a = some s') : SysOk sb s' := by
  obtain ⟨i, c⟩ := a
  obtain ⟨⟨r, t⟩, hsys, rfl⟩ := Option.map_eq_some_iff.1 hok
  replace hsys : syscall sb s i c = .ok (r, t) := by
    cases hx : syscall sb s i c with
    | error e =>
      rw [hx] at hsys
      cases hsys
    | ok x =>
      rw [hx] at hsys
      exact congrArg Except.ok (Option.some.inj hsys)
  unfold syscall at hsys
  split at hsys
  · cases hsys
  next p hp =>
  obtain ⟨⟨r', w', q⟩, hcall, hret⟩ := bind_ok hsys
  cases hret
  have hslot : s.procs[i]? = some (some p) := by
    rw [List.getD_eq_getElem?_getD] at hp
    cases hget : s.procs[i]? with
    | none =>
      rw [hget] at hp
      cases hp
    | some e =>
      rw [hget] at hp
      exact congrArg some hp
  -- the references of the other processes
  obtain ⟨R, hR⟩ : ∃ R, R = ((s.procs.set i none).map procRefs).sum := ⟨_, rfl⟩
  have hrefs : s.refs = R + p.refs := by
    have hsum := sum_map_set procRefs hslot none
    rw [show procRefs none = 0 from rfl, add_zero, ← hR] at hsum
    exact hsum.symm
  have hrefs' : Sys.refs ⟨w', s.procs.set i q⟩ = R + procRefs q := by
    have hsum := sum_map_set procRefs hslot q
    have hold : (s.procs.map procRefs).sum = R + procRefs (some p) := hrefs
    rw [hold, add_right_comm] at hsum
    exact add_right_cancel hsum
  have hready : Ready sb R s.world p := ⟨hR ▸ procRefs_sum_nonneg _, hrefs ▸ h.settled, h.cwd p (List.mem_of_getElem? hslot)⟩
  obtain ⟨hset, hkeep, hcwd⟩ := hready.call (ha p hp) hcall
  refine ⟨hrefs' ▸ hset, fun p' hp' => ?_⟩
  obtain ⟨j, hj⟩ := List.mem_iff_getElem?.1 hp'
  change (s.procs.set i q)[j]? = some (some p') at hj
  rcases eq_or_ne i j with rfl | hij
  · rw [List.getElem?_set_self (List.getElem?_eq_some_iff.1 hslot).1] at hj
    exact hcwd p' (Option.some.inj hj)
  · have hother : some p' ∈ s.procs.set i none := List.mem_of_getElem? (i := j) (by rwa [List.getElem?_set_ne hij] at hj ⊢)
    have hpos : 0 < R p'.cwd := by
      rw [hR]
      exact lt_of_lt_of_le p'.cwd_pos (procRefs_le_sum hother p'.cwd)
    rw [hkeep.inum p'.cwd hpos, hkeep.type p'.cwd hpos]
    refine h.cwd p' (List.mem_of_getElem? (i := j) ?_)
    rwa [List.getElem?_set_ne hij] at hj

/-! ### Files that are not open -/

theorem exists_of_files_pos {l : List (Option Nat)} (h : 0 < (l.map held).sum k) : some k ∈ l := by
  induction l with
  | nil => exact absurd h (lt_irrefl 0)
  | cons e l ih =>
    have hsum : (held e + (l.map held).sum) k = held e k + (l.map held).sum k := rfl
    rw [List.map_cons, List.sum_cons, hsum] at h
    by_cases he : e = some k
    · exact List.mem_cons.2 (.inl he.symm)
    · have hzero : held e k = 0 := by
        cases e with
        | none => rfl
        | some m => exact Pi.single_eq_of_ne (fun hk => he (by rw [hk])) 1
      rw [hzero, zero_add] at h
      exact List.mem_cons_of_mem e (ih h)

theorem exists_of_refs_pos {l : List (Option Proc)} (h : 0 < (l.map procRefs).sum k) : ∃ p, some p ∈ l ∧ 0 < p.refs k := by
  induction l with
  | nil => exact absurd h (lt_irrefl 0)
  | cons q l ih =>
    have hsum : (procRefs q + (l.map procRefs).sum) k = procRefs q k + (l.map procRefs).sum k := rfl
    rw [List.map_cons, List.sum_cons, hsum] at h
    by_cases hpos : 0 < (l.map procRefs).sum k
    · obtain ⟨p, hp, hk⟩ := ih hpos
      exact ⟨p, List.mem_cons_of_mem q hp, hk⟩
    · cases q with
      | none =>
        have hzero : procRefs none k = 0 := rfl
        omega
      | some p =>
        have heq : procRefs (some p) k = p.refs k := rfl
        exact ⟨p, List.mem_cons_self, by omega⟩

theorem Sys.refs_pos {s : Sys} (h : 0 < s.refs k) : (∃ p, some p ∈ s.procs ∧ p.cwd = k) ∨ k ∈ s.files := by
  obtain ⟨p, hp, hk⟩ := exists_of_refs_pos h
  by_cases hcwd : p.cwd = k
  · exact .inl ⟨p, hp, hcwd⟩
  · have hfile : 0 < (p.ofile.map held).sum k := by
      have hsum : p.refs k = (Pi.single p.cwd 1 : Nat → Int) k + (p.ofile.map held).sum k := rfl
      rw [Pi.single_eq_of_ne (Ne.symm hcwd), zero_add] at hsum
      rwa [hsum] at hk
    refine .inr (List.mem_flatMap.2 ⟨p, List.mem_filterMap.2 ⟨some p, hp, rfl⟩, ?_⟩)
    exact List.mem_filterMap.2 ⟨some k, exists_of_files_pos hfile, rfl⟩

theorem SysOk.links {s : Sys} (h : SysOk sb s) (hfile : (treeOf sb s.world.img i).type = T_FILE)
    (hopen : ∀ k ∈ s.files, (s.world.inode k).inum ≠ i) :
    (treeOf sb s.world.img i).nlink = Fs.links sb.ninodes (treeOf sb s.world.img) i ∧ 0 < Fs.links sb.ninodes (treeOf sb s.world.img) i := by
  have hlinks := (h.settled.tree.node i).fileLinks hfile
  rw [← h.settled.tree.links_eq hfile] at hlinks
  refine ⟨hlinks, Nat.pos_of_ne_zero fun h0 => ?_⟩
  rw [h0] at hlinks
  obtain ⟨k, hk, hinum, -⟩ := h.settled.tree.held i (file_ne_zero hfile) hlinks
  rcases Sys.refs_pos hk with ⟨p, hp, rfl⟩ | hmem
  · have hdir := h.cwd p hp
    rw [hinum] at hdir
    exact file_ne_dir hfile hdir
  · exact hopen k hmem hinum

/-! ### Paths and references -/

theorem SysOk.namei {s : Sys} {ip : Option Nat} (h : SysOk sb s) (hp : some p ∈ s.procs) (hok : Kernel.namei sb p.cwd path s.world = .ok (ip, w')) :
    ip.map (fun k => (w'.inode k).inum) = goTo (treeOf sb s.world.img) (startOf s.world p.cwd path) (elements path) ∧
      treeOf sb w'.img = treeOf sb s.world.img := by
  obtain ⟨⟨r, w₂⟩, hnamex, hret⟩ := bind_ok hok
  cases hret
  have hpos : 0 < s.refs p.cwd := p.cwd_pos.trans_le (procRefs_le_sum hp p.cwd)
  have hroot := dir_ne_zero h.settled.tree.root.1
  obtain ⟨⟨k, w₁⟩, hstart, hfrom⟩ := bind_ok hnamex
  obtain ⟨h₁, hinum⟩ := h.settled.during.namexStart hpos hroot hstart
  refine ⟨?_, (h₁.namexFrom (Nat.le_refl _) hfrom).1.tree⟩
  rw [← hinum, ← h₁.namexFrom_goTo (Nat.le_refl _) hfrom, Option.map_map]
  rfl

end Ostep.Fs.Kernel
