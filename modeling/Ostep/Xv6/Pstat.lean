import Mathlib.Data.List.Induction
import Ostep.Lib.Word
import Ostep.Xv6.StoreRange

/-!
# What `getpinfo` leaves in the caller's `struct pstat`

The call stores four words for each used slot of the process table and none for the others, so the words of an unused slot stay what
they were.
-/

namespace Ostep.Xv6

def runStores (mem : Nat → UInt8) (st : List (Nat × UInt8)) : Nat → UInt8 := st.foldl (fun m x => Function.update m x.1 x.2) mem

def wordAt (mem : Nat → UInt8) (a : Nat) : List UInt8 := (List.range 4).map fun j => mem (a + j)

variable {mem : Nat → UInt8} {a b : Nat}

theorem runStores_append (mem : Nat → UInt8) (st st' : List (Nat × UInt8)) :
    runStores mem (st ++ st') = runStores (runStores mem st) st' := List.foldl_append

theorem runStores_storeBytes {bs : List UInt8} (h : a + bs.length ≤ 2 ^ 32) : runStores mem (storeBytes a bs) = patch mem a bs := by
  induction bs using List.reverseRecOn with
  | nil =>
    funext b
    exact (patch_nil mem a b).symm
  | append_singleton bs v ih =>
    have hlen : (bs ++ [v]).length = bs.length + 1 := List.length_append
    have hst : storeBytes a (bs ++ [v]) = storeBytes a bs ++ [((a + bs.length) % 2 ^ 32, v)] := by
      rw [storeBytes, List.zipIdx_append, List.map_append, storeBytes]
      simp
    funext b
    rw [hst, runStores_append, ih (by omega), ← patch_patch, Nat.mod_eq_of_lt (by omega)]
    show Function.update _ _ _ _ = _
    rw [Function.update_apply]
    by_cases hb : b = a + bs.length
    · rw [if_pos hb, patch_of_mem (by omega) (by rw [List.length_singleton]; omega), hb, Nat.sub_self]
      rfl
    · rw [if_neg hb, patch_of_ne (a := a + bs.length) (by rw [List.length_singleton]; omega)]

theorem wordAt_patch_self {bs : List UInt8} (hlen : bs.length = 4) : wordAt (patch mem a bs) a = bs := by
  refine List.ext_getElem? fun j => ?_
  rw [wordAt, List.getElem?_map]
  by_cases hj : j < 4
  · rw [List.getElem?_range hj, Option.map_some, patch_of_mem (by omega) (by omega), Nat.add_sub_cancel_left, List.getD_eq_getElem?_getD,
      List.getElem?_eq_getElem (by omega), Option.getD_some]
  · rw [List.getElem?_eq_none (by rw [List.length_range]; omega), List.getElem?_eq_none (by omega)]
    rfl

theorem wordAt_patch_of_ne {bs : List UInt8} (h : a + 4 ≤ b ∨ b + bs.length ≤ a) : wordAt (patch mem b bs) a = wordAt mem a := by
  refine List.map_congr_left fun j hj => patch_of_ne ?_
  have := List.mem_range.1 hj
  omega

theorem wordAt_runStores {γ : Type*} {addr : γ → Nat} (val : γ → Int) (hlt : ∀ c, addr c + 4 ≤ 2 ^ 32)
    (hsep : ∀ c c', c ≠ c' → addr c + 4 ≤ addr c' ∨ addr c' + 4 ≤ addr c) (cells : List γ) (mem : Nat → UInt8) (c : γ) :
    (c ∈ cells → wordAt (runStores mem (cells.flatMap fun c => storeBytes (addr c) (le32 (val c)))) (addr c) = le32 (val c)) ∧
      (c ∉ cells → wordAt (runStores mem (cells.flatMap fun c => storeBytes (addr c) (le32 (val c)))) (addr c) = wordAt mem (addr c)) := by
  induction cells generalizing mem with
  | nil => exact ⟨fun h => absurd h List.not_mem_nil, fun _ => rfl⟩
  | cons d cells ih =>
    rw [List.flatMap_cons, runStores_append, runStores_storeBytes (hlt d)]
    obtain ⟨hin, hout⟩ := ih (patch mem (addr d) (le32 (val d)))
    refine ⟨fun h => ?_, fun h => ?_⟩
    · by_cases hc : c ∈ cells
      · exact hin hc
      · obtain rfl : c = d := (List.mem_cons.1 h).resolve_right hc
        rw [hout hc, wordAt_patch_self (length_le32 _)]
    · obtain ⟨hcd, hc⟩ := not_or.1 (mt List.mem_cons.2 h)
      rw [hout hc, wordAt_patch_of_ne (hsep c d hcd)]

/-! ### `struct pstat` -/

inductive PstatArray where
  | inuse
  | pid
  | ticks
  | tickets
deriving DecidableEq, Repr

namespace PstatArray

def offset : PstatArray → Nat
  | inuse => Caller.pstatInuse
  | pid => Caller.pstatPid
  | ticks => Caller.pstatTicks
  | tickets => Caller.pstatTickets

def value (q : Proc) : PstatArray → Int
  | inuse => 1
  | pid => q.pid
  | ticks => q.ticks
  | tickets => q.tickets

end PstatArray

def pstatAddr (ps : Nat) (c : Slot × PstatArray) : Nat := ps + c.2.offset + 4 * c.1

def pstatWord (mem : Nat → UInt8) (ps : Nat) (c : Slot × PstatArray) : List UInt8 := wordAt mem (pstatAddr ps c)

/-- The entries that the call stores, in order. -/
def pstatCells (m : Caller) : List (Slot × PstatArray) :=
  (List.finRange NPROC).flatMap fun p =>
    if (m.k.proc p).state = .UNUSED then [] else [(p, .inuse), (p, .pid), (p, .ticks), (p, .tickets)]

variable {m : Caller} {ps : Nat}

theorem mem_pstatCells {c : Slot × PstatArray} : c ∈ pstatCells m ↔ (m.k.proc c.1).state ≠ .UNUSED := by
  obtain ⟨p, f⟩ := c
  rw [pstatCells, List.mem_flatMap]
  constructor
  · rintro ⟨q, -, hq⟩
    split at hq
    · cases hq
    · next hne =>
      obtain rfl : p = q := by
        simp only [List.mem_cons, Prod.mk.injEq, List.not_mem_nil, or_false] at hq
        tauto
      exact hne
  · intro hne
    refine ⟨p, List.mem_finRange p, ?_⟩
    rw [if_neg hne]
    cases f <;> simp

theorem getpstat_eq (m : Caller) (ps : Nat) :
    m.getpstat ps = (pstatCells m).flatMap fun c => storeBytes (pstatAddr ps c) (le32 (c.2.value (m.k.proc c.1))) := by
  rw [Caller.getpstat, pstatCells, List.flatMap_assoc]
  congr 1
  funext p
  split
  · rfl
  · simp only [List.flatMap_cons, List.flatMap_nil, List.append_nil, List.append_assoc]
    rfl

theorem pstatAddr_lt (hps : ps + 1024 ≤ 2 ^ 32) (c : Slot × PstatArray) : pstatAddr ps c + 4 ≤ 2 ^ 32 := by
  obtain ⟨p, f⟩ := c
  have hp : p.val < 64 := p.isLt
  unfold pstatAddr
  cases f <;> simp only [PstatArray.offset, Caller.pstatInuse, Caller.pstatPid, Caller.pstatTicks, Caller.pstatTickets] <;> omega

theorem pstatAddr_apart (ps : Nat) (c c' : Slot × PstatArray) (h : c ≠ c') :
    pstatAddr ps c + 4 ≤ pstatAddr ps c' ∨ pstatAddr ps c' + 4 ≤ pstatAddr ps c := by
  obtain ⟨p, f⟩ := c
  obtain ⟨q, g⟩ := c'
  have hp : p.val < 64 := p.isLt
  have hq : q.val < 64 := q.isLt
  unfold pstatAddr
  cases f <;> cases g <;> simp only [PstatArray.offset, Caller.pstatInuse, Caller.pstatPid, Caller.pstatTicks, Caller.pstatTickets] <;>
    first
      | omega
      | (have hpq : p.val ≠ q.val := fun he => h (by rw [Fin.ext he])
         omega)

theorem pstatWord_getpstat (hps : ps + 1024 ≤ 2 ^ 32) (mem : Nat → UInt8) (c : Slot × PstatArray) :
    pstatWord (runStores mem (m.getpstat ps)) ps c =
      if (m.k.proc c.1).state ≠ .UNUSED then le32 (c.2.value (m.k.proc c.1)) else pstatWord mem ps c := by
  obtain ⟨hin, hout⟩ := wordAt_runStores (fun c : Slot × PstatArray => c.2.value (m.k.proc c.1)) (pstatAddr_lt hps) (pstatAddr_apart ps)
    (pstatCells m) mem c
  rw [pstatWord, getpstat_eq]
  split
  · next hused => exact hin (mem_pstatCells.2 hused)
  · next hfree => exact hout (mt mem_pstatCells.1 hfree)

/-- The struct describes the process table: which slots are used, and the data of those that are. -/
def Snapshot (k : Kernel) (mem : Nat → UInt8) (ps : Nat) : Prop :=
  ∀ p : Slot, pstatWord mem ps (p, .inuse) = le32 (if (k.proc p).state = .UNUSED then 0 else 1) ∧
    ((k.proc p).state ≠ .UNUSED → pstatWord mem ps (p, .pid) = le32 (k.proc p).pid ∧
      pstatWord mem ps (p, .ticks) = le32 (k.proc p).ticks ∧ pstatWord mem ps (p, .tickets) = le32 (k.proc p).tickets)

/-- The caller's memory after `getpinfo`. -/
def Caller.afterGetpinfo (m : Caller) : Nat → UInt8 := runStores m.mem m.sysGetpinfo.stores

theorem afterGetpinfo_eq {i : Int} (harg : m.argint 0 = some i) : m.afterGetpinfo = runStores m.mem (m.getpstat (toUint32 i)) := by
  rw [Caller.afterGetpinfo, Caller.sysGetpinfo, harg]

/-- `getpinfo` leaves a description of the process table exactly when the caller has cleared `inuse` of the unused slots, and two
callers get the same struct exactly when theirs agreed on the entries of the unused slots. -/
theorem getpinfo_snapshot_iff {m m' : Caller} {i : Int} (hk : m'.k = m.k) (harg : m.argint 0 = some i) (harg' : m'.argint 0 = some i)
    (hps : toUint32 i + 1024 ≤ 2 ^ 32) :
    (Snapshot m.k m.afterGetpinfo (toUint32 i) ↔
      ∀ p : Slot, (m.k.proc p).state = .UNUSED → pstatWord m.mem (toUint32 i) (p, .inuse) = le32 0) ∧
    ((∀ c, pstatWord m.afterGetpinfo (toUint32 i) c = pstatWord m'.afterGetpinfo (toUint32 i) c) ↔
      ∀ c : Slot × PstatArray, (m.k.proc c.1).state = .UNUSED → pstatWord m.mem (toUint32 i) c = pstatWord m'.mem (toUint32 i) c) := by
  rw [afterGetpinfo_eq harg, afterGetpinfo_eq harg']
  refine ⟨⟨fun h p hp => ?_, fun h p => ?_⟩, forall_congr' fun c => ?_⟩
  · have hin := (h p).1
    rwa [pstatWord_getpstat hps, if_neg (not_not.2 hp), if_pos hp] at hin
  · by_cases hp : (m.k.proc p).state = .UNUSED
    · refine ⟨?_, fun hne => absurd hp hne⟩
      rw [pstatWord_getpstat hps, if_neg (not_not.2 hp), if_pos hp]
      exact h p hp
    · simp only [pstatWord_getpstat hps, ne_eq, hp, not_false_eq_true, if_true, if_false]
      exact ⟨rfl, fun _ => ⟨rfl, rfl, rfl⟩⟩
  · rw [pstatWord_getpstat hps, pstatWord_getpstat hps, hk]
    by_cases hc : (m.k.proc c.1).state = .UNUSED
    · simp [hc]
    · simp [hc]

def freshCaller : Caller := { oneCaller 0 with mem := fun a => if a = 5 then 4 else 0 }

theorem getpinfo_snapshot_iff_fresh : Snapshot freshCaller.k freshCaller.afterGetpinfo 1024 := by
  refine (getpinfo_snapshot_iff (m := freshCaller) (i := 1024) rfl (by decide) (by decide) (by decide)).1.2 fun p _ => ?_
  refine List.map_congr_left fun j _ => if_neg ?_
  show 1024 + 0 + 4 * (p : Nat) + j ≠ 5
  omega

/-- The struct is that of an earlier call, which found a process in slot 1. -/
def staleCaller : Caller := { freshCaller with mem := fun a => if a = 1024 + 4 then 1 else freshCaller.mem a }

/-- Slot 1 is unused by now. -/
theorem not_snapshot_staleCaller :
    (staleCaller.k.proc 1).state = .UNUSED ∧ staleCaller.sysGetpinfo.ret = some 0 ∧
      pstatWord staleCaller.afterGetpinfo 1024 (1, .inuse) = le32 1 ∧ ¬ Snapshot staleCaller.k staleCaller.afterGetpinfo 1024 := by
  have hunused : (staleCaller.k.proc 1).state = .UNUSED := by decide
  have hword : pstatWord staleCaller.afterGetpinfo 1024 (1, .inuse) = le32 1 := by
    rw [afterGetpinfo_eq (i := 1024) (by decide)]
    exact (pstatWord_getpstat (by decide) _ _).trans (by decide)
  refine ⟨hunused, by decide, hword, fun h => ?_⟩
  have hin := (h 1).1
  rw [hword, if_pos hunused] at hin
  exact absurd hin (by decide)

end Ostep.Xv6
