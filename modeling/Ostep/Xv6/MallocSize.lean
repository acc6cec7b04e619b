import Ostep.Xv6.MallocRun

/-!
# Requests of any size

The number of units is computed in 32 bits, and so are the bytes that `morecore` asks `sbrk` for, which takes an `int`. The sum wraps
for the last seven sizes below 2^32, and the product is no longer the bytes of the block from 2^31 on.
-/

namespace Ostep.Xv6.Ulib

open Extent

def sbrkArg (nu : Nat) : Int := toInt32 (coreUnits nu * 8)

/-- The system refuses the next call of `sbrk`. -/
def Refused (sbrk : List (Option Nat)) : Prop := sbrk.head?.join = none

instance (sbrk : List (Option Nat)) : Decidable (Refused sbrk) := inferInstanceAs (Decidable (sbrk.head?.join = none))

/-- The calls of `sbrk` that give memory in the loop of `malloc`: the argument, and the bytes of the block that is recorded. -/
def sbrkCalls (nunits : Nat) : Nat → Nat → Nat → List (Option Nat) → Heap → List (Int × Nat)
  | 0, _, _, _, _ => []
  | fuel + 1, _, p, sbrk, h =>
    if size h.mem p ≥ nunits then []
    else if p = h.freep then
      if Refused sbrk then []
      else
        (sbrkArg nunits, coreUnits nunits * 8) ::
          match morecore fuel nunits sbrk h with
          | some (h, p, sbrk) => if p = 0 then [] else sbrkCalls nunits fuel p (ptr h.mem p) sbrk h
          | none => []
    else sbrkCalls nunits fuel p (ptr h.mem p) sbrk h

def mallocCalls (base fuel nbytes : Nat) (sbrk : List (Option Nat)) (h : Heap) : List (Int × Nat) :=
  let h := init base h
  sbrkCalls (units nbytes) fuel h.freep (ptr h.mem h.freep) sbrk h

variable {base n nbytes : Nat} {h : Heap} {l L : List Extent} {sbrk : List (Option Nat)}

/-! ### Sizes -/

theorem units_pos (nbytes : Nat) : 0 < units nbytes := Nat.succ_pos _

/-- The block holds the request unless the sum has wrapped. -/
theorem units_room_iff (hn : nbytes < 2 ^ 32) : nbytes + 8 ≤ 8 * units nbytes ↔ nbytes + 7 < 2 ^ 32 := by
  unfold units
  omega

theorem sbrkArg_eq_iff (n : Nat) : sbrkArg n = (coreUnits n * 8 : Nat) ↔ 8 * n < 2 ^ 31 := by
  unfold sbrkArg toInt32 coreUnits
  split <;> split <;> omega

/-! ### Calls of `sbrk` -/

theorem sbrkCalls_eq {c : Int × Nat} {fuel prevp p : Nat} (hc : c ∈ sbrkCalls n fuel prevp p sbrk h) : c = (sbrkArg n, coreUnits n * 8) := by
  induction fuel generalizing prevp p sbrk h with
  | zero => cases hc
  | succ fuel ih =>
    rw [sbrkCalls] at hc
    split at hc
    · cases hc
    split at hc
    · split at hc
      · cases hc
      rcases List.mem_cons.1 hc with rfl | hc
      · rfl
      split at hc
      · split at hc
        · cases hc
        · exact ih hc
      · cases hc
    · exact ih hc

theorem sbrkCalls_of_refused (hr : Refused sbrk) (fuel prevp p : Nat) : sbrkCalls n fuel prevp p sbrk h = [] := by
  induction fuel generalizing prevp p with
  | zero => rfl
  | succ fuel ih => rw [sbrkCalls, if_pos hr, ih, ite_self, ite_self]

theorem sbrkCalls_step (sbrk : List (Option Nat)) (fuel y : Nat) (hy : ¬ (size h.mem (ptr h.mem y) ≥ n ∨ ptr h.mem y = h.freep)) :
    sbrkCalls n (fuel + 1) y (ptr h.mem y) sbrk h = sbrkCalls n fuel (ptr h.mem y) (ptr h.mem (ptr h.mem y)) sbrk h := by
  obtain ⟨h₁, h₂⟩ := not_or.1 hy
  rw [sbrkCalls, if_neg h₁, if_neg h₂]

theorem sbrkCalls_mono {c : Int × Nat} {fuel prevp p : Nat} (k : Nat) (hc : c ∈ sbrkCalls n fuel prevp p sbrk h) :
    sbrkCalls n (fuel + k) prevp p sbrk h ≠ [] := by
  induction fuel generalizing prevp p with
  | zero => cases hc
  | succ fuel ih =>
    rw [sbrkCalls] at hc
    rw [Nat.succ_add, sbrkCalls]
    split at hc
    · cases hc
    next hsmall =>
    rw [if_neg hsmall]
    split at hc
    · next hlast =>
      rw [if_pos hlast]
      split at hc
      · cases hc
      · next hgive =>
        rw [if_neg hgive]
        nofun
    · next hlast =>
      rw [if_neg hlast]
      exact ih hc

namespace Layout

theorem sbrkCalls_of_block (hL : Layout base h l L) (hn : 0 < n) (hf : ∃ f ∈ l, 8 * n ≤ f.len) (sbrk : List (Option Nat)) (fuel : Nat) :
    sbrkCalls n fuel h.freep (ptr h.mem h.freep) sbrk h = [] := by
  rcases hL.round hn with ⟨k, A, d, q, B, -, -, hq, hlarge, hwalk⟩ | ⟨hsmall, -⟩
  · refine List.eq_nil_iff_forall_not_mem.2 fun c hc => sbrkCalls_mono (k + 1) hc ?_
    rw [← Nat.add_assoc, Nat.add_right_comm, hwalk (fun fuel y => sbrkCalls n fuel y (ptr h.mem y) sbrk h) (sbrkCalls_step sbrk), sbrkCalls, hq,
      if_pos hlarge]
  · obtain ⟨f, hf, hle⟩ := hf
    exact absurd (hsmall f hf) (Nat.not_lt.2 hle)

theorem sbrkCalls_of_small (hL : Layout base h l L) (hn : 0 < n) (hf : ¬ ∃ f ∈ l, 8 * n ≤ f.len) (hgive : ¬ Refused sbrk) :
    ∃ fuel, (sbrkArg n, coreUnits n * 8) ∈ sbrkCalls n fuel h.freep (ptr h.mem h.freep) sbrk h := by
  rcases hL.round hn with ⟨k, A, d, q, B, rfl, hle, -⟩ | ⟨-, k, z, hz, hlast, hwalk⟩
  · exact absurd ⟨q, by simp, hle⟩ hf
  · refine ⟨0 + 1 + k, ?_⟩
    rw [hwalk (fun fuel y => sbrkCalls n fuel y (ptr h.mem y) sbrk h) (sbrkCalls_step sbrk), sbrkCalls, hz, if_neg hlast, if_pos rfl,
      if_neg hgive]
    exact List.mem_cons_self

end Layout

/-! ### `malloc` -/

/-- The call of `malloc` returns `r` and leaves the heap `h'`. -/
def Returns (base nbytes : Nat) (sbrk : List (Option Nat)) (h h' : Heap) (r : Nat) : Prop :=
  ∃ N, ∀ fuel ≥ N, malloc base fuel nbytes sbrk h = some (h', r)

theorem Returns.unique {h' h'' : Heap} {r r' : Nat} (hr : Returns base nbytes sbrk h h' r) (hr' : Returns base nbytes sbrk h h'' r') :
    h' = h'' ∧ r = r' := by
  obtain ⟨N, hN⟩ := hr
  obtain ⟨N', hN'⟩ := hr'
  have heq := (hN (max N N') (Nat.le_max_left ..)).symm.trans (hN' (max N N') (Nat.le_max_right ..))
  exact Prod.mk.inj (Option.some.inj heq)

/-- The result of the call is a block of that many units. -/
def IsBlock (h' : Heap) (r n : Nat) : Prop := r ≠ 0 ∧ size h'.mem (r - 8) = n

theorem Layout.isBlock {h' : Heap} {l' : List Extent} {e : Extent} (hL : Layout base h' l' (e :: L)) (he : e.len = 8 * n) :
    IsBlock h' (e.start + 8) n := by
  have hsize := hL.sized e (List.mem_append_right _ List.mem_cons_self)
  refine ⟨Nat.succ_ne_zero _, ?_⟩
  rw [Nat.add_sub_cancel]
  omega

section
variable (hL : Layout base (init base h) l L)
include hL

theorem Layout.returns_of_block (hf : ∃ f ∈ l, 8 * units nbytes ≤ f.len) (sbrk : List (Option Nat)) :
    ∃ h' r, Returns base nbytes sbrk h h' r ∧ IsBlock h' r (units nbytes) := by
  rcases hL.mallocLoop_round (units_pos nbytes) sbrk with ⟨k, A, d, q, B, rfl, hq, hloop⟩ | ⟨hsmall, -⟩
  · obtain ⟨l', h', e, htake, he, hL', -⟩ := hL.take_ok (units_pos nbytes) hq
    refine ⟨h', e.start + 8, ⟨k + 1, fun fuel hfuel => ?_⟩, hL'.isBlock he⟩
    obtain ⟨c, rfl⟩ := Nat.exists_eq_add_of_le' hfuel
    rw [malloc, show c + (k + 1) = c + 1 + k by omega, hloop, htake]
  · obtain ⟨f, hf, hle⟩ := hf
    exact absurd (hsmall f hf) (Nat.not_lt.2 hle)

theorem Layout.returns_zero (hf : ¬ ∃ f ∈ l, 8 * units nbytes ≤ f.len) (hr : Refused sbrk) : Returns base nbytes sbrk h (init base h) 0 := by
  have hmore : ∀ fuel, morecore fuel (units nbytes) sbrk (init base h) = some (init base h, 0, sbrk.tail) := by
    match sbrk, hr with
    | [], _ => exact fun _ => rfl
    | none :: _, _ => exact fun _ => rfl
  rcases hL.mallocLoop_round (units_pos nbytes) sbrk with ⟨k, A, d, q, B, rfl, hq, -⟩ | ⟨-, k, hloop⟩
  · exact absurd ⟨q, by simp, hq⟩ hf
  · refine ⟨k + 1, fun fuel hfuel => ?_⟩
    obtain ⟨c, rfl⟩ := Nat.exists_eq_add_of_le' hfuel
    rw [malloc, show c + (k + 1) = c + 1 + k by omega, hloop, hmore]
    rfl

theorem Layout.returns (hs : Layout.Fresh base (init base h).got (coreUnits (units nbytes)) sbrk) :
    ∃ h' r, Returns base nbytes sbrk h h' r ∧ (r = 0 ∧ Refused sbrk ∨ IsBlock h' r (units nbytes)) := by
  obtain ⟨h', r, N, hloop, -, ⟨hr, -, hrefused⟩ | ⟨e, l', rfl, he, hL'⟩⟩ := hL.loop_ok (units_pos nbytes) hs
  · refine ⟨h', r, ⟨N, hloop⟩, .inl ⟨hr, ?_⟩⟩
    rcases hhead : sbrk.head? with _ | _ | p
    · rw [Refused, hhead]
      rfl
    · rw [Refused, hhead]
      rfl
    · exact absurd hhead (hrefused p)
  · exact ⟨h', _, ⟨N, hloop⟩, .inr (hL'.isBlock he)⟩

end

theorem got_init (base : Nat) (h : Heap) : (init base h).got = h.got := by
  unfold init
  split <;> rfl

/-- `malloc` returns 0 or a block with room for the request, and asks the system for as many bytes as it records, exactly when neither
the units wrap nor does the system give a block of 2^31 bytes or more; or when there is no free block and the system refuses. -/
theorem malloc_room_iff (hL : Layout base (init base h) l L) (hn : nbytes < 2 ^ 32)
    (hs : 8 * units nbytes < 2 ^ 31 → Layout.Fresh base h.got (coreUnits (units nbytes)) sbrk) :
    ((∃ h' r, Returns base nbytes sbrk h h' r ∧ (r = 0 ∨ nbytes + 8 ≤ 8 * size h'.mem (r - 8))) ∧
      ∀ fuel, ∀ c ∈ mallocCalls base fuel nbytes sbrk h, c.1 = c.2) ↔
    nbytes + 7 < 2 ^ 32 ∧ (8 * units nbytes < 2 ^ 31 ∨ (∃ f ∈ l, 8 * units nbytes ≤ f.len) ∨ Refused sbrk) ∨
      (∀ f ∈ l, f.len = 0) ∧ Refused sbrk := by
  rw [← got_init base h] at hs
  have hpos := units_pos nbytes
  have hroom := units_room_iff hn
  constructor
  · rintro ⟨⟨h', r, hr, hok⟩, hcalls⟩
    by_cases hblock : ∃ f ∈ l, 8 * units nbytes ≤ f.len
    · -- the result is the block that is there
      obtain ⟨h'', r'', hr'', hne, hsize⟩ := hL.returns_of_block hblock sbrk
      obtain ⟨rfl, rfl⟩ := hr.unique hr''
      rw [hsize] at hok
      exact .inl ⟨hroom.1 (hok.resolve_left hne), .inr (.inl hblock)⟩
    by_cases hrefused : Refused sbrk
    · by_cases hwrap : nbytes + 7 < 2 ^ 32
      · exact .inl ⟨hwrap, .inr (.inr hrefused)⟩
      · refine .inr ⟨fun f hf => ?_, hrefused⟩
        have hunit := hL.sized f (List.mem_append_left _ hf)
        have hsmall : ¬ 8 * units nbytes ≤ f.len := fun hle => hblock ⟨f, hf, hle⟩
        unfold units at hsmall
        omega
    · obtain ⟨fuel, hcall⟩ := hL.sbrkCalls_of_small hpos hblock hrefused
      have hlt := (sbrkArg_eq_iff _).1 (hcalls fuel _ hcall)
      obtain ⟨h'', r'', hr'', ⟨-, hno⟩ | ⟨hne, hsize⟩⟩ := hL.returns (hs hlt)
      · exact absurd hno hrefused
      · obtain ⟨rfl, rfl⟩ := hr.unique hr''
        rw [hsize] at hok
        exact .inl ⟨hroom.1 (hok.resolve_left hne), .inl hlt⟩
  · intro hcond
    by_cases hblock : ∃ f ∈ l, 8 * units nbytes ≤ f.len
    · have hwrap : nbytes + 7 < 2 ^ 32 := by
        rcases hcond with ⟨hwrap, -⟩ | ⟨hempty, -⟩
        · exact hwrap
        · obtain ⟨f, hf, hle⟩ := hblock
          have := hempty f hf
          omega
      obtain ⟨h', r, hr, -, hsize⟩ := hL.returns_of_block hblock sbrk
      refine ⟨⟨h', r, hr, .inr ?_⟩, fun fuel c hc => ?_⟩
      · rw [hsize]
        exact hroom.2 hwrap
      · rw [mallocCalls, hL.sbrkCalls_of_block hpos hblock] at hc
        cases hc
    by_cases hrefused : Refused sbrk
    · refine ⟨⟨_, 0, hL.returns_zero hblock hrefused, .inl rfl⟩, fun fuel c hc => ?_⟩
      rw [mallocCalls, sbrkCalls_of_refused hrefused] at hc
      cases hc
    · obtain ⟨hwrap, hlt⟩ : nbytes + 7 < 2 ^ 32 ∧ 8 * units nbytes < 2 ^ 31 := by
        rcases hcond with ⟨hwrap, hlt | hb | hr⟩ | ⟨-, hr⟩
        · exact ⟨hwrap, hlt⟩
        · exact absurd hb hblock
        · exact absurd hr hrefused
        · exact absurd hr hrefused
      obtain ⟨h', r, hr, ⟨-, hno⟩ | ⟨-, hsize⟩⟩ := hL.returns (hs hlt)
      · exact absurd hno hrefused
      · refine ⟨⟨h', r, hr, .inr ?_⟩, fun fuel c hc => ?_⟩
        · rw [hsize]
          exact hroom.2 hwrap
        · rw [sbrkCalls_eq hc]
          exact (sbrkArg_eq_iff _).2 hlt

def noHeap : Heap := ⟨fun _ => 0, 0, []⟩

theorem layout_noHeap : Layout 4096 (init 4096 noHeap) [⟨4096, 0⟩] [] := Layout.init_ok (by decide) (by decide)

/-- The block for a request of 2^32 - 1 bytes has one unit, its header. The one for 2^31 - 15 bytes is recorded with 2^31 bytes after
`sbrk(-2^31)`. -/
theorem malloc_wraps :
    (malloc 4096 3 (2 ^ 32 - 1) [some 8192] noHeap).map (fun x => (x.2, size x.1.mem (x.2 - 8))) = some (8192 + 8 * 4096, 1) ∧
      (-2 ^ 31, 2 ^ 31) ∈ mallocCalls 4096 1 (2 ^ 31 - 15) [some 8192] noHeap := by
  decide +kernel

theorem malloc_room_iff_ten : ∃ h' r, Returns 4096 10 [some 8192] noHeap h' r ∧ (r = 0 ∨ 10 + 8 ≤ 8 * size h'.mem (r - 8)) := by
  have hfresh : Layout.Fresh 4096 noHeap.got (coreUnits (units 10)) [some 8192] := ⟨by decide, nofun, by decide⟩
  exact ((malloc_room_iff layout_noHeap (by decide) fun _ => hfresh).2 (.inl ⟨by decide, .inl (by decide)⟩)).1

end Ostep.Xv6.Ulib
