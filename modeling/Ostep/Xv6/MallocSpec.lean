import Ostep.Lib.Path
import Ostep.Lib.Extents
import Ostep.Xv6.Malloc

/-!
# The allocator keeps its free list

`Layout` says how the blocks lie in memory: the free list is circular and ascends from `base`, no two free blocks touch, and the
blocks in use are apart from it and from each other. `free` joins a block with its neighbours (`Layout.free`), `malloc` goes once
round the list, and once more when it has got memory from the system (`Layout.malloc`).
-/

namespace Ostep.Xv6.Ulib

open Extent

variable {base p q b x a n : Nat} {m m' : Nat → UInt8} {h h' : Heap} {l l' L A B R : List Extent} {e f : Extent}

/-! ### Headers -/

theorem ptr_congr (hm : ∀ a, p ≤ a → a < p + 8 → m' a = m a) : ptr m' p = ptr m p := load_congr fun a h₁ h₂ => hm a h₁ (by omega)

theorem size_congr (hm : ∀ a, p ≤ a → a < p + 8 → m' a = m a) : size m' p = size m p := load_congr fun a h₁ h₂ => hm a (by omega) (by omega)

@[simp] theorem ptr_setPtr_self (p : Nat) (m : Nat → UInt8) (hx : x < 2 ^ 32) : ptr (setPtr p x m) p = x := load_store_self p m hx

@[simp] theorem size_setSize_self (p : Nat) (m : Nat → UInt8) (hx : x < 2 ^ 32) : size (setSize p x m) p = x := load_store_self (p + 4) m hx

@[simp] theorem size_setPtr_self (p x : Nat) (m : Nat → UInt8) : size (setPtr p x m) p = size m p := load_store_of_ne (.inl (Nat.le_refl _)) x m

@[simp] theorem ptr_setSize_self (p x : Nat) (m : Nat → UInt8) : ptr (setSize p x m) p = ptr m p := load_store_of_ne (.inr (Nat.le_refl _)) x m

theorem setPtr_of_ne (ha : a < p ∨ p + 8 ≤ a) (x : Nat) (m : Nat → UInt8) : setPtr p x m a = m a := store_of_ne (by omega) x m

theorem setSize_of_ne (ha : a < p ∨ p + 8 ≤ a) (x : Nat) (m : Nat → UInt8) : setSize p x m a = m a := store_of_ne (by omega) x m

theorem ptr_lt (m : Nat → UInt8) (p : Nat) : ptr m p < 2 ^ 32 := by
  have h0 := (m p).toNat_lt
  have h1 := (m (p + 1)).toNat_lt
  have h2 := (m (p + 2)).toNat_lt
  have h3 := (m (p + 3)).toNat_lt
  unfold ptr load
  omega

/-! ### Joining two blocks -/

/-- The block `b` goes in front of `q`, and is united with it if they touch. -/
def attach (b q : Nat) (m : Nat → UInt8) : Nat → UInt8 :=
  if add b (size m b) = q then
    let m := setSize b (size m b + size m q) m
    setPtr b (ptr m q) m
  else setPtr b q m

theorem attach_of_ne (ha : a < b ∨ b + 8 ≤ a) (q : Nat) (m : Nat → UInt8) : attach b q m a = m a := by
  unfold attach
  split
  · exact (setPtr_of_ne ha _ _).trans (setSize_of_ne ha _ _)
  · exact setPtr_of_ne ha _ _

theorem add_size (hsize : e.len = 8 * size m e.start) (hlt : e.stop < 2 ^ 32) : add e.start (size m e.start) = e.stop := by
  have heq : e.start + size m e.start * 8 = e.stop := by
    unfold stop
    omega
  rw [add, heq, Nat.mod_eq_of_lt hlt]

theorem attach_path {z : Nat} (hpath : Path (ptr m) q (R.map start) z) (hsize : ∀ f ∈ e :: R, f.len = 8 * size m f.start)
    (hlt : ∀ f ∈ e :: R, f.stop < 2 ^ 32) (hsep : ∀ f ∈ R, e.start + 8 ≤ f.start) (hnil : R = [] → e.stop ≠ q) (hq : q < 2 ^ 32) :
    Path (ptr (attach e.start q m)) e.start ((join e R).map start) z ∧ ∀ f ∈ join e R, f.len = 8 * size (attach e.start q m) f.start := by
  have hadd := add_size (hsize e List.mem_cons_self) (hlt e List.mem_cons_self)
  have hframe : ∀ f ∈ R, ∀ a, f.start ≤ a → a < f.start + 8 → attach e.start q m a = m a := fun f hf a ha _ =>
    attach_of_ne (.inr (Nat.le_trans (hsep f hf) ha)) q m
  have hkeep : ∀ R' ⊆ R, ∀ {p : Nat}, Path (ptr m) p (R'.map start) z → Path (ptr (attach e.start q m)) p (R'.map start) z := by
    intro R' hR' p hp
    refine hp.congr fun x hx => ?_
    obtain ⟨f, hf, rfl⟩ := List.mem_map.1 hx
    exact ptr_congr (hframe f (hR' hf))
  have hlen : ∀ f ∈ R, f.len = 8 * size (attach e.start q m) f.start := by
    intro f hf
    rw [size_congr (hframe f hf)]
    exact hsize f (List.mem_cons_of_mem _ hf)
  by_cases htouch : e.stop = q
  · cases R with
    | nil => exact absurd htouch (hnil rfl)
    | cons f R =>
      obtain ⟨hqf, hpath⟩ := hpath
      have hqf : q = f.start := hqf
      have hjoin : join e (f :: R) = ⟨e.start, e.len + f.len⟩ :: R := if_pos (htouch.trans hqf)
      have hattach : attach e.start q m = setPtr e.start (ptr m q) (setSize e.start (size m e.start + size m q) m) := by
        unfold attach
        rw [if_pos (hadd.trans htouch)]
        have hptr : ptr (setSize e.start (size m e.start + size m q) m) q = ptr m q :=
          ptr_congr fun a ha _ => setSize_of_ne (.inr (Nat.le_trans (hsep f List.mem_cons_self) (hqf ▸ ha))) _ _
        rw [← hptr]
      have hsum : size m e.start + size m q < 2 ^ 32 := by
        have he := hsize e List.mem_cons_self
        have hf := hsize f (List.mem_cons_of_mem _ List.mem_cons_self)
        have hstop := hlt f (List.mem_cons_of_mem _ List.mem_cons_self)
        have hstop' := hlt e List.mem_cons_self
        rw [hqf]
        unfold stop at *
        omega
      rw [hjoin]
      refine ⟨⟨rfl, ?_⟩, fun g hg => ?_⟩
      · show Path _ (ptr (attach e.start q m) e.start) _ _
        rw [show ptr (attach e.start q m) e.start = ptr m q by rw [hattach, ptr_setPtr_self _ _ (by exact ptr_lt m q)], hqf]
        rw [hqf] at hkeep
        exact hkeep R (List.subset_cons_self f R) hpath
      · rcases List.mem_cons.1 hg with rfl | hg
        · have he := hsize e List.mem_cons_self
          have hf := hsize f (List.mem_cons_of_mem _ List.mem_cons_self)
          rw [hattach, size_setPtr_self, size_setSize_self _ _ hsum, hqf]
          dsimp only
          omega
        · exact hlen g (List.mem_cons_of_mem _ hg)
  · have hattach : attach e.start q m = setPtr e.start q m := if_neg (hadd ▸ htouch)
    have hjoin : join e R = e :: R := by
      cases R with
      | nil => rfl
      | cons f R =>
        have hqf : q = f.start := hpath.1
        exact if_neg (hqf ▸ htouch)
    rw [hjoin]
    refine ⟨⟨rfl, ?_⟩, fun g hg => ?_⟩
    · show Path _ (ptr (attach e.start q m) e.start) _ _
      rw [show ptr (attach e.start q m) e.start = q by rw [hattach, ptr_setPtr_self _ _ hq]]
      exact hkeep R (List.Subset.refl R) hpath
    · rcases List.mem_cons.1 hg with rfl | hg
      · rw [hattach, size_setPtr_self]
        exact hsize g List.mem_cons_self
      · exact hlen g hg

/-! ### The layout of the heap -/

/-- A block behind `base`, in one of the regions that the system has given. -/
structure Block (base : Nat) (got : List (Nat × Nat)) (e : Extent) : Prop where
  pos : 0 < e.len
  above : base + 8 ≤ e.start
  inside : ∃ r ∈ got, e.stop ≤ r.1 + 8 * r.2

theorem Block.ne_base {got : List (Nat × Nat)} (he : Block base got e) : ⟨base, 0⟩ ≠ e := by
  rintro rfl
  exact Nat.lt_irrefl 0 he.pos

theorem Block.unite {got : List (Nat × Nat)} (he : Block base got e) (hf : Block base got f) (htouch : e.stop = f.start) :
    Block base got ⟨e.start, e.len + f.len⟩ := by
  obtain ⟨r, hr, hle⟩ := hf.inside
  refine ⟨Nat.add_pos_left he.pos _, he.above, r, hr, ?_⟩
  unfold stop at *
  dsimp only
  omega

/-- The free list `l`, which starts with `base`, and the blocks `L` in use. -/
structure Layout (base : Nat) (h : Heap) (l L : List Extent) : Prop where
  /-- The list is circular. -/
  path : Path (ptr h.mem) base (l.map start) base
  base_mem : ⟨base, 0⟩ ∈ l
  freep : h.freep ∈ l.map start
  /-- It ascends, and no two blocks touch. -/
  gapped : Gapped l
  free_block : ∀ e ∈ l, e = ⟨base, 0⟩ ∨ Block base h.got e
  live_block : ∀ e ∈ L, Block base h.got e
  sized : ∀ e ∈ l ++ L, e.len = 8 * size h.mem e.start
  apart : L.Pairwise Apart
  cross : ∀ x ∈ L, ∀ f ∈ l, Apart x f
  total : (l.map len).sum + (L.map len).sum = 8 * (h.got.map Prod.snd).sum
  got : ∀ r ∈ h.got, r.1 + 8 * r.2 < 2 ^ 32
  base_pos : 0 < base
  base_lt : base + 8 < 2 ^ 32

namespace Layout

theorem block_lt (hL : Layout base h l L) (he : Block base h.got e) : e.stop < 2 ^ 32 := by
  obtain ⟨r, hr, hle⟩ := he.inside
  have := hL.got r hr
  omega

theorem stop_lt (hL : Layout base h l L) (he : e ∈ l) : e.stop < 2 ^ 32 := by
  rcases hL.free_block e he with rfl | hb
  · have := hL.base_lt
    show base + 0 < 2 ^ 32
    omega
  · exact hL.block_lt hb

theorem base_le (hL : Layout base h l L) (he : e ∈ l) : base ≤ e.start := by
  rcases hL.free_block e he with rfl | hb
  · exact Nat.le_refl _
  · have := hb.above
    omega

theorem eight_le (hL : Layout base h l L) (he : e ∈ l ++ L) (hb : Block base h.got e) : 8 ≤ e.len := by
  have := hL.sized e he
  have := hb.pos
  omega

theorem sep_free (hL : Layout base h l L) (hl : l = A ++ e :: R) (hf : f ∈ R) : e.start + 8 ≤ f.start := by
  have he : e ∈ l := hl ▸ List.mem_append_right _ List.mem_cons_self
  have hfl : f ∈ l := hl ▸ List.mem_append_right _ (List.mem_cons_of_mem _ hf)
  have hgap : e.stop < f.start := by
    have hg := hL.gapped
    rw [hl] at hg
    exact (List.pairwise_cons.1 (List.pairwise_append.1 hg).2.1).1 f hf
  rcases hL.free_block e he with rfl | hb
  · rcases hL.free_block f hfl with rfl | hb'
    · exact absurd hgap (Nat.lt_irrefl _)
    · exact hb'.above
  · have := hL.eight_le (List.mem_append_left _ he) hb
    unfold stop at hgap
    omega

theorem sep_live (hL : Layout base h l L) (hx : e ∈ L) (hf : f ∈ l) : e.start + 8 ≤ f.start ∧ e.stop ≤ f.start ∨ f.start + 8 ≤ e.start ∧ f.stop ≤ e.start := by
  have hb := hL.live_block e hx
  have h8 := hL.eight_le (List.mem_append_right _ hx) hb
  rcases hL.free_block f hf with rfl | hb'
  · exact .inr ⟨hb.above, Nat.le_trans (Nat.le_add_right _ _) hb.above⟩
  · have h8' := hL.eight_le (List.mem_append_left _ hf) hb'
    have := hL.cross e hx f hf
    unfold Apart stop at *
    omega

theorem sep {d : Extent} (hL : Layout base h l L) (hd : d ∈ l) (hf : f ∈ l ++ L) : f = d ∨ f.start + 8 ≤ d.start ∨ d.start + 8 ≤ f.start := by
  rcases List.mem_append.1 hf with hf | hf
  · obtain ⟨A, R, hl⟩ := List.append_of_mem hd
    rw [hl] at hf
    rcases List.mem_append.1 hf with hA | hR
    · obtain ⟨A₁, A₂, rfl⟩ := List.append_of_mem hA
      rw [List.append_assoc, List.cons_append] at hl
      exact .inr (.inl (hL.sep_free hl (List.mem_append_right _ List.mem_cons_self)))
    · rcases List.mem_cons.1 hR with rfl | hR
      · exact .inl rfl
      · exact .inr (.inr (hL.sep_free hl hR))
  · have := hL.sep_live hf hd
    omega

/-! ### `free` -/

/-- Where the loop of `free` stops. -/
def Stops (m : Nat → UInt8) (bp p : Nat) : Prop := bp > p ∧ bp < ptr m p ∨ p ≥ ptr m p ∧ (bp > p ∨ bp < ptr m p)

theorem freeLoop_of_not (hs : ¬ Stops m b p) (fuel : Nat) : freeLoop m b (fuel + 1) p = freeLoop m b fuel (ptr m p) := by
  obtain ⟨h₁, h₂⟩ := not_or.1 hs
  rw [freeLoop, if_neg h₁, if_neg h₂]

theorem freeLoop_of_stops (hs : Stops m b p) (fuel : Nat) : freeLoop m b (fuel + 1) p = some p := by
  rw [freeLoop]
  split
  · rfl
  · next h₁ => rw [if_pos (hs.resolve_left h₁)]

theorem next_eq (hL : Layout base h l L) (hl : l = A ++ e :: R) : Path (ptr h.mem) (ptr h.mem e.start) (R.map start) base := by
  have hp := hL.path
  rw [hl, List.map_append, List.map_cons] at hp
  exact hp.split.2

theorem nodup (hL : Layout base h l L) : (l.map start).Nodup := by
  refine List.pairwise_map.2 (hL.gapped.imp fun {e f} hlt => ?_)
  have : e.start ≤ e.stop := Nat.le_add_right _ _
  omega

theorem cycle (hL : Layout base h l L) : ∃ C, Path (ptr h.mem) h.freep (h.freep :: C) h.freep ∧ (h.freep :: C).Perm (l.map start) := by
  obtain ⟨B, C, hBC⟩ := List.append_of_mem hL.freep
  have hpath := hL.path
  rw [hBC] at hpath
  refine ⟨C ++ B, hpath.rotate, ?_⟩
  rw [hBC]
  exact (List.perm_append_comm.cons _).trans List.perm_middle.symm

/-- The loop of `free` finds the place of the block. -/
theorem freeLoop_ok (hL : Layout base h l (e :: L)) : ∃ A d R, l = A ++ d :: R ∧ d.start < e.start ∧ (∀ f ∈ R, e.start < f.start) ∧
    ∃ N, ∀ fuel ≥ N, freeLoop h.mem e.start fuel h.freep = some d.start := by
  have habove := (hL.live_block e List.mem_cons_self).above
  have hne : ∀ f ∈ l, f.start ≠ e.start := by
    intro f hf heq
    have := hL.sep_live List.mem_cons_self hf
    omega
  -- there is a place to stop
  have hstop : ∃ f ∈ l, Stops h.mem e.start f.start := by
    obtain ⟨A, f, R, hl, hlt, hR⟩ := exists_split ⟨_, hL.base_mem, show base < e.start by omega⟩ hne
    have hnext := hL.next_eq hl
    have hf : f ∈ l := hl ▸ List.mem_append_right _ List.mem_cons_self
    refine ⟨f, hf, ?_⟩
    cases R with
    | nil =>
      have hbase : ptr h.mem f.start = base := hnext
      exact .inr ⟨hbase ▸ hL.base_le hf, .inl hlt⟩
    | cons r R =>
      have hr : ptr h.mem f.start = r.start := hnext.1
      exact .inl ⟨hlt, hr ▸ hR r List.mem_cons_self⟩
  obtain ⟨C, hcycle, hperm⟩ := hL.cycle
  obtain ⟨g, hg, hgs⟩ := hstop
  obtain ⟨z, hz, hzs, k, hk⟩ := hcycle.exists_walk (F := freeLoop h.mem e.start) (fun fuel y hy => freeLoop_of_not hy fuel)
    ⟨g.start, hperm.mem_iff.2 (List.mem_map_of_mem hg), hgs⟩
  obtain ⟨p, hp, rfl⟩ := List.mem_map.1 (hperm.mem_iff.1 hz)
  obtain ⟨A, R, hl⟩ := List.append_of_mem hp
  have hnext := hL.next_eq hl
  have hloop : ∀ fuel ≥ k + 1, freeLoop h.mem e.start fuel h.freep = some p.start := by
    intro fuel hfuel
    obtain ⟨d, rfl⟩ := Nat.exists_eq_add_of_le' hfuel
    rw [show d + (k + 1) = d + 1 + k by omega, hk, freeLoop_of_stops hzs]
  cases R with
  | nil =>
    have hbase : ptr h.mem p.start = base := hnext
    refine ⟨A, p, [], hl, ?_, nofun, k + 1, hloop⟩
    rcases hzs with ⟨hgt, -⟩ | ⟨-, hgt | hlt⟩
    · exact hgt
    · exact hgt
    · omega
  | cons r R =>
    have hr : ptr h.mem p.start = r.start := hnext.1
    have hpr := hL.sep_free hl List.mem_cons_self
    have hbetween : p.start < e.start ∧ e.start < r.start := by
      rcases hzs with ⟨hgt, hlt⟩ | ⟨hge, -⟩ <;> rw [hr] at *
      · exact ⟨hgt, hlt⟩
      · omega
    refine ⟨A, p, r :: R, hl, hbetween.1, fun f hf => ?_, k + 1, hloop⟩
    rcases List.mem_cons.1 hf with rfl | hf
    · exact hbetween.2
    · have hl' : l = (A ++ [p]) ++ r :: R := by rw [hl, List.append_assoc]; rfl
      have := hL.sep_free hl' hf
      omega

theorem free_eq {fuel : Nat} (hb : b + 8 < 2 ^ 32) (hsep : p + 8 ≤ b ∨ b + 8 ≤ p) (hloop : freeLoop h.mem b fuel h.freep = some p) :
    free fuel (b + 8) h = some { h with mem := attach p b (attach b (ptr h.mem p) h.mem), freep := p } := by
  have hbp : (b + 8 + 2 ^ 32 - 8) % 2 ^ 32 = b := by omega
  have hptr : ∀ n, ptr (setSize b n h.mem) p = ptr h.mem p := fun n => ptr_congr fun a ha ha' => setSize_of_ne (by omega) n _
  unfold free
  simp only [hbp, hloop, Option.bind_eq_bind, Option.bind_some, hptr]
  rfl

end Layout

/-- The block `e` lies between `d` and the blocks `R` of the free list. -/
structure Between (base : Nat) (h : Heap) (L : List Extent) (e : Extent) (A : List Extent) (d : Extent) (R : List Extent) : Prop where
  layout : Layout base h (A ++ d :: R) (e :: L)
  lt : d.start < e.start
  gt : ∀ f ∈ R, e.start < f.start

def freed (h : Heap) (d e : Extent) : Nat → UInt8 := attach d.start e.start (attach e.start (ptr h.mem d.start) h.mem)

theorem freed_of_ne {d : Extent} (he : a < e.start ∨ e.start + 8 ≤ a) (hd : a < d.start ∨ d.start + 8 ≤ a) : freed h d e a = h.mem a :=
  (attach_of_ne hd _ _).trans (attach_of_ne he _ _)

namespace Between

variable {d : Extent} (hB : Between base h L e A d R)
include hB

omit hB in
theorem mid_mem : d ∈ A ++ d :: R := List.mem_append_right _ List.mem_cons_self

omit hB in
theorem right_mem (hf : f ∈ R) : f ∈ A ++ d :: R := List.mem_append_right _ (List.mem_cons_of_mem _ hf)

theorem block : Block base h.got e := hB.layout.live_block e List.mem_cons_self

theorem stop_lt : e.start + 8 ≤ e.stop ∧ e.stop < 2 ^ 32 :=
  ⟨Nat.add_le_add_left (hB.layout.eight_le (List.mem_append_right _ List.mem_cons_self) hB.block) _, hB.layout.block_lt hB.block⟩

theorem sized (hf : f ∈ A ++ d :: R) : f.len = 8 * size h.mem f.start := hB.layout.sized f (List.mem_append_left _ hf)

theorem prev : d.start + 8 ≤ e.start ∧ d.stop ≤ e.start := by
  have := hB.layout.sep_live List.mem_cons_self mid_mem
  have := hB.lt
  omega

theorem next (hf : f ∈ R) : e.start + 8 ≤ f.start ∧ e.stop ≤ f.start := by
  have := hB.layout.sep_live List.mem_cons_self (right_mem hf)
  have := hB.gt f hf
  omega

theorem before (hf : f ∈ A) : f.start + 8 ≤ d.start := by
  obtain ⟨A₁, A₂, rfl⟩ := List.append_of_mem hf
  exact hB.layout.sep_free (List.append_assoc _ _ _) (List.mem_append_right _ List.mem_cons_self)

theorem start_le (hf : f ∈ join e R) : e.start ≤ f.start := by
  rcases mem_join hf with heq | hf
  · exact heq ▸ Nat.le_refl _
  · exact Nat.le_of_lt (hB.gt f hf)

theorem block_right (hf : f ∈ R) : Block base h.got f := by
  rcases hB.layout.free_block f (right_mem hf) with rfl | hb
  · have : e.start < base := hB.gt _ hf
    have := hB.block.above
    omega
  · exact hb

theorem block_join : ∀ f ∈ join e R, Block base h.got f :=
  forall_join hB.block (fun _ hf => hB.block_right hf) fun _ hf htouch => hB.block.unite (hB.block_right hf) htouch

theorem free_block : ∀ f ∈ A ++ join d (join e R), f = ⟨base, 0⟩ ∨ Block base h.got f := by
  intro f hf
  rcases List.mem_append.1 hf with hf | hf
  · exact hB.layout.free_block f (List.mem_append_left _ hf)
  · refine forall_join (P := fun f => f = ⟨base, 0⟩ ∨ Block base h.got f) (hB.layout.free_block d mid_mem)
      (fun g hg => .inr (hB.block_join g hg)) (fun g hg htouch => .inr ?_) f hf
    rcases hB.layout.free_block d mid_mem with rfl | hd
    · -- nothing touches `base`
      have := (hB.block_join g hg).above
      have : base + 0 = g.start := htouch
      omega
    · exact hd.unite (hB.block_join g hg) htouch

theorem base_mem : ⟨base, 0⟩ ∈ A ++ join d (join e R) := by
  rcases List.mem_append.1 hB.layout.base_mem with hA | hdR
  · exact List.mem_append_left _ hA
  · refine List.mem_append_right _ ?_
    rcases List.mem_cons.1 hdR with rfl | hR
    · rcases join_cases ⟨base, 0⟩ (join e R) with heq | ⟨g, R', hg, htouch, -⟩
      · rw [heq]
        exact List.mem_cons_self
      · have := (hB.block_join g (hg ▸ List.mem_cons_self)).above
        have : base + 0 = g.start := htouch
        omega
    · have := (hB.block_right hR).above
      dsimp only at this
      omega

theorem freed_left (hf : f ∈ A) : ∀ a, f.start ≤ a → a < f.start + 8 → freed h d e a = h.mem a := by
  intro a _ ha
  have := hB.before hf
  have := hB.prev
  exact freed_of_ne (by omega) (by omega)

theorem freed_live (hx : f ∈ L) : ∀ a, f.start ≤ a → a < f.stop → freed h d e a = h.mem a := by
  intro a ha ha'
  have hapart := (List.pairwise_cons.1 hB.layout.apart).1 f hx
  have hsep := hB.layout.sep_live (List.mem_cons_of_mem _ hx) mid_mem
  have hstop := hB.stop_lt
  unfold Apart at hapart
  exact freed_of_ne (by omega) (by omega)

theorem freed_path : Path (ptr (freed h d e)) d.start ((join d (join e R)).map start) base ∧
    ∀ f ∈ join d (join e R), f.len = 8 * size (freed h d e) f.start := by
  have hprev := hB.prev
  have hstop := hB.stop_lt
  obtain ⟨hpath, hsize⟩ : Path (ptr (attach e.start (ptr h.mem d.start) h.mem)) e.start ((join e R).map start) base ∧
      ∀ f ∈ join e R, f.len = 8 * size (attach e.start (ptr h.mem d.start) h.mem) f.start := by
    refine attach_path (hB.layout.next_eq rfl) (fun f hf => ?_) (fun f hf => ?_) (fun f hf => (hB.next hf).1) (fun hnil => ?_) (ptr_lt _ _)
    · rcases List.mem_cons.1 hf with rfl | hf
      · exact hB.layout.sized f (List.mem_append_right _ List.mem_cons_self)
      · exact hB.sized (right_mem hf)
    · rcases List.mem_cons.1 hf with rfl | hf
      · exact hstop.2
      · exact hB.layout.stop_lt (right_mem hf)
    · subst hnil
      have hbase : ptr h.mem d.start = base := hB.layout.next_eq rfl
      have := hB.block.above
      omega
  refine attach_path hpath (fun f hf => ?_) (fun f hf => ?_) (fun f hf => ?_) (fun hnil => ?_) (by omega)
  · rcases List.mem_cons.1 hf with rfl | hf
    · rw [size_congr fun a _ ha => attach_of_ne (by omega) _ _]
      exact hB.sized mid_mem
    · exact hsize f hf
  · rcases List.mem_cons.1 hf with rfl | hf
    · exact hB.layout.stop_lt mid_mem
    · exact hB.layout.block_lt (hB.block_join f hf)
  · exact Nat.le_trans hprev.1 (hB.start_le hf)
  · obtain ⟨f, R', hcons, -⟩ := join_eq_cons e R
    rw [hcons] at hnil
    cases hnil

theorem layout_freed : Layout base { h with mem := freed h d e, freep := d.start } (A ++ join d (join e R)) L where
  path := by
    dsimp only
    rw [List.map_append]
    have hpath := hB.layout.path
    rw [List.map_append, List.map_cons] at hpath
    refine (hpath.split.1.congr fun x hx => ?_).append hB.freed_path.1
    obtain ⟨f, hf, rfl⟩ := List.mem_map.1 hx
    exact ptr_congr (hB.freed_left hf)
  base_mem := hB.base_mem
  freep := by
    obtain ⟨f, R', hcons, hf, -⟩ := join_eq_cons d (join e R)
    rw [List.map_append, hcons, List.map_cons, hf]
    exact List.mem_append_right _ List.mem_cons_self
  gapped := hB.layout.gapped.insert hB.prev.2 fun f hf => (hB.next hf).2
  free_block := hB.free_block
  live_block := fun x hx => hB.layout.live_block x (List.mem_cons_of_mem _ hx)
  sized := fun f hf => by
    rcases List.mem_append.1 hf with hf | hf
    · rcases List.mem_append.1 hf with hf | hf
      · dsimp only
        rw [size_congr (hB.freed_left hf)]
        exact hB.sized (List.mem_append_left _ hf)
      · dsimp only
        exact hB.freed_path.2 f hf
    · have hmem : f ∈ e :: L := List.mem_cons_of_mem _ hf
      have h8 := hB.layout.eight_le (List.mem_append_right _ hmem) (hB.layout.live_block f hmem)
      dsimp only
      rw [size_congr fun a ha ha' => hB.freed_live hf a ha (by unfold stop; omega)]
      exact hB.layout.sized f (List.mem_append_right _ hmem)
  apart := (List.pairwise_cons.1 hB.layout.apart).2
  cross := fun x hx f hf => by
    have hcross := hB.layout.cross x (List.mem_cons_of_mem _ hx)
    rcases List.mem_append.1 hf with hf | hf
    · exact hcross f (List.mem_append_left _ hf)
    · have hpos := (hB.layout.live_block x (List.mem_cons_of_mem _ hx)).pos
      refine apart_join hpos (hcross d mid_mem) (apart_join hpos ?_ fun g hg => hcross g (right_mem hg)) f hf
      exact ((List.pairwise_cons.1 hB.layout.apart).1 x hx).symm
  total := by
    have htotal := hB.layout.total
    simp only [List.map_append, List.map_cons, List.sum_append, List.sum_cons, sum_join] at htotal ⊢
    omega
  got := hB.layout.got
  base_pos := hB.layout.base_pos
  base_lt := hB.layout.base_lt

omit hB in
theorem exists_le : ∃ f ∈ A ++ join d (join e R), e.len ≤ f.len := by
  obtain ⟨f, R', hcons, -, hle⟩ := join_eq_cons e R
  obtain ⟨g, hg, hle'⟩ := exists_le_join d (hcons ▸ List.mem_cons_self : f ∈ join e R)
  exact ⟨g, List.mem_append_right _ hg, Nat.le_trans hle hle'⟩

end Between

theorem Layout.free_ok (hL : Layout base h l (e :: L)) : ∃ l' h' N, (∀ fuel ≥ N, free fuel (e.start + 8) h = some h') ∧ Layout base h' l' L ∧
    h'.got = h.got ∧ (∃ f ∈ l', e.len ≤ f.len) ∧ ∀ x ∈ L, ∀ a, x.start ≤ a → a < x.stop → h'.mem a = h.mem a := by
  obtain ⟨A, d, R, rfl, hlt, hR, N, hloop⟩ := hL.freeLoop_ok
  have hB : Between base h L e A d R := ⟨hL, hlt, hR⟩
  have hfree : ∀ fuel ≥ N, free fuel (e.start + 8) h = some { h with mem := freed h d e, freep := d.start } := by
    intro fuel hfuel
    have := hB.stop_lt
    rw [free_eq (by omega) (.inl hB.prev.1) (hloop fuel hfuel), freed]
  refine ⟨_, _, N, hfree, hB.layout_freed, rfl, Between.exists_le, fun x hx => ?_⟩
  dsimp only
  exact hB.freed_live hx

end Ostep.Xv6.Ulib
