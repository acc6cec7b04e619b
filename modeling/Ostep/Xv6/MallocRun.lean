import Mathlib.Data.List.Pairwise
import Ostep.Xv6.MallocSpec

/-!
# Programs that use the allocator

`malloc` takes a block off the free list or cuts it from the end of one (`Layout.take_ok`), after it has gone round the list at most
twice (`Layout.malloc_ok`). In every state that calls of `malloc` and `free` lead to, with writes of the program to its own blocks
between them, the heap is laid out well, and every call returns.
-/

namespace Ostep.Xv6.Ulib

open Extent

variable {base n : Nat} {m m' : Nat → UInt8} {h h' : Heap} {l l' L A B : List Extent} {d e f q : Extent}

namespace Layout

/-! ### Taking a block -/

section
variable (hL : Layout base h (A ++ d :: q :: B) L)
include hL

theorem gap_left (hf : f ∈ A ++ [d]) : f.stop < q.start := by
  have hg := hL.gapped
  rw [List.append_cons] at hg
  exact (List.pairwise_append.1 hg).2.2 f hf q List.mem_cons_self

theorem gap_right (hf : f ∈ B) : q.stop < f.start := by
  have hg := hL.gapped
  rw [List.append_cons] at hg
  exact (List.pairwise_cons.1 (List.pairwise_append.1 hg).2.1).1 f hf

theorem header_left (hf : f ∈ A ++ [d]) : f.start + 8 ≤ q.start := by
  obtain ⟨A₁, A₂, heq⟩ := List.append_of_mem hf
  refine hL.sep_free (A := A₁) (R := A₂ ++ q :: B) ?_ (List.mem_append_right _ List.mem_cons_self)
  rw [List.append_cons, heq, List.append_assoc, List.cons_append]

end

theorem take_all (hL : Layout base h (A ++ d :: q :: B) L) (hq : Block base h.got q) :
    Layout base { h with mem := setPtr d.start (ptr h.mem q.start) h.mem, freep := d.start } (A ++ d :: B) (q :: L) := by
  have hd : d ∈ A ++ d :: q :: B := List.mem_append_right _ List.mem_cons_self
  have hsub : ∀ f ∈ A ++ d :: B, f ∈ A ++ d :: q :: B := by
    intro f hf
    simp only [List.mem_append, List.mem_cons] at hf ⊢
    tauto
  have hsize : ∀ f ∈ (A ++ d :: q :: B) ++ L, size (setPtr d.start (ptr h.mem q.start) h.mem) f.start = size h.mem f.start := by
    intro f hf
    rcases hL.sep hd hf with rfl | hsep
    · exact size_setPtr_self ..
    · exact size_congr fun a _ _ => setPtr_of_ne (by omega) _ _
  have hptr : ∀ f ∈ A ++ B, ptr (setPtr d.start (ptr h.mem q.start) h.mem) f.start = ptr h.mem f.start := by
    intro f hf
    have hsep : f.start + 8 ≤ d.start ∨ d.start + 8 ≤ f.start := by
      rcases List.mem_append.1 hf with hf | hf
      · obtain ⟨A₁, A₂, rfl⟩ := List.append_of_mem hf
        exact .inl (hL.sep_free (List.append_assoc _ _ _) (List.mem_append_right _ List.mem_cons_self))
      · exact .inr (hL.sep_free rfl (List.mem_cons_of_mem _ hf))
    exact ptr_congr fun a _ _ => setPtr_of_ne (by omega) _ _
  exact {
    path := by
      have hpath := hL.path
      rw [List.map_append, List.map_cons, List.map_cons] at hpath
      obtain ⟨hA, hdq, hB⟩ := hpath.split
      rw [List.map_append, List.map_cons]
      refine Path.append (hA.congr fun x hx => ?_) ⟨rfl, ?_⟩
      · obtain ⟨f, hf, rfl⟩ := List.mem_map.1 hx
        exact hptr f (List.mem_append_left _ hf)
      · dsimp only
        rw [ptr_setPtr_self _ _ (ptr_lt _ _)]
        refine hB.congr fun x hx => ?_
        obtain ⟨f, hf, rfl⟩ := List.mem_map.1 hx
        exact hptr f (List.mem_append_right _ hf)
    base_mem := by
      have hne := hq.ne_base
      have hmem := hL.base_mem
      simp only [List.mem_append, List.mem_cons] at hmem ⊢
      tauto
    freep := List.mem_map_of_mem (List.mem_append_right _ List.mem_cons_self)
    gapped := hL.gapped.sublist ((List.Sublist.refl A).append ((List.sublist_cons_self q B).cons_cons d))
    free_block := fun f hf => hL.free_block f (hsub f hf)
    live_block := fun f hf => by
      rcases List.mem_cons.1 hf with rfl | hf
      · exact hq
      · exact hL.live_block f hf
    sized := fun f hf => by
      have hmem : f ∈ (A ++ d :: q :: B) ++ L := by
        simp only [List.mem_append, List.mem_cons] at hf ⊢
        tauto
      dsimp only
      rw [hsize f hmem]
      exact hL.sized f hmem
    apart := List.pairwise_cons.2 ⟨fun x hx => (hL.cross x hx q (by simp)).symm, hL.apart⟩
    cross := fun x hx f hf => by
      rcases List.mem_cons.1 hx with rfl | hx
      · rw [List.append_cons] at hf
        rcases List.mem_append.1 hf with hf | hf
        · exact .inr (Nat.le_of_lt (hL.gap_left hf))
        · exact .inl (Nat.le_of_lt (hL.gap_right hf))
      · exact hL.cross x hx f (hsub f hf)
    total := by
      have htotal := hL.total
      simp only [List.map_append, List.map_cons, List.sum_append, List.sum_cons] at htotal ⊢
      omega
    got := hL.got
    base_pos := hL.base_pos
    base_lt := hL.base_lt }

theorem take_end (hL : Layout base h (A ++ d :: q :: B) L) (hq : Block base h.got q) {c : Nat} (hn : 0 < n) (hc : 0 < c) (hlen : q.len = 8 * c + 8 * n) :
    Layout base { h with mem := setSize (q.start + 8 * c) n (setSize q.start c h.mem), freep := d.start }
      (A ++ d :: ⟨q.start, 8 * c⟩ :: B) (⟨q.start + 8 * c, 8 * n⟩ :: L) := by
  have hqmem : q ∈ A ++ d :: q :: B := by simp
  have hstop := hL.block_lt hq
  have hqstop : q.stop = q.start + 8 * c + 8 * n := by
    unfold stop
    omega
  have hout : ∀ a, a < q.start ∨ q.stop ≤ a → setSize (q.start + 8 * c) n (setSize q.start c h.mem) a = h.mem a := fun a ha =>
    (setSize_of_ne (by omega) _ _).trans (setSize_of_ne (by omega) _ _)
  -- the other blocks keep their headers
  have hother : ∀ f ∈ (A ++ [d]) ++ (B ++ L), ∀ a, f.start ≤ a → a < f.start + 8 →
      setSize (q.start + 8 * c) n (setSize q.start c h.mem) a = h.mem a := by
    intro f hf a ha ha'
    refine hout a ?_
    rcases List.mem_append.1 hf with hf | hf
    · have := hL.header_left hf
      omega
    · rcases List.mem_append.1 hf with hf | hf
      · have := hL.gap_right hf
        omega
      · have := hL.sep_live hf hqmem
        omega
  have hptrq : ptr (setSize (q.start + 8 * c) n (setSize q.start c h.mem)) q.start = ptr h.mem q.start :=
    (ptr_congr fun a _ _ => setSize_of_ne (by omega) _ _).trans (ptr_setSize_self ..)
  have hsizeq : size (setSize (q.start + 8 * c) n (setSize q.start c h.mem)) q.start = c :=
    (size_congr fun a _ _ => setSize_of_ne (by omega) _ _).trans (size_setSize_self _ _ (by omega))
  exact {
    path := by
      have hmap : (A ++ d :: ⟨q.start, 8 * c⟩ :: B).map start = (A ++ d :: q :: B).map start := by
        simp only [List.map_append, List.map_cons]
      rw [hmap]
      dsimp only
      refine hL.path.congr fun x hx => ?_
      obtain ⟨f, hf, rfl⟩ := List.mem_map.1 hx
      rcases eq_or_ne f q with rfl | hne
      · exact hptrq
      · refine ptr_congr (hother f ?_)
        grind
    base_mem := by
      have hne := hq.ne_base
      have hmem := hL.base_mem
      grind
    freep := List.mem_map_of_mem (List.mem_append_right _ List.mem_cons_self)
    gapped := by
      have hg := hL.gapped
      unfold Gapped at hg ⊢
      rw [List.append_cons, List.pairwise_append, List.pairwise_cons] at hg ⊢
      obtain ⟨hA, ⟨hqB, hB⟩, hAB⟩ := hg
      refine ⟨hA, ⟨fun f hf => ?_, hB⟩, fun f hf g hg => ?_⟩
      · have := hqB f hf
        show q.start + 8 * c < f.start
        omega
      · rcases List.mem_cons.1 hg with rfl | hg
        · exact hAB f hf q List.mem_cons_self
        · exact hAB f hf g (List.mem_cons_of_mem _ hg)
    free_block := fun f hf => by
      by_cases hfq : f = ⟨q.start, 8 * c⟩
      · obtain ⟨r, hr, hle⟩ := hq.inside
        rw [hfq]
        refine .inr ⟨Nat.mul_pos (by decide) hc, hq.above, r, hr, ?_⟩
        show q.start + 8 * c ≤ _
        omega
      · refine hL.free_block f ?_
        grind
    live_block := fun f hf => by
      rcases List.mem_cons.1 hf with rfl | hf
      · obtain ⟨r, hr, hle⟩ := hq.inside
        refine ⟨Nat.mul_pos (by decide) hn, Nat.le_trans hq.above (Nat.le_add_right _ _), r, hr, ?_⟩
        show q.start + 8 * c + 8 * n ≤ _
        omega
      · exact hL.live_block f hf
    sized := fun f hf => by
      dsimp only
      by_cases hfq : f = ⟨q.start, 8 * c⟩
      · rw [hfq, hsizeq]
      · by_cases hfe : f = ⟨q.start + 8 * c, 8 * n⟩
        · rw [hfe, size_setSize_self _ _ (by omega)]
        · have hmem : f ∈ (A ++ [d]) ++ (B ++ L) := by
            grind
          rw [size_congr (hother f hmem)]
          refine hL.sized f ?_
          grind
    apart := by
      refine List.pairwise_cons.2 ⟨fun x hx => ?_, hL.apart⟩
      refine ((hL.cross x hx q hqmem).mono (Nat.le_add_right _ _) ?_).symm
      show q.start + 8 * c + 8 * n ≤ _
      omega
    cross := fun x hx f hf => by
      rw [List.append_cons] at hf
      rcases List.mem_cons.1 hx with rfl | hx
      · rcases List.mem_append.1 hf with hf | hf
        · have := hL.gap_left hf
          exact .inr (show f.stop ≤ q.start + 8 * c by omega)
        · rcases List.mem_cons.1 hf with rfl | hf
          · exact .inr (Nat.le_refl _)
          · have := hL.gap_right hf
            exact .inl (show q.start + 8 * c + 8 * n ≤ f.start by omega)
      · rcases List.mem_append.1 hf with hf | hf
        · refine hL.cross x hx f ?_
          rw [List.append_cons]
          exact List.mem_append_left _ hf
        · rcases List.mem_cons.1 hf with rfl | hf
          · refine (hL.cross x hx q hqmem).mono (Nat.le_refl _) ?_
            show q.start + 8 * c ≤ _
            omega
          · exact hL.cross x hx f (by simp [hf])
    total := by
      have htotal := hL.total
      simp only [List.map_append, List.map_cons, List.sum_append, List.sum_cons] at htotal ⊢
      omega
    got := hL.got
    base_pos := hL.base_pos
    base_lt := hL.base_lt }

theorem take_ok (hL : Layout base h (A ++ d :: q :: B) L) (hn : 0 < n) (hle : 8 * n ≤ q.len) : ∃ l' h' e, take n d.start q.start h = (h', e.start + 8) ∧
    e.len = 8 * n ∧ Layout base h' l' (e :: L) ∧ h'.got = h.got ∧ ∀ x ∈ L, ∀ a, x.start ≤ a → a < x.stop → h'.mem a = h.mem a := by
  have hqmem : q ∈ A ++ d :: q :: B := by simp
  have hdmem : d ∈ A ++ d :: q :: B := by simp
  have hq : Block base h.got q := by
    rcases hL.free_block q hqmem with rfl | hq
    · have : 8 * n ≤ 0 := hle
      omega
    · exact hq
  have hsize := hL.sized q (List.mem_append_left _ hqmem)
  have hlt := hL.block_lt hq
  have hstop : q.stop = q.start + q.len := rfl
  unfold take
  by_cases hall : size h.mem q.start = n
  · refine ⟨_, _, q, ?_, by omega, hL.take_all hq, rfl, fun x hx a ha ha' => setPtr_of_ne ?_ _ _⟩
    · simp only [if_pos hall, add]
      rw [Nat.mod_eq_of_lt (by omega)]
    · have := hL.sep_live hx hdmem
      omega
  · obtain ⟨c, hc⟩ : ∃ c, size h.mem q.start = c + n := Nat.exists_eq_add_of_le' (by omega)
    have hend := hL.take_end hq (n := n) (c := c) hn (by omega) (by omega)
    refine ⟨_, _, ⟨q.start + 8 * c, 8 * n⟩, ?_, rfl, hend, rfl, fun x hx a ha ha' => ?_⟩
    · have hadd : add q.start c = q.start + 8 * c := by
        unfold add
        omega
      have hadd' : add (q.start + 8 * c) 1 = q.start + 8 * c + 8 := by
        unfold add
        omega
      simp only [if_neg hall]
      rw [hc, Nat.add_sub_cancel, size_setSize_self _ _ (by omega), hadd, hadd']
    · have := hL.sep_live hx hqmem
      exact (setSize_of_ne (by omega) _ _).trans (setSize_of_ne (by omega) _ _)

/-! ### `malloc` -/

/-- A function that goes through the free list as the loop of `malloc` does gets from `freep` to `z` in `k` turns. -/
def Walks (h : Heap) (n k z : Nat) : Prop :=
  ∀ {α : Type} (F : Nat → Nat → α),
    (∀ fuel y, ¬ (size h.mem (ptr h.mem y) ≥ n ∨ ptr h.mem y = h.freep) → F (fuel + 1) y = F fuel (ptr h.mem y)) →
    ∀ fuel, F (fuel + k) h.freep = F fuel z

theorem round (hL : Layout base h l L) (hn : 0 < n) :
    (∃ (k : Nat) (A : List Extent) (d q : Extent) (B : List Extent), l = A ++ d :: q :: B ∧ 8 * n ≤ q.len ∧
      ptr h.mem d.start = q.start ∧ size h.mem q.start ≥ n ∧ Walks h n k d.start) ∨
    (∀ f ∈ l, f.len < 8 * n) ∧ ∃ k z, ptr h.mem z = h.freep ∧ ¬ size h.mem h.freep ≥ n ∧ Walks h n k z := by
  obtain ⟨C, hcycle, hperm⟩ := hL.cycle
  have hnd : (h.freep :: C).Nodup := hperm.nodup_iff.2 hL.nodup
  have hlen : ∀ f ∈ l, (size h.mem f.start ≥ n ↔ 8 * n ≤ f.len) := by
    intro f hf
    have := hL.sized f (List.mem_append_left _ hf)
    omega
  -- the loop goes on as long as the next block is too small and not `freep`
  have hwalk : ∀ {l₁ z l₂}, h.freep :: C = l₁ ++ z :: l₂ → (∀ y ∈ l₁, ¬ size h.mem (ptr h.mem y) ≥ n) → Walks h n l₁.length z := by
    intro l₁ z l₂ hl hsmall α F hstep fuel
    have hpath := hcycle
    rw [hl] at hpath
    refine hpath.split.1.walk hstep (fun y hy hstop => ?_) fuel
    rcases hstop with hlarge | hback
    · exact hsmall y hy hlarge
    · exact hcycle.next_ne hnd hl hy hback
  rcases hcycle.cycle_cases (fun y => size h.mem y ≥ n) with hnone | ⟨l₁, z, l₂, hl, hz, hfirst⟩
  · obtain ⟨l₁, z, hl, hz⟩ := hcycle.exists_last
    refine .inr ⟨fun f hf => ?_, l₁.length, z, hz, hnone _ List.mem_cons_self, hwalk hl fun y hy => ?_⟩
    · have := hnone f.start (hperm.mem_iff.2 (List.mem_map_of_mem hf))
      have := hlen f hf
      omega
    · exact hnone _ (hcycle.next_mem_cycle (hl ▸ List.mem_append_left _ hy) List.mem_cons_self)
  · have hzC : z ∈ h.freep :: C := by
      rw [hl]
      exact List.mem_append_right _ List.mem_cons_self
    obtain ⟨d, hd, rfl⟩ := List.mem_map.1 (hperm.mem_iff.1 hzC)
    obtain ⟨A, R, rfl⟩ := List.append_of_mem hd
    have hnext := hL.next_eq rfl
    cases R with
    | nil =>
      -- `base` is too small
      have hbase : ptr h.mem d.start = base := hnext
      have hzero := hL.sized _ (List.mem_append_left _ hL.base_mem)
      dsimp only at hzero
      rw [hbase] at hz
      omega
    | cons q B =>
      have hq : ptr h.mem d.start = q.start := hnext.1
      rw [hq] at hz
      exact .inl ⟨l₁.length, A, d, q, B, rfl, (hlen q (by simp)).1 hz, hq, hz, hwalk hl hfirst⟩

/-- The loop of `malloc` comes to a block that is large enough, or back to `freep` when there is none. -/
theorem mallocLoop_round (hL : Layout base h l L) (hn : 0 < n) (sbrk : List (Option Nat)) :
    (∃ (k : Nat) (A : List Extent) (d q : Extent) (B : List Extent), l = A ++ d :: q :: B ∧ 8 * n ≤ q.len ∧ ∀ fuel, mallocLoop n (fuel + 1 + k) h.freep (ptr h.mem h.freep) sbrk h = some (take n d.start q.start h)) ∨
    (∀ f ∈ l, f.len < 8 * n) ∧ ∃ k, ∀ fuel, mallocLoop n (fuel + 1 + k) h.freep (ptr h.mem h.freep) sbrk h =
      (do let (h, p, sbrk) ← morecore fuel n sbrk h
          if p = 0 then return (h, 0) else mallocLoop n fuel p (ptr h.mem p) sbrk h) := by
  have hstep : ∀ fuel y, ¬ (size h.mem (ptr h.mem y) ≥ n ∨ ptr h.mem y = h.freep) →
      mallocLoop n (fuel + 1) y (ptr h.mem y) sbrk h = mallocLoop n fuel (ptr h.mem y) (ptr h.mem (ptr h.mem y)) sbrk h := by
    intro fuel y hy
    obtain ⟨h₁, h₂⟩ := not_or.1 hy
    rw [mallocLoop, if_neg h₁, if_neg h₂]
  rcases hL.round hn with ⟨k, A, d, q, B, hl, hlen, hq, hlarge, hwalk⟩ | ⟨hsmall, k, z, hz, hlast, hwalk⟩
  · refine .inl ⟨k, A, d, q, B, hl, hlen, fun fuel => ?_⟩
    rw [hwalk (fun fuel y => mallocLoop n fuel y (ptr h.mem y) sbrk h) hstep, mallocLoop, hq, if_pos hlarge]
  · refine .inr ⟨hsmall, k, fun fuel => ?_⟩
    rw [hwalk (fun fuel y => mallocLoop n fuel y (ptr h.mem y) sbrk h) hstep, mallocLoop, hz, if_neg hlast, if_pos rfl]

theorem more (hL : Layout base h l L) {p k : Nat} (hk : 0 < k) (hfresh : ∀ r ∈ h.got, r.1 + 8 * r.2 ≤ p) (hbase : base + 8 ≤ p) (hend : p + 8 * k < 2 ^ 32) :
    Layout base { h with mem := setSize p k h.mem, got := (p, k) :: h.got } l (⟨p, 8 * k⟩ :: L) := by
  have hblock : ∀ {e}, Block base h.got e → Block base ((p, k) :: h.got) e := by
    rintro e ⟨hpos, habove, r, hr, hle⟩
    exact ⟨hpos, habove, r, List.mem_cons_of_mem _ hr, hle⟩
  -- everything that there is lies below
  have hbelow : ∀ {e}, Block base h.got e → e.stop ≤ p := by
    rintro e ⟨-, -, r, hr, hle⟩
    exact Nat.le_trans hle (hfresh r hr)
  have hheader : ∀ e ∈ l ++ L, e.start + 8 ≤ p := by
    intro e he
    have hcases : e = ⟨base, 0⟩ ∨ Block base h.got e := by
      rcases List.mem_append.1 he with he | he
      · exact hL.free_block e he
      · exact .inr (hL.live_block e he)
    rcases hcases with rfl | hb
    · exact hbase
    · exact Nat.le_trans (Nat.add_le_add_left (hL.eight_le he hb) _) (hbelow hb)
  have hkeep : ∀ e ∈ l ++ L, ∀ a, e.start ≤ a → a < e.start + 8 → setSize p k h.mem a = h.mem a := fun e he a _ ha => by
    have := hheader e he
    exact setSize_of_ne (by omega) _ _
  exact {
    path := hL.path.congr fun x hx => by
      obtain ⟨f, hf, rfl⟩ := List.mem_map.1 hx
      exact ptr_congr (hkeep f (List.mem_append_left _ hf))
    base_mem := hL.base_mem
    freep := hL.freep
    gapped := hL.gapped
    free_block := fun e he => (hL.free_block e he).imp_right hblock
    live_block := fun e he => by
      rcases List.mem_cons.1 he with rfl | he
      · exact ⟨Nat.mul_pos (by decide) hk, hbase, (p, k), List.mem_cons_self, Nat.le_refl _⟩
      · exact hblock (hL.live_block e he)
    sized := fun e he => by
      dsimp only
      by_cases hnew : e = ⟨p, 8 * k⟩
      · rw [hnew, size_setSize_self _ _ (by omega)]
      · have hmem : e ∈ l ++ L := by
          simp only [List.mem_append, List.mem_cons] at he ⊢
          tauto
        rw [size_congr (hkeep e hmem)]
        exact hL.sized e hmem
    apart := List.pairwise_cons.2 ⟨fun x hx => .inr (hbelow (hL.live_block x hx)), hL.apart⟩
    cross := fun x hx f hf => by
      rcases List.mem_cons.1 hx with rfl | hx
      · rcases hL.free_block f hf with rfl | hb
        · exact .inr (Nat.le_trans (Nat.le_add_right _ _) hbase)
        · exact .inr (hbelow hb)
      · exact hL.cross x hx f hf
    total := by
      have htotal := hL.total
      simp only [List.map_cons, List.sum_cons]
      omega
    got := fun r hr => by
      rcases List.mem_cons.1 hr with rfl | hr
      · exact hend
      · exact hL.got r hr
    base_pos := hL.base_pos
    base_lt := hL.base_lt }

/-- The answer of the system is -1 or a new region behind all earlier ones and `base`. -/
def Fresh (base : Nat) (got : List (Nat × Nat)) (k : Nat) : List (Option Nat) → Prop
  | some p :: _ => base + 8 ≤ p ∧ (∀ r ∈ got, r.1 + 8 * r.2 ≤ p) ∧ p + 8 * k < 2 ^ 32
  | _ => True

theorem freep_ne_zero (hL : Layout base h l L) : h.freep ≠ 0 := by
  obtain ⟨f, hf, heq⟩ := List.mem_map.1 hL.freep
  have := hL.base_le hf
  have := hL.base_pos
  omega

theorem loop_ok (hL : Layout base h l L) (hn : 0 < n) {sbrk : List (Option Nat)} (hs : Fresh base h.got (coreUnits n) sbrk) :
    ∃ h' r N, (∀ fuel ≥ N, mallocLoop n fuel h.freep (ptr h.mem h.freep) sbrk h = some (h', r)) ∧
      (∀ x ∈ L, ∀ a, x.start ≤ a → a < x.stop → h'.mem a = h.mem a) ∧
      ((r = 0 ∧ h' = h ∧ ∀ p, sbrk.head? ≠ some (some p)) ∨ ∃ e l', r = e.start + 8 ∧ e.len = 8 * n ∧ Layout base h' l' (e :: L)) := by
  rcases hL.mallocLoop_round hn sbrk with ⟨k, A, d, q, B, rfl, hq, hloop⟩ | ⟨hsmall, k, hloop⟩
  · obtain ⟨l', h', e, htake, he, hL', -, hkeep⟩ := hL.take_ok hn hq
    refine ⟨h', e.start + 8, k + 1, fun fuel hfuel => ?_, hkeep, .inr ⟨e, l', rfl, he, hL'⟩⟩
    obtain ⟨c, rfl⟩ := Nat.exists_eq_add_of_le' hfuel
    rw [show c + (k + 1) = c + 1 + k by omega, hloop, htake]
  · have hfail : (∀ fuel, morecore fuel n sbrk h = some (h, 0, sbrk.tail)) → ∀ fuel ≥ k + 1,
        mallocLoop n fuel h.freep (ptr h.mem h.freep) sbrk h = some (h, 0) := by
      intro hmore fuel hfuel
      obtain ⟨c, rfl⟩ := Nat.exists_eq_add_of_le' hfuel
      rw [show c + (k + 1) = c + 1 + k by omega, hloop, hmore]
      rfl
    match sbrk, hs with
    | [], _ => exact ⟨h, 0, k + 1, hfail fun _ => rfl, fun _ _ _ _ _ => rfl, .inl ⟨rfl, rfl, nofun⟩⟩
    | none :: sbrk, _ => exact ⟨h, 0, k + 1, hfail fun _ => rfl, fun _ _ _ _ _ => rfl, .inl ⟨rfl, rfl, nofun⟩⟩
    | some p :: sbrk, ⟨hbase, hfresh, hend⟩ =>
      have hk : 0 < coreUnits n := by
        unfold coreUnits
        split <;> omega
      have hcore : n ≤ coreUnits n := by
        unfold coreUnits
        split <;> omega
      -- the second round finds the new block, or the one that it was joined to
      obtain ⟨l₁, h₁, N₁, hfree, hL₁, -, ⟨f, hf, hlen⟩, hkeep₁⟩ := (hL.more hk hfresh hbase hend).free_ok
      rcases hL₁.mallocLoop_round hn sbrk with ⟨k₂, A, d, q, B, rfl, hq, hloop₂⟩ | ⟨hsmall₂, -⟩
      · obtain ⟨l', h', e, htake, he, hL', -, hkeep₂⟩ := hL₁.take_ok hn hq
        refine ⟨h', e.start + 8, N₁ + k₂ + 1 + k + 1, fun fuel hfuel => ?_, fun x hx a ha ha' => ?_, .inr ⟨e, l', rfl, he, hL'⟩⟩
        · obtain ⟨c, rfl⟩ := Nat.exists_eq_add_of_le' hfuel
          have hadd : add p 1 = p + 8 := by
            unfold add
            omega
          have hmore : morecore (c + N₁ + 1 + k₂) n (some p :: sbrk) h = some (h₁, h₁.freep, sbrk) := by
            unfold morecore
            simp only [hadd, hfree (c + N₁ + 1 + k₂) (by omega)]
            rfl
          rw [show c + (N₁ + k₂ + 1 + k + 1) = c + N₁ + 1 + k₂ + 1 + k by omega, hloop, hmore]
          show (if h₁.freep = 0 then _ else _) = _
          rw [if_neg hL₁.freep_ne_zero, hloop₂, htake]
        · obtain ⟨r, hr, hle⟩ := (hL.live_block x hx).inside
          have := hfresh r hr
          rw [hkeep₂ x hx a ha ha', hkeep₁ x hx a ha ha']
          exact setSize_of_ne (by omega) _ _
      · have := hsmall₂ f hf
        dsimp only at hlen
        omega

theorem perm {L' : List Extent} (hL : Layout base h l L) (hp : L.Perm L') : Layout base h l L' where
  path := hL.path
  base_mem := hL.base_mem
  freep := hL.freep
  gapped := hL.gapped
  free_block := hL.free_block
  live_block := fun e he => hL.live_block e (hp.mem_iff.2 he)
  sized := fun e he => hL.sized e ((hp.append_left l).mem_iff.2 he)
  apart := (hp.pairwise_iff Apart.symm).1 hL.apart
  cross := fun x hx => hL.cross x (hp.mem_iff.2 hx)
  total := by rw [← (hp.map len).sum_eq, hL.total]
  got := hL.got
  base_pos := hL.base_pos
  base_lt := hL.base_lt

theorem write (hL : Layout base h l L) (he : e ∈ L) {a : Nat} (ha : e.start + 8 ≤ a) (ha' : a < e.stop) (v : UInt8) :
    Layout base { h with mem := Function.update h.mem a v } l L := by
  have hkeep : ∀ f ∈ l ++ L, ∀ c, f.start ≤ c → c < f.start + 8 → Function.update h.mem a v c = h.mem c := by
    intro f hf c hc hc'
    refine Function.update_of_ne ?_ _ _
    rintro rfl
    rcases List.mem_append.1 hf with hf | hf
    · have := hL.sep_live he hf
      omega
    · rcases eq_or_ne f e with rfl | hne
      · omega
      · have hapart := hL.apart.forall hf he hne
        have h8 := hL.eight_le (List.mem_append_right _ hf) (hL.live_block f hf)
        unfold Apart stop at *
        omega
  exact { hL with
    path := hL.path.congr fun x hx => by
      obtain ⟨f, hf, rfl⟩ := List.mem_map.1 hx
      exact ptr_congr (hkeep f (List.mem_append_left _ hf))
    sized := fun f hf => by
      dsimp only
      rw [size_congr (hkeep f hf)]
      exact hL.sized f hf }

theorem init_ok {mem : Nat → UInt8} (h0 : 0 < base) (hlt : base + 8 < 2 ^ 32) : Layout base (init base ⟨mem, 0, []⟩) [⟨base, 0⟩] [] where
  path := by
    refine ⟨rfl, ?_⟩
    show ptr (setSize base 0 (setPtr base base mem)) base = base
    rw [ptr_setSize_self, ptr_setPtr_self _ _ (by omega)]
  base_mem := List.mem_singleton_self _
  freep := List.mem_singleton_self _
  gapped := List.pairwise_singleton _ _
  free_block := fun e he => .inl (List.mem_singleton.1 he)
  live_block := nofun
  sized := fun e he => by
    rw [List.append_nil] at he
    obtain rfl := List.mem_singleton.1 he
    show 0 = 8 * size (setSize base 0 (setPtr base base mem)) base
    rw [size_setSize_self _ _ (by decide)]
  apart := List.Pairwise.nil
  cross := nofun
  total := rfl
  got := nofun
  base_pos := h0
  base_lt := hlt

end Layout

/-! ### Sequences of calls -/

def block (m : Nat → UInt8) (ap : Nat) : Extent := ⟨ap - 8, 8 * size m (ap - 8)⟩

/-- The heap of a program: before the first call there is no free list. Later the blocks of the live pointers are laid out well, and
each has room for the bytes that were asked for, behind its header. -/
def Inv (base : Nat) (s : State) : Prop :=
  (s.heap.freep = 0 ∧ s.heap.got = [] ∧ s.live = []) ∨
    (∃ l, Layout base s.heap l (s.live.map fun x => block s.heap.mem x.1)) ∧ ∀ x ∈ s.live, 8 ≤ x.1 ∧ x.2 + 8 ≤ (block s.heap.mem x.1).len

/-- Requests are below 2^31 bytes, `free` gets a live pointer, and the program writes to its blocks only. -/
def Op.Legal (base : Nat) (s : State) : Op → Prop
  | .malloc nbytes sbrk => ((nbytes + 7) / 8 + 1) * 8 < 2 ^ 31 ∧ Layout.Fresh base s.heap.got (coreUnits (units nbytes)) sbrk
  | .free ap => ∃ x ∈ s.live, x.1 = ap
  | .write a _ => ∃ x ∈ s.live, x.1 ≤ a ∧ a < (block s.heap.mem x.1).stop

/-- The program finds in its blocks what it has written. -/
def Kept (s t : State) : Prop :=
  ∀ x ∈ s.live, x ∈ t.live → ∀ a, x.1 ≤ a → a < (block s.heap.mem x.1).stop → t.heap.mem a = s.heap.mem a

/-- What a call does: `malloc` gives a new pointer, unless the system refuses. -/
def Op.Answer (s t : State) : Op → Prop
  | .malloc nbytes sbrk => ((t.live = s.live ∧ ∀ p, sbrk.head? ≠ some (some p)) ∨ ∃ p, t.live = (p, nbytes) :: s.live) ∧ Kept s t
  | .free ap => t.live = s.live.eraseP (fun x => x.1 = ap) ∧ Kept s t
  | .write _ _ => t.live = s.live

theorem Layout.block_eq {ap : Nat} (hL : Layout base h l L) (hmem : block m ap ∈ L) : block m ap = block h.mem ap := by
  have hsize : (block m ap).len = _ := hL.sized _ (List.mem_append_right _ hmem)
  exact congrArg (Extent.mk _) hsize

theorem Inv.of_layout {live : List (Nat × Nat)} (hL : Layout base h l (live.map fun x => block m x.1))
    (hroom : ∀ x ∈ live, 8 ≤ x.1 ∧ x.2 + 8 ≤ (block m x.1).len) : Inv base ⟨h, live⟩ := by
  have hblock : ∀ x ∈ live, block m x.1 = block h.mem x.1 := fun x hx =>
    hL.block_eq (List.mem_map_of_mem (f := fun x : Nat × Nat => block m x.1) hx)
  refine .inr ⟨⟨l, ?_⟩, fun x hx => ?_⟩
  · rw [← List.map_congr_left hblock]
    exact hL
  · rw [← hblock x hx]
    exact hroom x hx

theorem Inv.init_ok {s : State} (hI : Inv base s) (h0 : 0 < base) (hlt : base + 8 < 2 ^ 32) : (init base s.heap).got = s.heap.got ∧
    (∃ l, Layout base (init base s.heap) l (s.live.map fun x => block s.heap.mem x.1)) ∧
    (∀ x ∈ s.live, 8 ≤ x.1 ∧ x.2 + 8 ≤ (block s.heap.mem x.1).len) ∧ ∀ x ∈ s.live, init base s.heap = s.heap := by
  obtain ⟨⟨mem, freep, got⟩, live⟩ := s
  rcases hI with ⟨hfreep, hgot, hlive⟩ | ⟨⟨l, hL⟩, hroom⟩
  · dsimp only at hfreep hgot hlive
    subst hfreep hgot hlive
    exact ⟨rfl, ⟨_, Layout.init_ok h0 hlt⟩, nofun, nofun⟩
  · have hinit : init base ⟨mem, freep, got⟩ = ⟨mem, freep, got⟩ := if_neg hL.freep_ne_zero
    rw [hinit]
    exact ⟨rfl, ⟨l, hL⟩, hroom, fun _ _ => rfl⟩

theorem Inv.malloc_ok {s : State} {nbytes : Nat} {sbrk : List (Option Nat)} (hI : Inv base s) (h0 : 0 < base) (hlt : base + 8 < 2 ^ 32)
    (hop : (Op.malloc nbytes sbrk).Legal base s) :
    ∃ t, (∃ N, ∀ fuel ≥ N, step base fuel s (.malloc nbytes sbrk) = some t) ∧ Inv base t ∧ (Op.malloc nbytes sbrk).Answer s t := by
  obtain ⟨hsmall, hfresh⟩ := hop
  obtain ⟨hgot, ⟨l, hL⟩, hroom, hinit⟩ := hI.init_ok h0 hlt
  have hunits : units nbytes = (nbytes + 7) / 8 + 1 := by
    unfold units
    omega
  rw [← hgot] at hfresh
  obtain ⟨h', r, N, hloop, hkeep, hcases⟩ := hL.loop_ok (Nat.succ_pos _) hfresh
  have hkept : ∀ live, Kept s ⟨h', live⟩ := by
    intro live x hx _ a ha hstop
    refine (hkeep _ (List.mem_map_of_mem (f := fun x : Nat × Nat => block s.heap.mem x.1) hx) a ?_ hstop).trans ?_
    · exact Nat.le_trans (Nat.sub_le _ _) ha
    · rw [hinit x hx]
  have hstep : ∀ fuel ≥ N, step base fuel s (.malloc nbytes sbrk) = some ⟨h', if r = 0 then s.live else (r, nbytes) :: s.live⟩ := by
    intro fuel hfuel
    have hmalloc : malloc base fuel nbytes sbrk s.heap = some (h', r) := hloop fuel hfuel
    unfold step
    simp only [hmalloc]
    rfl
  rcases hcases with ⟨rfl, rfl, hrefused⟩ | ⟨e, l', rfl, he, hL'⟩
  · exact ⟨⟨Ulib.init base s.heap, s.live⟩, ⟨N, hstep⟩, Inv.of_layout hL hroom, .inl ⟨rfl, hrefused⟩, hkept _⟩
  · rw [if_neg (Nat.succ_ne_zero _)] at hstep
    refine ⟨⟨h', _⟩, ⟨N, hstep⟩, ?_, .inr ⟨e.start + 8, rfl⟩, hkept _⟩
    have hnew : e = block h'.mem (e.start + 8) := by
      have hsize := hL'.sized e (List.mem_append_right _ List.mem_cons_self)
      unfold block
      rw [Nat.add_sub_cancel, ← hsize]
    have hold : ∀ x ∈ s.live, block s.heap.mem x.1 = block h'.mem x.1 := fun x hx =>
      hL'.block_eq (List.mem_cons_of_mem _ (List.mem_map_of_mem (f := fun x : Nat × Nat => block s.heap.mem x.1) hx))
    refine .inr ⟨⟨l', ?_⟩, fun x hx => ?_⟩
    · rw [List.map_cons, ← List.map_congr_left hold, ← hnew]
      exact hL'
    · rcases List.mem_cons.1 hx with rfl | hx
      · refine ⟨Nat.le_add_left _ _, ?_⟩
        rw [← hnew]
        dsimp only
        omega
      · rw [← hold x hx]
        exact hroom x hx

theorem Inv.free_ok {s : State} {ap : Nat} (hI : Inv base s) (hop : (Op.free ap).Legal base s) :
    ∃ t, (∃ N, ∀ fuel ≥ N, step base fuel s (.free ap) = some t) ∧ Inv base t ∧ (Op.free ap).Answer s t := by
  obtain ⟨x, hx, rfl⟩ := hop
  rcases hI with ⟨-, -, hnil⟩ | ⟨⟨l, hL⟩, hroom⟩
  · rw [hnil] at hx
    cases hx
  · obtain ⟨y, l₁, l₂, -, hy, hsplit, herase⟩ := List.exists_of_eraseP (p := fun y : Nat × Nat => y.1 = x.1) hx (by simp)
    have hyx : y.1 = x.1 := by simpa using hy
    have hperm : (s.live.map fun x => block s.heap.mem x.1).Perm (block s.heap.mem x.1 :: (l₁ ++ l₂).map fun x => block s.heap.mem x.1) := by
      rw [hsplit, ← hyx]
      exact List.perm_middle.map _
    obtain ⟨l', h', N, hfree, hL', -, -, hkeep⟩ := (hL.perm hperm).free_ok
    have hap : (block s.heap.mem x.1).start + 8 = x.1 := Nat.sub_add_cancel (hroom x hx).1
    rw [hap] at hfree
    refine ⟨⟨h', l₁ ++ l₂⟩, ⟨N, fun fuel hfuel => ?_⟩, Inv.of_layout hL' fun z hz => hroom z ?_, herase.symm,
      fun z _ hz a ha hstop => hkeep _ (List.mem_map_of_mem (f := fun x : Nat × Nat => block s.heap.mem x.1) hz) a (Nat.le_trans (Nat.sub_le _ _) ha) hstop⟩
    · unfold step
      simp only [hfree fuel hfuel]
      exact congrArg (fun live => some (State.mk h' live)) herase
    · rw [hsplit]
      simp only [List.mem_append, List.mem_cons] at hz ⊢
      tauto

theorem Inv.write_ok {s : State} {a : Nat} {v : UInt8} (hI : Inv base s) (hop : (Op.write a v).Legal base s) :
    ∃ t, (∃ N, ∀ fuel ≥ N, step base fuel s (.write a v) = some t) ∧ Inv base t ∧ (Op.write a v).Answer s t := by
  obtain ⟨x, hx, hle, hlt⟩ := hop
  rcases hI with ⟨-, -, hnil⟩ | ⟨⟨l, hL⟩, hroom⟩
  · rw [hnil] at hx
    cases hx
  · have hstart : (block s.heap.mem x.1).start + 8 ≤ a := Nat.le_trans (Nat.le_of_eq (Nat.sub_add_cancel (hroom x hx).1)) hle
    have hL' := hL.write (List.mem_map_of_mem hx) hstart hlt v
    exact ⟨_, ⟨0, fun _ _ => rfl⟩, Inv.of_layout hL' hroom, rfl⟩

/-- The states that calls lead to. A call returns when, from some number of turns of its loops on, more make no difference. -/
inductive Reached (base : Nat) : State → Prop
  | start (mem : Nat → UInt8) : Reached base ⟨⟨mem, 0, []⟩, []⟩
  | call {s t : State} {op : Op} : Reached base s → op.Legal base s → (∃ N, ∀ fuel ≥ N, step base fuel s op = some t) → Reached base t

theorem Inv.step_ok {s : State} {op : Op} (hI : Inv base s) (h0 : 0 < base) (hlt : base + 8 < 2 ^ 32) (hop : op.Legal base s) :
    ∃ t, (∃ N, ∀ fuel ≥ N, step base fuel s op = some t) ∧ Inv base t ∧ op.Answer s t := by
  cases op with
  | malloc nbytes sbrk => exact hI.malloc_ok h0 hlt hop
  | free ap => exact hI.free_ok hop
  | write a v => exact hI.write_ok hop

theorem Reached.inv {s : State} (hs : Reached base s) (h0 : 0 < base) (hlt : base + 8 < 2 ^ 32) : Inv base s := by
  induction hs with
  | start mem => exact .inl ⟨rfl, rfl, rfl⟩
  | call _ hop hret ih =>
    obtain ⟨t', ⟨N', hret'⟩, hI', -⟩ := ih.step_ok h0 hlt hop
    obtain ⟨N, hret⟩ := hret
    have heq := (hret (N + N') (Nat.le_add_right _ _)).symm.trans (hret' (N + N') (Nat.le_add_left _ _))
    cases heq
    exact hI'

/-- In every state that calls of `malloc` and `free` lead to the heap is laid out well, and every further call returns and leads to
such a state. -/
theorem heap_of_reached {s : State} (h0 : 0 < base) (hlt : base + 8 < 2 ^ 32) (hs : Reached base s) : Inv base s ∧
    ∀ op : Op, op.Legal base s → ∃ t, (∃ N, ∀ fuel ≥ N, step base fuel s op = some t) ∧ Inv base t ∧ op.Answer s t :=
  ⟨hs.inv h0 hlt, fun _ hop => (hs.inv h0 hlt).step_ok h0 hlt hop⟩

/-- A first call gets memory from the system. -/
theorem heap_of_reached_first : ∃ t p, Reached 4096 t ∧ t.live = [(p, 10)] ∧ Inv 4096 t := by
  have hs : Reached 4096 ⟨⟨fun _ => 0, 0, []⟩, []⟩ := .start _
  have hop : (Op.malloc 10 [some 8192]).Legal 4096 ⟨⟨fun _ => 0, 0, []⟩, []⟩ := ⟨by decide, by decide, nofun, by decide⟩
  obtain ⟨t, hret, hI, hcases⟩ := (heap_of_reached (by decide) (by decide) hs).2 _ hop
  rcases hcases.1 with ⟨-, hrefused⟩ | ⟨p, hlive⟩
  · exact absurd rfl (hrefused 8192)
  · exact ⟨t, p, hs.call hop hret, hlive, hI⟩

end Ostep.Xv6.Ulib
