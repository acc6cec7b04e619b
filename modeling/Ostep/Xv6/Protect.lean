import Ostep.Xv6.VmSpec

/-!
# What `mprotect` and `munprotect` touch

The two calls accept `addr` and `len` when `addr + len * PGSIZE`, computed in 32 bits, is at most the size
of the process. For an `addr` in the kernel half the sum can wrap to a small number; the loop then starts
at a negative `int` and runs over the top of the address space before it comes to 0.
-/

namespace Ostep.Xv6

/-! ### The loop -/

section
variable {f : Pte → Pte} {d : PgDir}

theorem protectFrom_fault {n : Nat} {i : Int} {j : Nat} (hj : j < n) (hnone : d.entryAt (toUint32 (i + j)) = none) :
    protectFrom f n i d = .error .fault := by
  induction n generalizing i j d with
  | zero => omega
  | succ n ih =>
    rw [protectFrom]
    cases he : d.entryAt (toUint32 i) with
    | none => rfl
    | some e =>
      cases j with
      | zero => rw [Int.natCast_zero, Int.add_zero, he] at hnone; cases hnone
      | succ j =>
        have hi : i + 1 + (j : Int) = i + ((j + 1 : Nat) : Int) := by omega
        refine ih (j := j) (by omega) ?_
        rw [← Option.isNone_iff_eq_none, ← Option.not_isSome] at hnone ⊢
        rw [PgDir.isSome_entryAt_setEntry _ (toUint32_lt _) (toUint32_lt _), hi]
        exact hnone

theorem protectFrom_ok (hf : ∀ e, f (f e) = f e) {n : Nat} {i : Int}
    (hsome : ∀ j < n, (d.entryAt (toUint32 (i + (j : Nat)))).isSome) :
    ∃ d', protectFrom f n i d = .ok d' ∧ ∀ vb < 2 ^ 32,
      d'.entryAt vb = if ∃ j < n, toUint32 (i + (j : Nat)) / PGSIZE = vb / PGSIZE then (d.entryAt vb).map f
        else d.entryAt vb := by
  induction n generalizing i d with
  | zero => exact ⟨d, rfl, fun vb _ => by simp⟩
  | succ n ih =>
    rw [protectFrom]
    obtain ⟨e, he⟩ := Option.isSome_iff_exists.1 (hsome 0 (by omega))
    rw [Int.natCast_zero, Int.add_zero] at he
    have hi : ∀ j : Nat, i + 1 + (j : Int) = i + ((j + 1 : Nat) : Int) := fun j => by omega
    obtain ⟨d', hd', hent⟩ := ih (i := i + 1) (d := d.setEntry (toUint32 i) (f e)) fun j hj => by
      rw [PgDir.isSome_entryAt_setEntry _ (toUint32_lt _) (toUint32_lt _), hi]
      exact hsome (j + 1) (by omega)
    refine ⟨d', by rw [he]; exact hd', fun vb hb => ?_⟩
    rw [hent vb hb, PgDir.entryAt_setEntry _ (toUint32_lt _) hb]
    have hex : (∃ j < n + 1, toUint32 (i + (j : Nat)) / PGSIZE = vb / PGSIZE) ↔
        toUint32 i / PGSIZE = vb / PGSIZE ∨ ∃ j < n, toUint32 (i + 1 + (j : Nat)) / PGSIZE = vb / PGSIZE := by
      simp only [Nat.exists_lt_succ_left, hi, Int.natCast_zero, Int.add_zero]
    by_cases h0 : toUint32 i / PGSIZE = vb / PGSIZE
    · have heb : d.entryAt vb = some e := by rw [← PgDir.entryAt_congr h0, he]
      rw [if_pos h0, if_pos (hex.2 (.inl h0)), heb]
      simp [hf]
    · rw [if_neg h0]
      simp only [hex, h0, false_or]

/-! ### One call -/

def Rejected (sz addr : Nat) (len : Int) : Prop :=
  len ≤ 0 ∨ sz < toUint32 (addr + len * PGSIZE) ∨ addr % PGSIZE ≠ 0

instance (sz addr : Nat) (len : Int) : Decidable (Rejected sz addr len) :=
  inferInstanceAs (Decidable (len ≤ 0 ∨ sz < toUint32 (addr + len * PGSIZE) ∨ addr % PGSIZE ≠ 0))

/-- The addresses that the loop comes to in an accepted call. -/
def Visited (addr : Nat) (len : Int) (va : Nat) : Prop :=
  if addr < KERNBASE then addr ≤ va ∧ va < toUint32 (addr + len * PGSIZE)
  else addr ≤ va ∨ va < toUint32 (addr + len * PGSIZE)

instance (addr : Nat) (len : Int) (va : Nat) : Decidable (Visited addr len va) :=
  inferInstanceAs (Decidable (if addr < KERNBASE then addr ≤ va ∧ va < toUint32 (addr + len * PGSIZE)
    else addr ≤ va ∨ va < toUint32 (addr + len * PGSIZE)))

variable {sz addr : Nat} {len : Int}

theorem protect_rejected (h : Rejected sz addr len) : protect f d sz addr len = .ok (d, -1) := by
  unfold protect
  split
  · rfl
  · next h1 =>
    rw [if_pos]
    rcases h with h | h | h
    · exact absurd (.inl h) h1
    · exact absurd (.inr h) h1
    · exact h

theorem protect_accepted (h : ¬ Rejected sz addr len) : protect f d sz addr len =
    (protectFrom f (toInt32 (toUint32 (addr + len * PGSIZE)) - toInt32 addr).toNat (toInt32 addr) d >>=
      fun d => .ok (d, 0)) := by
  unfold Rejected at h
  unfold protect
  rw [if_neg (by tauto), if_neg (by tauto), Int.add_comm (len * PGSIZE)]

theorem visited_iff (hsz : sz < KERNBASE) (haddr : addr < 2 ^ 32) (h : ¬ Rejected sz addr len) {va : Nat} (hva : va < 2 ^ 32) :
    Visited addr len va ↔
      ∃ j < (toInt32 (toUint32 (addr + len * PGSIZE)) - toInt32 addr).toNat, toUint32 (toInt32 addr + (j : Nat)) = va := by
  have hlim : toUint32 (addr + len * PGSIZE) ≤ sz := by unfold Rejected at h; omega
  unfold Visited KERNBASE at *
  generalize toUint32 (addr + len * PGSIZE) = lim at *
  rw [toInt32_of_lt (by omega : lim < 2 ^ 31)]
  by_cases hlow : addr < 0x80000000
  · rw [if_pos hlow, toInt32_of_lt (by omega : addr < 2 ^ 31)]
    constructor
    · rintro ⟨h1, h2⟩
      exact ⟨va - addr, by omega, by unfold toUint32; omega⟩
    · rintro ⟨j, hj, rfl⟩
      unfold toUint32
      omega
  · rw [if_neg hlow]
    have hneg : toInt32 addr = addr - 2 ^ 32 := by unfold toInt32; split <;> omega
    rw [hneg]
    constructor
    · intro hv
      by_cases hge : addr ≤ va
      · exact ⟨va - addr, by omega, by unfold toUint32; omega⟩
      · exact ⟨va + 2 ^ 32 - addr, by omega, by unfold toUint32; omega⟩
    · rintro ⟨j, hj, rfl⟩
      unfold toUint32
      omega

theorem limit_aligned (h : addr % PGSIZE = 0) : toUint32 (addr + len * PGSIZE) % PGSIZE = 0 := by
  unfold toUint32 PGSIZE at *
  omega

theorem visited_congr (h : ¬ Rejected sz addr len) {va vb : Nat} (hp : va / PGSIZE = vb / PGSIZE) :
    Visited addr len va ↔ Visited addr len vb := by
  have hal : addr % PGSIZE = 0 := by unfold Rejected at h; omega
  have hlim : toUint32 (addr + len * PGSIZE) % PGSIZE = 0 := limit_aligned hal
  unfold Visited
  generalize toUint32 (addr + len * PGSIZE) = lim at *
  unfold PGSIZE at *
  split <;> omega

theorem protect_fault (hsz : sz < KERNBASE) (haddr : addr < 2 ^ 32) (h : ¬ Rejected sz addr len) {va : Nat}
    (hva : va < 2 ^ 32) (hv : Visited addr len va) (hnone : d.entryAt va = none) :
    protect f d sz addr len = .error .fault := by
  obtain ⟨j, hj, rfl⟩ := (visited_iff hsz haddr h hva).1 hv
  rw [protect_accepted h, protectFrom_fault hj hnone]
  rfl

theorem protect_ok (hf : ∀ e, f (f e) = f e) (hsz : sz < KERNBASE) (haddr : addr < 2 ^ 32)
    (h : ¬ Rejected sz addr len) (hsome : ∀ va < 2 ^ 32, Visited addr len va → (d.entryAt va).isSome) :
    ∃ d', protect f d sz addr len = .ok (d', 0) ∧ ∀ vb < 2 ^ 32,
      (Visited addr len vb → d'.entryAt vb = (d.entryAt vb).map f) ∧
        (¬ Visited addr len vb → d'.entryAt vb = d.entryAt vb) := by
  obtain ⟨d', hd', hent⟩ := protectFrom_ok (d := d) hf (n := (toInt32 (toUint32 (addr + len * PGSIZE)) - toInt32 addr).toNat)
    (i := toInt32 addr) fun j hj => by
      exact hsome _ (toUint32_lt _) ((visited_iff hsz haddr h (toUint32_lt _)).2 ⟨j, hj, rfl⟩)
  refine ⟨d', by rw [protect_accepted h, hd']; rfl, fun vb hb => ⟨fun hv => ?_, fun hv => ?_⟩⟩
  · obtain ⟨j, hj, hjv⟩ := (visited_iff hsz haddr h hb).1 hv
    rw [hent vb hb, if_pos ⟨j, hj, by rw [hjv]⟩]
  · rw [hent vb hb, if_neg]
    rintro ⟨j, hj, hjv⟩
    refine hv ((visited_congr h hjv).1 ?_)
    exact (visited_iff hsz haddr h (toUint32_lt _)).2 ⟨j, hj, rfl⟩

theorem protect_accepted_returned (hf : ∀ e, f (f e) = f e) (hsz : sz < KERNBASE) (haddr : addr < 2 ^ 32)
    (h : ¬ Rejected sz addr len) {d' : PgDir} {ret : Int} (hres : protect f d sz addr len = .ok (d', ret)) :
    ∀ vb < 2 ^ 32, (Visited addr len vb → (d.entryAt vb).isSome ∧ d'.entryAt vb = (d.entryAt vb).map f) ∧
      (¬ Visited addr len vb → d'.entryAt vb = d.entryAt vb) := by
  have hsome : ∀ vb < 2 ^ 32, Visited addr len vb → (d.entryAt vb).isSome := by
    intro vb hb hvb
    by_contra hn
    rw [protect_fault hsz haddr h hb hvb (by simpa using hn)] at hres
    cases hres
  obtain ⟨d'', hd'', hent⟩ := protect_ok hf hsz haddr h hsome
  cases hd''.symm.trans hres
  exact fun vb hb => ⟨fun hv => ⟨hsome vb hb hv, (hent vb hb).1 hv⟩, (hent vb hb).2⟩

/-! ### The frame -/

/-- The call returns, and no entry for an address from `PGROUNDUP sz` on has changed. -/
def FrameOk (d : PgDir) (sz : Nat) (res : Except Halt (PgDir × Int)) : Prop :=
  ∃ d' ret, res = .ok (d', ret) ∧ ∀ va < 2 ^ 32, PGROUNDUP sz ≤ va → d'.entryAt va = d.entryAt va

theorem frameOk_user (hf : ∀ e, f (f e) = f e) (hsz : sz < KERNBASE) (hd : ExactPages d sz)
    (h : ¬ Rejected sz addr len) (hlow : addr < KERNBASE) : FrameOk d sz (protect f d sz addr len) := by
  have hlim : toUint32 (addr + len * PGSIZE) ≤ sz := by unfold Rejected at h; omega
  have hsub : ∀ va, Visited addr len va → va < sz := by
    intro va hv
    rw [Visited, if_pos hlow] at hv
    omega
  obtain ⟨d', hd', hent⟩ := protect_ok (d := d) hf hsz (by unfold KERNBASE at hlow; omega) h fun va _ hv =>
    hd.isSome hsz (hsub va hv)
  refine ⟨d', 0, hd', fun va hva hge => (hent va hva).2 fun hv => ?_⟩
  have := hsub va hv
  have := (PGROUNDUP_le hsz).1
  omega

/-- For a kernel address the frame is kept exactly when the loop finds every entry up to the top of the
address space and changes none of them. -/
theorem frameOk_kernel_iff (hf : ∀ e, f (f e) = f e) (hsz : sz < KERNBASE) (haddr : addr < 2 ^ 32)
    (hd : ExactPages d sz) (h : ¬ Rejected sz addr len) (hhigh : KERNBASE ≤ addr) :
    FrameOk d sz (protect f d sz addr len) ↔
      ∀ va, addr ≤ va → va < 2 ^ 32 → ∃ e, d.entryAt va = some e ∧ f e = e := by
  have hlim : toUint32 (addr + len * PGSIZE) ≤ sz := by unfold Rejected at h; omega
  have hvis : ∀ va, Visited addr len va ↔ addr ≤ va ∨ va < toUint32 (addr + len * PGSIZE) := by
    intro va
    rw [Visited, if_neg (by omega)]
  have hround := PGROUNDUP_le hsz
  constructor
  · rintro ⟨d', ret, hres, hframe⟩ va hge hva
    obtain ⟨hsome, hmap⟩ := (protect_accepted_returned hf hsz haddr h hres va hva).1 ((hvis va).2 (.inl hge))
    obtain ⟨e, he⟩ := Option.isSome_iff_exists.1 hsome
    have := hframe va hva (by omega)
    rw [hmap, he] at this
    exact ⟨e, he, Option.some.inj this⟩
  · intro hall
    obtain ⟨d', hd', hent⟩ := protect_ok (d := d) hf hsz haddr h fun va hva hv => by
      rcases (hvis va).1 hv with hv | hv
      · obtain ⟨e, he, -⟩ := hall va hv hva; rw [he]; rfl
      · exact hd.isSome hsz (by omega)
    refine ⟨d', 0, hd', fun va hva hge => ?_⟩
    by_cases hv : Visited addr len va
    · rw [(hent va hva).1 hv]
      obtain ⟨e, he, hfe⟩ := hall va (by have := (hvis va).1 hv; omega) hva
      rw [he, Option.map_some, hfe]
    · exact (hent va hva).2 hv

end

/-- `mprotect` and `munprotect` leave everything from `PGROUNDUP sz` on alone, and never follow a null
entry pointer, exactly when the call is rejected, or `addr` is a user address, or every page from `addr` to
the top of the address space has an entry with `PTE_W` as the call would leave it. -/
theorem protect_frame_iff {d : PgDir} {sz addr : Nat} (len : Int) (hsz : sz < KERNBASE) (haddr : addr < 2 ^ 32)
    (hd : ExactPages d sz) :
    (FrameOk d sz (mprotect d sz addr len) ↔ Rejected sz addr len ∨ addr < KERNBASE ∨
      ∀ va, addr ≤ va → va < 2 ^ 32 → ∃ e, d.entryAt va = some e ∧ Pte.writable e = false) ∧
    (FrameOk d sz (munprotect d sz addr len) ↔ Rejected sz addr len ∨ addr < KERNBASE ∨
      ∀ va, addr ≤ va → va < 2 ^ 32 → ∃ e, d.entryAt va = some e ∧ Pte.writable e = true) := by
  have key : ∀ (f : Pte → Pte) (w : Bool), (∀ e, f (f e) = f e) → (∀ e, f e = e ↔ Pte.writable e = w) →
      (FrameOk d sz (protect f d sz addr len) ↔ Rejected sz addr len ∨ addr < KERNBASE ∨
        ∀ va, addr ≤ va → va < 2 ^ 32 → ∃ e, d.entryAt va = some e ∧ Pte.writable e = w) := by
    intro f w hf hw
    by_cases hrej : Rejected sz addr len
    · exact iff_of_true ⟨d, -1, protect_rejected hrej, fun _ _ _ => rfl⟩ (.inl hrej)
    by_cases hlow : addr < KERNBASE
    · exact iff_of_true (frameOk_user hf hsz hd hrej hlow) (.inr (.inl hlow))
    rw [frameOk_kernel_iff hf hsz haddr hd hrej (by omega)]
    simp only [hrej, hlow, false_or, hw]
  exact ⟨key Pte.clearW false Pte.clearW_clearW Pte.clearW_eq_self_iff, key Pte.setW true Pte.setW_setW Pte.setW_eq_self_iff⟩

def onePage : PgDir := fun i =>
  if i = 0 then some ⟨0x400000, fun j => if j = 0 then .mk 0x401000 (PTE_W ||| PTE_U) else 0⟩
  else if DEVSPACE / 2 ^ 22 ≤ i then some ⟨0x402000 + i, fun j => .mk (i * 2 ^ 22 + j * 2 ^ 12) PTE_W⟩
  else none

theorem exactPages_onePage : ExactPages onePage 4096 := by
  intro va hva
  have hround : PGROUNDUP 4096 = 4096 := by decide
  have hdev : ¬ DEVSPACE / 4194304 ≤ PDX va := by unfold DEVSPACE PDX KERNBASE at *; omega
  rw [hround, lt_pgsize_iff hva]
  unfold PgDir.present PgDir.entryAt onePage
  by_cases h0 : PDX va = 0
  · by_cases ht : PTX va = 0
    · simp [h0, ht]
    · simp [h0, ht]
  · simp [h0, hdev]

theorem protect_frame_first_page : FrameOk onePage 4096 (mprotect onePage 4096 0 1) :=
  (protect_frame_iff 1 (by decide) (by decide) exactPages_onePage).1.2 (.inr (.inl (by decide)))

/-- `mprotect(0xFFFFF000, 1)` is accepted, since the sum wraps to 0, and takes `PTE_W` from the last page of
the device space. -/
theorem not_frameOk_wrap : ExactPages onePage 4096 ∧ ¬ FrameOk onePage 4096 (mprotect onePage 4096 0xFFFFF000 1) := by
  refine ⟨exactPages_onePage, fun h => ?_⟩
  obtain ⟨e, he, hfe⟩ := (frameOk_kernel_iff Pte.clearW_clearW (by decide) (by decide) exactPages_onePage (by decide)
    (by decide)).1 h 0xFFFFF000 le_rfl (by decide)
  cases he
  exact absurd ((Pte.clearW_eq_self_iff _).1 hfe) (by decide)

/-! ### The pages that were asked for -/

/-- The request can be met: `len` whole pages from `addr` on lie below the size. -/
def Requested (sz addr : Nat) (len : Int) : Prop := addr % PGSIZE = 0 ∧ 1 ≤ len ∧ addr + len * PGSIZE ≤ sz

/-- The call returns 0 exactly when the request can be met, and has then applied `f` to the entries of those pages and to no other; it
returns -1 otherwise and changes nothing. -/
def ProtectsExactly (f : Pte → Pte) (d : PgDir) (sz addr : Nat) (len : Int) (res : Except Halt (PgDir × Int)) : Prop :=
  ∃ d' ret, res = .ok (d', ret) ∧ (ret = 0 ∨ ret = -1) ∧ (ret = 0 ↔ Requested sz addr len) ∧
    (ret = 0 → (∀ i, d'.tableFrame i = d.tableFrame i) ∧ ∀ va < 2 ^ 32,
      d'.entryAt va = if addr ≤ va ∧ va < addr + len * PGSIZE then (d.entryAt va).map f else d.entryAt va) ∧
    (ret = -1 → d' = d)

section
variable {f : Pte → Pte} {d : PgDir} {sz addr : Nat} {len : Int}

theorem protectFrom_frame {n : Nat} {i : Int} {d' : PgDir} (h : protectFrom f n i d = .ok d') (j : Nat) :
    d'.tableFrame j = d.tableFrame j := by
  induction n generalizing i d with
  | zero =>
    cases h
    rfl
  | succ n ih =>
    rw [protectFrom] at h
    split at h
    · cases h
    · rw [ih h, PgDir.frame_setEntry]

theorem Requested.accepted (hsz : sz < KERNBASE) (h : Requested sz addr len) : ¬ Rejected sz addr len := by
  obtain ⟨hal, hlen, hle⟩ := h
  unfold Rejected toUint32
  unfold KERNBASE at hsz
  unfold PGSIZE at *
  omega

theorem protectsExactly_rejected (hsz : sz < KERNBASE) (h : Rejected sz addr len) :
    ProtectsExactly f d sz addr len (protect f d sz addr len) := by
  refine ⟨d, -1, protect_rejected h, .inr rfl, iff_of_false (by decide) fun hreq => hreq.accepted hsz h, fun h0 => ?_, fun _ => rfl⟩
  exact absurd h0 (by decide)

theorem protectsExactly_accepted_iff (hf : ∀ e, f (f e) = f e) (hsz : sz < KERNBASE) (hd : ExactPages d sz) (haddr : addr < sz)
    (h : ¬ Rejected sz addr len) : ProtectsExactly f d sz addr len (protect f d sz addr len) ↔ Requested sz addr len := by
  have hlow : addr < KERNBASE := by omega
  have haddr32 : addr < 2 ^ 32 := by unfold KERNBASE at hlow; omega
  have hvis : ∀ va, Visited addr len va ↔ addr ≤ va ∧ va < toUint32 (addr + len * PGSIZE) := by
    intro va
    rw [Visited, if_pos hlow]
  have hlim : toUint32 (addr + len * PGSIZE) ≤ sz := by unfold Rejected at h; omega
  obtain ⟨d', hd', hent⟩ := protect_ok (d := d) hf hsz haddr32 h fun va _ hv => hd.isSome hsz (by have := (hvis va).1 hv; omega)
  constructor
  · rintro ⟨d'', ret, hres, -, hiff, -⟩
    cases hd'.symm.trans hres
    exact hiff.1 rfl
  · intro hreq
    have hsum : toUint32 (addr + len * PGSIZE) = addr + len * PGSIZE := by
      obtain ⟨-, hlen, hle⟩ := hreq
      unfold toUint32
      unfold KERNBASE at hsz
      unfold PGSIZE at *
      omega
    refine ⟨d', 0, hd', .inl rfl, iff_of_true rfl hreq, fun _ => ⟨fun i => ?_, fun va hva => ?_⟩, fun hneg => absurd hneg (by decide)⟩
    · have hloop := hd'
      rw [protect_accepted h] at hloop
      obtain ⟨d'', hloop, heq⟩ := bind_ok hloop
      cases heq
      exact protectFrom_frame hloop i
    · rw [← hsum]
      split
      · next hv => exact (hent va hva).1 ((hvis va).2 ⟨hv.1, by omega⟩)
      · next hv => exact (hent va hva).2 fun hv' => hv ⟨((hvis va).1 hv').1, by have := ((hvis va).1 hv').2; omega⟩

end

/-- For an `addr` below the size the two calls do what was asked for, except where the end of the request lies above the size and
comes back below it in 32 bits. -/
theorem protectsExactly_iff {d : PgDir} {sz addr : Nat} (len : Int) (hsz : sz < KERNBASE) (hd : ExactPages d sz) (haddr : addr < sz) :
    (ProtectsExactly Pte.clearW d sz addr len (mprotect d sz addr len) ↔
      ¬ (addr % PGSIZE = 0 ∧ 0 < len ∧ sz < addr + len * PGSIZE ∧ (addr + len * PGSIZE) % 2 ^ 32 ≤ sz)) ∧
    (ProtectsExactly Pte.setW d sz addr len (munprotect d sz addr len) ↔
      ¬ (addr % PGSIZE = 0 ∧ 0 < len ∧ sz < addr + len * PGSIZE ∧ (addr + len * PGSIZE) % 2 ^ 32 ≤ sz)) := by
  have key : ∀ f : Pte → Pte, (∀ e, f (f e) = f e) → (ProtectsExactly f d sz addr len (protect f d sz addr len) ↔
      ¬ (addr % PGSIZE = 0 ∧ 0 < len ∧ sz < addr + len * PGSIZE ∧ (addr + len * PGSIZE) % 2 ^ 32 ≤ sz)) := by
    intro f hf
    have hmod : (toUint32 (addr + len * PGSIZE) : Int) = (addr + len * PGSIZE) % 2 ^ 32 := by unfold toUint32; omega
    by_cases hrej : Rejected sz addr len
    · refine iff_of_true (protectsExactly_rejected hsz hrej) ?_
      unfold Rejected at hrej
      omega
    · rw [protectsExactly_accepted_iff hf hsz hd haddr hrej]
      unfold Rejected at hrej
      unfold Requested
      omega
  exact ⟨key _ Pte.clearW_clearW, key _ Pte.setW_setW⟩

theorem protectsExactly_first_page : ProtectsExactly Pte.clearW onePage 4096 0 1 (mprotect onePage 4096 0 1) :=
  (protectsExactly_iff 1 (by decide) exactPages_onePage (by decide)).1.2 (by decide)

/-- `mprotect(0, 2^20)` asks for 4 GB of a process with one page and returns 0: `len * PGSIZE` is 0 in 32 bits. -/
theorem not_protectsExactly_wrap : ExactPages onePage 4096 ∧
    ¬ ProtectsExactly Pte.clearW onePage 4096 0 (2 ^ 20) (mprotect onePage 4096 0 (2 ^ 20)) := by
  refine ⟨exactPages_onePage, fun h => ?_⟩
  obtain ⟨-, -, hle⟩ := (protectsExactly_accepted_iff Pte.clearW_clearW (by decide) exactPages_onePage (by decide) (by decide)).1 h
  revert hle
  decide

end Ostep.Xv6
