import Ostep.Xv6.Exec
import Ostep.Xv6.Kvm

/-!
# Building the image

While `exec` reads the program headers, the pages of the new directory are exactly those below the running size, so `loaduvm` finds
every page it needs and no page is mapped twice (`Building`). What the process will see in them is what the loadable segments say, one
after another (`imageBytes`).
-/

namespace Ostep.Xv6

variable {kend : Nat} {vm vm' : Vm}

/-! ### Memory as the process sees it -/

namespace Vm

def byteAt (vm : Vm) (va : Nat) : UInt8 := vm.mem (PTE_ADDR (vm.dir.pte va)) (va % PGSIZE)

end Vm

/-- Different user pages have different frames. -/
def Apart (d : PgDir) : Prop := ∀ va < KERNBASE, ∀ vb < KERNBASE, d.present va = true → d.present vb = true →
  PTE_ADDR (d.pte va) = PTE_ADDR (d.pte vb) → va / PGSIZE = vb / PGSIZE

theorem Sound.apart (h : Sound kend vm) : Apart vm.dir := fun _ hva _ hvb hpa hpb heq => h.page_eq hva hvb hpa hpb heq

/-- Only the contents of user pages have changed. -/
structure OnlyUser (vm vm' : Vm) : Prop where
  dir : vm'.dir = vm.dir
  free : vm'.free = vm.free
  mem : ∀ p ∉ vm.dir.frames 0 KERNBASE, vm'.mem p = vm.mem p

namespace OnlyUser

variable {vm₁ : Vm}

theorem refl (vm : Vm) : OnlyUser vm vm := ⟨rfl, rfl, fun _ _ => rfl⟩

theorem trans (h : OnlyUser vm vm₁) (h' : OnlyUser vm₁ vm') : OnlyUser vm vm' := by
  refine ⟨h'.dir.trans h.dir, h'.free.trans h.free, fun p hp => ?_⟩
  rw [h'.mem p (by rwa [h.dir]), h.mem p hp]

theorem write {va o : Nat} {bs : List UInt8} (hva : va < KERNBASE) (hp : vm.dir.present va = true) :
    OnlyUser vm (vm.write (PTE_ADDR (vm.dir.pte va)) o bs) := by
  refine ⟨rfl, rfl, fun p hnot => Function.update_of_ne (fun heq => hnot ?_) _ _⟩
  rw [heq]
  exact (PgDir.mem_frames (Nat.zero_mod _)).2 ⟨va, inRange_kernbase.2 hva, hp, rfl⟩

theorem owned (h : OnlyUser vm vm') : vm'.owned = vm.owned := by
  unfold Vm.owned
  rw [h.dir, h.free]

end OnlyUser

theorem byteAt_write (h : Apart vm.dir) {va₀ o : Nat} {bs : List UInt8} (h₀ : va₀ < KERNBASE) (hp₀ : vm.dir.present va₀ = true)
    (ho : o + bs.length ≤ PGSIZE) {va : Nat} (hva : va < KERNBASE) (hp : vm.dir.present va = true) :
    (vm.write (PTE_ADDR (vm.dir.pte va₀)) o bs).byteAt va = patch vm.byteAt (va₀ / PGSIZE * PGSIZE + o) bs va := by
  unfold Vm.byteAt Vm.write
  dsimp only
  by_cases hpage : va₀ / PGSIZE = va / PGSIZE
  · rw [PgDir.pte_congr hpage, Function.update_self]
    by_cases hin : o ≤ va % PGSIZE ∧ va % PGSIZE < o + bs.length
    · rw [patch_of_mem hin.1 hin.2, patch_of_mem (by unfold PGSIZE at *; omega) (by unfold PGSIZE at *; omega)]
      congr 1
      unfold PGSIZE at *
      omega
    · rw [patch_of_ne (by omega), patch_of_ne (by unfold PGSIZE at *; omega)]
  · have hne : PTE_ADDR (vm.dir.pte va) ≠ PTE_ADDR (vm.dir.pte va₀) := fun heq => hpage (h va₀ h₀ va hva hp₀ hp heq.symm)
    rw [Function.update_of_ne hne, patch_of_ne (by unfold PGSIZE at *; omega)]

/-! ### `loaduvm` -/

theorem readiBytes_some {file bs : List UInt8} {off n : Nat} (h : readiBytes file off n = some bs) :
    bs = (file.drop off).take n ∧ off ≤ (off + n) % 2 ^ 32 := by
  unfold readiBytes at h
  split at h
  · cases h
  · next hn =>
    rw [not_or] at hn
    exact ⟨(Option.some.inj h).symm, Nat.not_lt.1 hn.2⟩

theorem loadFrom_spec {file : List UInt8} {addr offset sz : Nat} {k i : Nat} (vm : Vm) (hap : Apart vm.dir) (hal : addr % PGSIZE = 0)
    (htop : addr + sz ≤ KERNBASE) (hpres : ∀ va, addr ≤ va → va < addr + sz → vm.dir.present va = true) (hi : i % PGSIZE = 0)
    (hk : k = Vm.pageCount i sz) (hoff : i < sz → offset + i < 2 ^ 32) :
    ∃ vm' ok, Vm.loadFrom file addr offset sz k i vm = .ok (vm', ok) ∧ OnlyUser vm vm' ∧ (ok = true →
      ((file.drop (offset + i)).take (sz - i)).length = sz - i ∧ ∀ va < KERNBASE, vm.dir.present va = true →
        vm'.byteAt va = patch vm.byteAt (addr + i) ((file.drop (offset + i)).take (sz - i)) va) := by
  induction k generalizing i vm with
  | zero =>
    have hle : sz - i = 0 := by unfold Vm.pageCount PGSIZE at hk; omega
    refine ⟨vm, true, rfl, .refl vm, fun _ => ?_⟩
    rw [hle, List.take_zero]
    exact ⟨rfl, fun va _ _ => (patch_nil _ _ _).symm⟩
  | succ k ih =>
    have hlt : i < sz := by unfold Vm.pageCount PGSIZE at hk; omega
    have hva32 : (addr + i) % 2 ^ 32 = addr + i := Nat.mod_eq_of_lt (by unfold KERNBASE at htop; omega)
    have hva : addr + i < KERNBASE := by omega
    have hp := hpres (addr + i) (by omega) (by omega)
    have hoff32 : (offset + i) % 2 ^ 32 = offset + i := Nat.mod_eq_of_lt (hoff hlt)
    have hk' : k = Vm.pageCount (i + PGSIZE) sz := by unfold Vm.pageCount PGSIZE at hk ⊢; omega
    have hi' : (i + PGSIZE) % PGSIZE = 0 := by unfold PGSIZE at hi ⊢; omega
    obtain ⟨e, he⟩ := Option.isSome_iff_exists.1 (PgDir.isSome_of_present hp)
    rw [Vm.loadFrom, hva32, he, hoff32]
    dsimp only
    generalize hn : (if sz - i < PGSIZE then sz - i else PGSIZE) = n
    have hn0 : 0 < n ∧ n ≤ PGSIZE ∧ n ≤ sz - i ∧ (n = PGSIZE ∨ n = sz - i) := by
      rw [← hn]
      unfold PGSIZE
      split <;> omega
    rw [← PgDir.pte_of_entryAt he]
    cases hr : readiBytes file (offset + i) n with
    | none => exact ⟨vm, false, rfl, .refl vm, nofun⟩
    | some bs =>
      obtain ⟨hbs, hnowrap⟩ := readiBytes_some hr
      have honly : OnlyUser vm (vm.write (PTE_ADDR (vm.dir.pte (addr + i))) 0 bs) := .write hva hp
      by_cases hlen : bs.length = n
      swap
      · exact ⟨_, false, if_pos hlen, honly, nofun⟩
      have hpage : (addr + i) / PGSIZE * PGSIZE + 0 = addr + i := by unfold PGSIZE at *; omega
      have hbytes : ∀ va < KERNBASE, vm.dir.present va = true →
          (vm.write (PTE_ADDR (vm.dir.pte (addr + i))) 0 bs).byteAt va = patch vm.byteAt (addr + i) bs va := by
        intro va hva' hp'
        rw [byteAt_write hap hva hp (by omega) hva' hp', hpage]
      obtain ⟨vm', ok, hvm', honly', hbytes'⟩ := ih (i := i + PGSIZE) (vm.write (PTE_ADDR (vm.dir.pte (addr + i))) 0 bs) hap hpres hi' hk'
        (fun hlt' => by have : PGSIZE = 4096 := rfl; omega)
      refine ⟨vm', ok, (if_neg (not_not.2 hlen)).trans hvm', honly.trans honly', fun hok => ?_⟩
      obtain ⟨hlen', hbytes'⟩ := hbytes' hok
      -- The rest of the file's bytes follow this page's, or there is no rest.
      have hsplit : (file.drop (offset + i)).take (sz - i) = bs ++ (file.drop (offset + (i + PGSIZE))).take (sz - (i + PGSIZE)) := by
        rcases hn0.2.2.2 with hn' | hn'
        · have hsz : sz - i = n + (sz - (i + PGSIZE)) := by omega
          rw [hsz, List.take_add, ← hbs, List.drop_drop, hn', Nat.add_assoc]
        · have hrest : sz - (i + PGSIZE) = 0 := by omega
          rw [hrest, List.take_zero, List.append_nil, ← hn', hbs]
      constructor
      · rw [hsplit, List.length_append, hlen, hlen']
        omega
      · intro va hva' hp'
        rw [hbytes' va hva' hp', hsplit, ← patch_patch]
        rcases hn0.2.2.2 with hn' | hn'
        · rw [show addr + (i + PGSIZE) = addr + i + bs.length by omega]
          exact patch_congr (hbytes va hva' hp')
        · have hrest : (file.drop (offset + (i + PGSIZE))).take (sz - (i + PGSIZE)) = [] := by
            rw [show sz - (i + PGSIZE) = 0 by omega, List.take_zero]
          rw [hrest, patch_nil, patch_nil]
          exact hbytes va hva' hp'

theorem loaduvm_spec {file : List UInt8} {addr offset sz : Nat} (vm : Vm) (hap : Apart vm.dir) (hal : addr % PGSIZE = 0)
    (htop : addr + sz ≤ KERNBASE) (hpres : ∀ va, addr ≤ va → va < addr + sz → vm.dir.present va = true) (hoff : offset < 2 ^ 32) :
    ∃ vm' ok, vm.loaduvm addr file offset sz = .ok (vm', ok) ∧ OnlyUser vm vm' ∧ (ok = true →
      ∀ va < KERNBASE, vm.dir.present va = true → vm'.byteAt va = patch vm.byteAt addr ((file.drop offset).take sz) va) ∧
      (ok = true → ((file.drop offset).take sz).length = sz) := by
  obtain ⟨vm', ok, hvm', honly, hok⟩ := loadFrom_spec (i := 0) (k := Vm.pageCount 0 sz) vm hap hal htop hpres (Nat.zero_mod _) rfl
    fun _ => hoff
  exact ⟨vm', ok, by rw [Vm.loaduvm, if_neg (not_not.2 hal), hvm'], honly, fun h => (hok h).2, fun h => (hok h).1⟩

/-! ### The directory under construction -/

/-- The new directory, whose page is `d`, and all it owns come from the free list of `vm₀`, and nothing else has been written to. -/
structure Pending (vm₀ vm : Vm) (d : Nat) : Prop where
  owned : (d :: vm.owned).Perm vm₀.free
  mem : ∀ p ∉ vm₀.free, vm.mem p = vm₀.mem p

namespace Pending

variable {vm₀ : Vm} {d : Nat}

theorem mem_free (h : Pending vm₀ vm d) {p : Nat} (hp : p ∈ vm.owned) : p ∈ vm₀.free := h.owned.subset (List.mem_cons_of_mem _ hp)

theorem onlyUser (h : Pending vm₀ vm d) (ho : OnlyUser vm vm') : Pending vm₀ vm' d := by
  refine ⟨by rw [ho.owned]; exact h.owned, fun p hp => ?_⟩
  rw [ho.mem p fun hp' => hp (h.mem_free (List.mem_append_left _ hp')), h.mem p hp]

theorem next (h : Pending vm₀ vm d) (howned : vm'.owned.Perm vm.owned) (hmem : ∀ p ∉ vm.free, vm'.mem p = vm.mem p) : Pending vm₀ vm' d :=
  ⟨(howned.cons d).trans h.owned, fun p hp => by rw [hmem p fun hp' => hp (h.mem_free (mem_owned_of_free hp')), h.mem p hp]⟩

variable (hfree : ∀ p ∈ vm₀.free, Frame kend p)
include hfree

theorem sound (h : Pending vm₀ vm d) (hnd : vm₀.free.Nodup) : Sound kend vm :=
  ⟨fun p hp => hfree p (h.mem_free hp), (List.nodup_cons.1 (h.owned.nodup_iff.2 hnd)).2⟩

theorem freevm (h : Pending vm₀ vm d) (hk : 0 < kend) : ∃ vm', vm.freevm kend d = .ok vm' ∧ GivenBack vm₀ vm' := by
  obtain ⟨vm', hvm', hback, hmem⟩ := freevm_owned hk (hfree d (h.owned.subset List.mem_cons_self)) fun p hp => hfree p (h.mem_free hp)
  refine ⟨vm', hvm', hback.trans h.owned, fun p hp => ?_⟩
  rw [hmem p fun hp' => hp (h.owned.subset hp'), h.mem p hp]

end Pending

/-- The image so far: the pages below `sz` with the bytes `m`. -/
structure Building (data : Nat) (vm₀ vm : Vm) (d sz : Nat) (m : Nat → UInt8) : Prop extends Pending vm₀ vm d where
  lt : sz < KERNBASE
  exact : ExactPages vm.dir sz
  kernel : KernelPart data vm.dir
  user : ∀ va < PGROUNDUP sz, (vm.dir.pte va).user = true
  bytes : ∀ va < PGROUNDUP sz, vm.byteAt va = m va
  zero : ∀ va, PGROUNDUP sz ≤ va → m va = 0

section
variable {data d sz : Nat} {vm₀ : Vm} {m : Nat → UInt8} (hk : 0 < kend) (hdata : DataOk data) (hfree : ∀ p ∈ vm₀.free, Frame kend p)
  (hnd : vm₀.free.Nodup)

namespace Building

theorem start (h : Built data vm₀ vm d) (hempty : ∀ va < KERNBASE, vm.dir.pte va = 0) : Building data vm₀ vm d 0 fun _ => 0 := by
  refine ⟨⟨h.owned, h.mem⟩, by decide, fun va hva => ?_, h.kernel, fun va hva => ?_, fun va hva => ?_, fun _ _ => rfl⟩
  · rw [PgDir.present_eq_pte, hempty va hva, PGROUNDUP_zero]
    exact iff_of_false (by decide) (Nat.not_lt_zero va)
  all_goals exact absurd hva (by rw [PGROUNDUP_zero]; exact Nat.not_lt_zero va)

theorem round (h : Building data vm₀ vm d sz m) (hlt : PGROUNDUP sz < KERNBASE) : Building data vm₀ vm d (PGROUNDUP sz) m := by
  have hround : PGROUNDUP (PGROUNDUP sz) = PGROUNDUP sz := by
    rw [PGROUNDUP_of_lt hlt]
    have := PGROUNDUP_aligned sz
    unfold PGSIZE at this
    omega
  refine ⟨h.toPending, hlt, ?_, h.kernel, ?_, ?_, ?_⟩
  · unfold ExactPages
    rw [hround]
    exact h.exact
  all_goals rw [hround]
  exacts [h.user, h.bytes, h.zero]

include hk hdata hfree hnd in
theorem allocuvm (h : Building data vm₀ vm d sz m) (newsz : Nat) :
    (∃ vm', vm.allocuvm kend sz newsz = .ok (vm', 0) ∧ Pending vm₀ vm' d) ∨
      ∃ vm', vm.allocuvm kend sz newsz = .ok (vm', max sz newsz) ∧ Building data vm₀ vm' d (max sz newsz) m := by
  have hsound := h.sound hfree hnd
  have huser : UserSpace kend vm.dir sz := ⟨h.lt, h.exact, hsound.good⟩
  rcases Nat.lt_or_ge newsz KERNBASE with hnew | hbig
  swap
  · exact .inl ⟨vm, by rw [Vm.allocuvm, if_pos hbig], h.toPending⟩
  rcases Nat.lt_or_ge newsz sz with hlt | hle
  · rw [Nat.max_eq_left (by omega)]
    exact .inr ⟨vm, by rw [Vm.allocuvm, if_neg (by omega), if_pos hlt], h⟩
  rw [Nat.max_eq_right hle]
  have habs := huser.below.absent hnew
  rcases allocuvm_cases hk hle hnew (fun p hp => hsound.free hp) habs with ⟨vm', hvm', ha⟩ | ⟨vm', hvm', hr⟩
  · have hround := PGROUNDUP_le h.lt
    have hround' := PGROUNDUP_le hnew
    have hold : ∀ va < PGROUNDUP sz, vm'.dir.pte va = vm.dir.pte va := by
      intro va hva
      refine ha.out va (by unfold KERNBASE at hround; omega) ?_
      rw [inRange_iff hnew]
      omega
    have hin : ∀ va, ¬ va < PGROUNDUP sz → va < PGROUNDUP newsz → va < 2 ^ 32 ∧ InRange (PGROUNDUP sz) newsz va := fun va h1 h2 =>
      ⟨by unfold KERNBASE at hround'; omega, (inRange_iff hnew).2 ⟨Nat.not_lt.1 h1, h2⟩⟩
    refine .inr ⟨vm', hvm', h.next ha.owned ha.mem, hnew, (huser.filled hnew hle ha.filled).exact, h.kernel.allocated hdata (by omega) ha,
      fun va hva => ?_, fun va hva => ?_, fun va hva => h.zero va (by have := PGROUNDUP_mono hnew hle; omega)⟩
    · by_cases hlow : va < PGROUNDUP sz
      · rw [hold va hlow]
        exact h.user va hlow
      · obtain ⟨hva32, hr⟩ := hin va hlow hva
        obtain ⟨pa, -, hpa, -, hpte⟩ := ha.new va hva32 hr
        rw [hpte, Pte.user_mk hpa.aligned]
        rfl
    · by_cases hlow : va < PGROUNDUP sz
      · have hp := huser.present hlow
        rw [← h.bytes va hlow, Vm.byteAt, Vm.byteAt, hold va hlow, ha.mem _ (hsound.not_free hp.2 hp.1)]
      · obtain ⟨hva32, hr⟩ := hin va hlow hva
        rw [Vm.byteAt, ha.contents hsound.free_nodup va hva32 hr, h.zero va (Nat.not_lt.1 hlow)]
  · exact .inl ⟨vm', hvm', h.next hr.owned fun p hp => hr.mem_of_absent (PGROUNDUP_aligned _) (by omega) habs hp⟩

include hfree hnd in
theorem loaduvm (h : Building data vm₀ vm d sz m) {addr offset n : Nat} (file : List UInt8) (hal : addr % PGSIZE = 0) (hle : addr + n ≤ sz)
    (hoff : offset < 2 ^ 32) :
    ∃ vm' ok, vm.loaduvm addr file offset n = .ok (vm', ok) ∧ Pending vm₀ vm' d ∧
      (ok = true → Building data vm₀ vm' d sz (patch m addr ((file.drop offset).take n))) := by
  have hround := PGROUNDUP_le h.lt
  have hpres : ∀ va < PGROUNDUP sz, vm.dir.present va = true := fun va hva => (h.exact va (by omega)).2 hva
  obtain ⟨vm', ok, hvm', ho, hbytes, hlen⟩ := loaduvm_spec vm (h.sound hfree hnd).apart hal
    (show addr + n ≤ KERNBASE by omega) (fun va _ _ => hpres va (by omega)) hoff
  refine ⟨vm', ok, hvm', h.onlyUser ho, fun hok => ⟨h.onlyUser ho, h.lt, ?_, ?_, ?_, fun va hva => ?_, fun va hva => ?_⟩⟩
  · rw [ho.dir]; exact h.exact
  · rw [ho.dir]; exact h.kernel
  · rw [ho.dir]; exact h.user
  · rw [hbytes hok va (by omega) (hpres va hva)]
    exact patch_congr (h.bytes va hva)
  · rw [patch_of_ne (.inr (by rw [hlen hok]; omega)), h.zero va hva]

end Building

/-! ### What the file says -/

/-- The loadable segments among the `n` headers at `off`. -/
def loadable (file : List UInt8) : Nat → Nat → List Proghdr
  | 0, _ => []
  | n + 1, off =>
    let ph := Proghdr.ofBytes ((file.drop off).take PROGHDR)
    if ph.type = ELF_PROG_LOAD then ph :: loadable file n ((off + PROGHDR) % 2 ^ 32) else loadable file n ((off + PROGHDR) % 2 ^ 32)

def segmentsEnd (phs : List Proghdr) (sz : Nat) : Nat := phs.foldl (fun sz ph => max sz (ph.vaddr + ph.memsz)) sz

/-- The segments in the order of their headers, later ones over earlier ones. -/
def segmentBytes (file : List UInt8) (phs : List Proghdr) (m : Nat → UInt8) : Nat → UInt8 :=
  phs.foldl (fun m ph => patch m ph.vaddr ((file.drop ph.off).take ph.filesz)) m

theorem load_lt (m : Nat → UInt8) (a : Nat) : load m a < 2 ^ 32 := by
  have := (m a).toNat_lt
  have := (m (a + 1)).toNat_lt
  have := (m (a + 2)).toNat_lt
  have := (m (a + 3)).toNat_lt
  unfold load
  omega

include hk hdata hfree hnd in
theorem loadSegments_spec (file : List UInt8) (n off : Nat) (vm : Vm) (h : Building data vm₀ vm d sz m) :
    (∃ vm', Vm.loadSegments kend file n off sz vm = .ok (vm', none) ∧ Pending vm₀ vm' d) ∨
      ∃ vm', Vm.loadSegments kend file n off sz vm = .ok (vm', some (segmentsEnd (loadable file n off) sz)) ∧
        Building data vm₀ vm' d (segmentsEnd (loadable file n off) sz) (segmentBytes file (loadable file n off) m) := by
  induction n generalizing off sz m vm with
  | zero => exact .inr ⟨vm, rfl, h⟩
  | succ n ih =>
    rw [Vm.loadSegments, loadable]
    cases hr : readiBytes file off PROGHDR with
    | none => exact .inl ⟨vm, rfl, h.toPending⟩
    | some bs =>
      rw [← (readiBytes_some hr).1]
      dsimp only
      by_cases hlen : bs.length ≠ PROGHDR
      · rw [if_pos hlen]
        exact .inl ⟨vm, rfl, h.toPending⟩
      rw [if_neg hlen]
      generalize hph : Proghdr.ofBytes bs = ph
      have hvaddr : ph.vaddr < 2 ^ 32 := by rw [← hph]; exact load_lt _ _
      have hmemsz : ph.memsz < 2 ^ 32 := by rw [← hph]; exact load_lt _ _
      have hoff : ph.off < 2 ^ 32 := by rw [← hph]; exact load_lt _ _
      by_cases htype : ph.type = ELF_PROG_LOAD
      swap
      · rw [if_pos htype, if_neg htype]
        exact ih _ vm h
      rw [if_neg (not_not.2 htype), if_pos htype]
      by_cases hfile : ph.memsz < ph.filesz
      · rw [if_pos hfile]
        exact .inl ⟨vm, rfl, h.toPending⟩
      rw [if_neg hfile]
      by_cases hwrap : (ph.vaddr + ph.memsz) % 2 ^ 32 < ph.vaddr
      · rw [if_pos hwrap]
        exact .inl ⟨vm, rfl, h.toPending⟩
      have hsum : (ph.vaddr + ph.memsz) % 2 ^ 32 = ph.vaddr + ph.memsz := by omega
      rw [if_neg hwrap, hsum]
      rcases h.allocuvm hk hdata hfree hnd (ph.vaddr + ph.memsz) with ⟨vm₁, hvm₁, hp⟩ | ⟨vm₁, hvm₁, hb⟩
      · rw [hvm₁, ok_bind]
        exact .inl ⟨vm₁, rfl, hp⟩
      rw [hvm₁, ok_bind]
      dsimp only
      by_cases hzero : max sz (ph.vaddr + ph.memsz) = 0
      · rw [if_pos hzero]
        exact .inl ⟨vm₁, rfl, hb.toPending⟩
      rw [if_neg hzero]
      by_cases hal : ph.vaddr % PGSIZE ≠ 0
      · rw [if_pos hal]
        exact .inl ⟨vm₁, rfl, hb.toPending⟩
      rw [if_neg hal]
      obtain ⟨vm₂, ok, hvm₂, hp, hb₂⟩ := hb.loaduvm hfree hnd file (not_not.1 hal) (show ph.vaddr + ph.filesz ≤ _ by omega) hoff
      rw [hvm₂, ok_bind]
      cases ok with
      | false => exact .inl ⟨vm₂, rfl, hp⟩
      | true => exact ih _ vm₂ (hb₂ rfl)

/-! ### The guard page -/

/-- The page of `a` is no longer a user page. -/
structure Guarded (a : Nat) (vm vm' : Vm) : Prop where
  pte : ∀ vb < 2 ^ 32, vm'.dir.pte vb = if a / PGSIZE = vb / PGSIZE then (vm.dir.pte vb).clearU else vm.dir.pte vb
  tables : ∀ i, vm'.dir.tableFrame i = vm.dir.tableFrame i
  free : vm'.free = vm.free
  mem : vm'.mem = vm.mem

theorem clearpteu_ok {a : Nat} (vm : Vm) (ha : a < KERNBASE) (hp : vm.dir.present a = true) :
    ∃ vm', vm.clearpteu a = .ok vm' ∧ Guarded a vm vm' := by
  have hsome := PgDir.isSome_of_present hp
  obtain ⟨e, he⟩ := Option.isSome_iff_exists.1 hsome
  refine ⟨{ vm with dir := vm.dir.setEntry a e.clearU }, by rw [Vm.clearpteu, he], fun vb hb => ?_, fun i => PgDir.frame_setEntry .., rfl, rfl⟩
  show (vm.dir.setEntry a e.clearU).pte vb = _
  rw [PgDir.pte_setEntry (by unfold KERNBASE at ha; omega) hb hsome]
  split
  · next hpage => rw [← PgDir.pte_congr hpage, PgDir.pte_of_entryAt he]
  · rfl

namespace Guarded

variable {a : Nat}

theorem present (h : Guarded a vm vm') {va : Nat} (hva : va < 2 ^ 32) : vm'.dir.present va = vm.dir.present va := by
  rw [PgDir.present_eq_pte, PgDir.present_eq_pte, h.pte va hva]
  split
  · exact Pte.present_clearU _
  · rfl

theorem addr (h : Guarded a vm vm') {va : Nat} (hva : va < 2 ^ 32) : PTE_ADDR (vm'.dir.pte va) = PTE_ADDR (vm.dir.pte va) := by
  rw [h.pte va hva]
  split
  · exact PTE_ADDR_clearU _
  · rfl

theorem byteAt (h : Guarded a vm vm') {va : Nat} (hva : va < 2 ^ 32) : vm'.byteAt va = vm.byteAt va := by
  rw [Vm.byteAt, Vm.byteAt, h.addr hva, h.mem]

theorem owned (h : Guarded a vm vm') : vm'.owned = vm.owned := by
  have hframes : vm'.dir.frames 0 KERNBASE = vm.dir.frames 0 KERNBASE := by
    refine PgDir.frames_congr (Nat.zero_mod _) fun va hr => ?_
    have hva : va < 2 ^ 32 := by have := inRange_kernbase.1 hr; unfold KERNBASE at this; omega
    rw [PgDir.frameAt, PgDir.frameAt, h.present hva, h.addr hva]
  rw [Vm.owned, Vm.owned, hframes, PgDir.tableFrames_congr h.tables, h.free]

end Guarded

theorem PgDir.tables_eq {d : PgDir} {i : Nat} : d.tables i = (d.tableFrame i).isSome := by
  rw [PgDir.tables, PgDir.tableFrame, Option.isSome_map]

theorem KernelPart.congr {d d' : PgDir} (h : KernelPart data d) (hdata : DataOk data)
    (hpte : ∀ va < 2 ^ 32, KERNBASE ≤ va → d'.pte va = d.pte va) (htab : ∀ i, d'.tables i = d.tables i) : KernelPart data d' := by
  refine ⟨fun k hk va hin => ?_, fun va hva hlo hn => by rw [hpte va hva hlo, h.out va hva hlo hn], fun i hlo hi => ?_⟩
  · have hrow := rowOk_kmap hdata k hk
    have hva : va < 2 ^ 32 ∧ KERNBASE ≤ va := by
      have := hrow.high
      have := hrow.low
      unfold Between at hin
      omega
    obtain ⟨hrow, htable⟩ := h.row k hk va hin
    exact ⟨by rw [hpte va hva.1 hva.2, hrow], by rw [htab, htable]⟩
  · rw [htab] at hi
    exact h.tables i hlo hi

/-- The finished image: below `sz` there are the stack page, the guard page and the pages of the program. -/
structure Ready (data : Nat) (vm₀ vm : Vm) (d sz : Nat) (m : Nat → UInt8) : Prop extends Pending vm₀ vm d where
  lt : sz < KERNBASE
  two : 2 * PGSIZE ≤ sz
  aligned : sz % PGSIZE = 0
  present : ∀ va < KERNBASE, vm.dir.present va = true ↔ va < sz
  kernel : KernelPart data vm.dir
  user : ∀ va < sz, (vm.dir.pte va).user = true ↔ ¬ Between (sz - 2 * PGSIZE) (sz - PGSIZE) va
  bytes : ∀ va < sz, vm.byteAt va = m va

theorem Building.ready (h : Building data vm₀ vm d (sz + 2 * PGSIZE) m) (hdata : DataOk data) (hal : sz % PGSIZE = 0)
    (hg : Guarded sz vm vm') : Ready data vm₀ vm' d (sz + 2 * PGSIZE) m := by
  have hlt := h.lt
  have hround : PGROUNDUP (sz + 2 * PGSIZE) = sz + 2 * PGSIZE := by rw [PGROUNDUP_of_lt hlt]; unfold PGSIZE at *; omega
  have h32 : ∀ {va}, va < sz + 2 * PGSIZE → va < 2 ^ 32 := fun hva => by unfold KERNBASE at hlt; omega
  have hexact := h.exact
  have huser := h.user
  have hbytes := h.bytes
  unfold ExactPages at hexact
  rw [hround] at hexact huser hbytes
  refine ⟨⟨by rw [hg.owned]; exact h.owned, fun p hp => by rw [hg.mem, h.mem p hp]⟩, hlt, by omega, by unfold PGSIZE at *; omega,
    fun va hva => ?_, h.kernel.congr hdata (fun va hva hlo => ?_) (fun i => ?_), fun va hva => ?_, fun va hva => ?_⟩
  · rw [hg.present (by unfold KERNBASE at hva; omega)]
    exact hexact va hva
  · rw [hg.pte va hva, if_neg (by unfold PGSIZE KERNBASE at *; omega)]
  · rw [PgDir.tables_eq, PgDir.tables_eq, hg.tables]
  · rw [hg.pte va (h32 hva)]
    unfold Between
    split
    · next hpage =>
      rw [Pte.user_clearU]
      exact iff_of_false nofun (by unfold PGSIZE at *; omega)
    · next hpage => exact iff_of_true (huser va hva) (by unfold PGSIZE at *; omega)
  · rw [hg.byteAt (h32 hva), hbytes va hva]

end

theorem allocNeed_le (tables : Nat → Bool) (n a : Nat) : allocNeed tables n a ≤ 2 * n := by
  induction n generalizing tables a with
  | zero => exact Nat.zero_le _
  | succ n ih =>
    have := ih (Function.update tables (PDX a) true) (a + PGSIZE)
    rw [allocNeed]
    split <;> omega

/-! ### The first half of `exec` -/

def elfhdr (file : List UInt8) : Elfhdr := Elfhdr.ofBytes (file.take ELFHDR)

def segments (file : List UInt8) : List Proghdr := loadable file (elfhdr file).phnum (elfhdr file).phoff

def imageSize (file : List UInt8) : Nat := PGROUNDUP (segmentsEnd (segments file) 0) + 2 * PGSIZE

def imageBytes (file : List UInt8) : Nat → UInt8 := segmentBytes file (segments file) fun _ => 0

section
variable {data : Nat} {vm₀ : Vm} (hk : 0 < kend) (hdata : DataOk data) (hfree : ∀ p ∈ vm₀.free, Frame kend p) (hnd : vm₀.free.Nodup)
include hk hfree

theorem bad_ok {α : Type} {d : Nat} (h : Pending vm₀ vm d) : ∃ vm', vm.bad kend (α := α) d = .ok (vm', none) ∧ GivenBack vm₀ vm' := by
  obtain ⟨vm', hvm', hback⟩ := h.freevm hfree hk
  exact ⟨vm', by rw [Vm.bad, hvm', ok_bind], hback⟩

include hdata hnd

theorem addStack_spec {d sz : Nat} {m : Nat → UInt8} (h : Building data vm₀ vm d sz m) (entry : Nat) :
    let res : Except Halt (Vm × Option Vm.Image) := do
      let (vm, sz) ← vm.allocuvm kend (PGROUNDUP sz) ((PGROUNDUP sz + 2 * PGSIZE) % 2 ^ 32)
      if sz = 0 then vm.bad kend d
      else do
        let vm ← vm.clearpteu (sz - 2 * PGSIZE)
        .ok (vm, some ⟨d, sz, entry⟩)
    (∃ vm', res = .ok (vm', none) ∧ GivenBack vm₀ vm') ∨
      ∃ vm' d, res = .ok (vm', some ⟨d, PGROUNDUP sz + 2 * PGSIZE, entry⟩) ∧ Ready data vm₀ vm' d (PGROUNDUP sz + 2 * PGSIZE) m := by
  intro res
  have hround := PGROUNDUP_le h.lt
  have hal := PGROUNDUP_aligned sz
  have hsum : (PGROUNDUP sz + 2 * PGSIZE) % 2 ^ 32 = PGROUNDUP sz + 2 * PGSIZE := Nat.mod_eq_of_lt (by unfold KERNBASE PGSIZE at *; omega)
  have hfail : ∀ vm₁, vm.allocuvm kend (PGROUNDUP sz) (PGROUNDUP sz + 2 * PGSIZE) = .ok (vm₁, 0) → Pending vm₀ vm₁ d →
      ∃ vm', res = .ok (vm', none) ∧ GivenBack vm₀ vm' := by
    intro vm₁ hvm₁ hp
    obtain ⟨vm', hvm', hback⟩ := bad_ok (α := Vm.Image) hk hfree hp
    refine ⟨vm', ?_, hback⟩
    unfold res
    rw [hsum, hvm₁, ok_bind]
    exact hvm'
  rcases Nat.lt_or_ge (PGROUNDUP sz + 2 * PGSIZE) KERNBASE with hlt | hbig
  swap
  · exact .inl (hfail vm (by rw [Vm.allocuvm, if_pos hbig]) h.toPending)
  rcases (h.round (by omega)).allocuvm hk hdata hfree hnd (PGROUNDUP sz + 2 * PGSIZE) with ⟨vm₁, hvm₁, hp⟩ | ⟨vm₁, hvm₁, hb⟩
  · exact .inl (hfail vm₁ hvm₁ hp)
  rw [Nat.max_eq_right (by omega)] at hvm₁ hb
  have hpres : vm₁.dir.present (PGROUNDUP sz) = true :=
    (hb.exact _ (by omega)).2 (Nat.lt_of_lt_of_le (by unfold PGSIZE; omega) (PGROUNDUP_le hlt).1)
  obtain ⟨vm', hvm', hg⟩ := clearpteu_ok vm₁ (by omega) hpres
  refine .inr ⟨vm', d, ?_, hb.ready hdata hal hg⟩
  unfold res
  rw [hsum, hvm₁, ok_bind]
  dsimp only
  rw [if_neg (by unfold PGSIZE; omega), Nat.add_sub_cancel, hvm', ok_bind]

/-- `exec` has built the image that the file describes, or it has given all pages back. -/
theorem buildImage_spec (file : List UInt8) :
    (∃ vm', vm₀.buildImage kend data file = .ok (vm', none) ∧ GivenBack vm₀ vm') ∨
      ∃ vm' d, vm₀.buildImage kend data file = .ok (vm', some ⟨d, imageSize file, (elfhdr file).entry⟩) ∧
        Ready data vm₀ vm' d (imageSize file) (imageBytes file) := by
  have hsame : GivenBack vm₀ vm₀ := ⟨.refl _, fun _ _ => rfl⟩
  unfold Vm.buildImage
  cases hr : readiBytes file 0 ELFHDR with
  | none => exact .inl ⟨vm₀, rfl, hsame⟩
  | some bs =>
    have hbs : bs = file.take ELFHDR := (readiBytes_some hr).1
    dsimp only
    split
    · exact .inl ⟨vm₀, rfl, hsame⟩
    split
    · exact .inl ⟨vm₀, rfl, hsame⟩
    rw [hbs]
    change (∃ vm', (vm₀.setupkvm kend data >>= _) = _ ∧ _) ∨ ∃ vm' d, (vm₀.setupkvm kend data >>= _) = _ ∧ _
    rcases setupkvm_spec hk hdata hfree with ⟨vm₁, d, hvm₁, hd0, hbuilt, hempty⟩ | ⟨vm₁, hvm₁, hback, -⟩
    swap
    · rw [hvm₁, ok_bind]
      exact .inl ⟨vm₁, rfl, hback⟩
    rw [hvm₁, ok_bind]
    dsimp only
    rw [if_neg hd0]
    rcases loadSegments_spec hk hdata hfree hnd file (elfhdr file).phnum (elfhdr file).phoff vm₁ (.start hbuilt hempty)
      with ⟨vm₂, hvm₂, hp⟩ | ⟨vm₂, hvm₂, hb⟩
    · obtain ⟨vm', hvm', hback⟩ := bad_ok (α := Vm.Image) hk hfree hp
      rw [elfhdr] at hvm₂
      exact .inl ⟨vm', by rw [hvm₂, ok_bind]; exact hvm', hback⟩
    · have hstack := addStack_spec hk hdata hfree hnd hb (elfhdr file).entry
      rw [elfhdr] at hvm₂
      rw [hvm₂, ok_bind]
      exact hstack

theorem buildImage_bare {file : List UInt8} (hlen : ELFHDR ≤ file.length) (hmagic : (elfhdr file).magic = ELF_MAGIC)
    (hphnum : (elfhdr file).phnum = 0) (hmany : NPDENTRIES + 5 ≤ vm₀.free.length) :
    ∃ vm' im, vm₀.buildImage kend data file = .ok (vm', some im) := by
  have hread : readiBytes file 0 ELFHDR = some (file.take ELFHDR) := by
    unfold readiBytes
    rw [if_neg (by omega), List.drop_zero]
  unfold Vm.buildImage
  rw [hread]
  dsimp only
  rw [if_neg (not_not.2 (List.length_take_of_le hlen)), ← elfhdr, if_neg (not_not.2 hmagic), hphnum]
  rcases setupkvm_spec hk hdata hfree with ⟨vm₁, d, hvm₁, hd0, hbuilt, hempty⟩ | ⟨vm₁, -, -, hfew⟩
  swap
  · omega
  have hb : Building data vm₀ vm₁ d 0 fun _ => 0 := .start hbuilt hempty
  have hneed : growNeed vm₁.dir 0 (2 * PGSIZE) ≤ vm₁.free.length := by
    have hcount : growNeed vm₁.dir 0 (2 * PGSIZE) ≤ 2 * 2 := allocNeed_le _ 2 _
    have howned := hbuilt.owned.length_eq
    have htables := PgDir.length_tableFrames_le vm₁.dir
    rw [List.length_cons, owned_kernelOnly hempty, List.length_append] at howned
    omega
  have huser : UserSpace kend vm₁.dir 0 := ⟨hb.lt, hb.exact, (hb.sound hfree hnd).good⟩
  obtain ⟨vm₂, hvm₂, ha⟩ := (allocuvm_spec hk (fun p hp => (hb.sound hfree hnd).free hp) (by decide : 0 < 2 * PGSIZE) (by decide)
    (huser.below.absent (by decide))).1 hneed
  have hpres : vm₂.dir.present 0 = true := ((huser.filled (by decide) (Nat.zero_le _) ha.filled).present (by decide)).1
  obtain ⟨vm₃, hvm₃, -⟩ := clearpteu_ok vm₂ (by decide) hpres
  refine ⟨vm₃, ⟨d, 2 * PGSIZE, (elfhdr file).entry⟩, ?_⟩
  rw [hvm₁, ok_bind]
  dsimp only
  rw [if_neg hd0, Vm.loadSegments, ok_bind]
  dsimp only
  rw [PGROUNDUP_zero, Nat.zero_add, show 2 * PGSIZE % 2 ^ 32 = 2 * PGSIZE from rfl, hvm₂, ok_bind]
  dsimp only
  rw [if_neg (by decide), Nat.sub_self, hvm₃, ok_bind]

end

def bareElf : List UInt8 := [0x7f, 0x45, 0x4c, 0x46] ++ List.replicate 48 0

/-- Two thousand free pages. -/
@[irreducible]
def manyPages : List Nat := (List.range 2000).map fun i => 0x9000000 + i * PGSIZE

theorem mem_manyPages {p : Nat} (hp : p ∈ manyPages) : p % PGSIZE = 0 ∧ 0x9000000 ≤ p ∧ p < PHYSTOP := by
  unfold manyPages at hp
  obtain ⟨i, hi, rfl⟩ := List.mem_map.1 hp
  have := List.mem_range.1 hi
  unfold PGSIZE PHYSTOP
  omega

theorem nodup_manyPages : manyPages.Nodup := by
  unfold manyPages
  refine List.Nodup.map (fun i j hij => ?_) List.nodup_range
  unfold PGSIZE at hij
  omega

theorem frame_manyPages : ∀ p ∈ manyPages, Frame 0x200000 p := by
  intro p hp
  obtain ⟨h1, h2, h3⟩ := mem_manyPages hp
  exact ⟨h1, by omega, h3⟩

theorem dataOk_bare : DataOk 0x108000 := ⟨by decide, by decide, by decide⟩

theorem length_manyPages : manyPages.length = 2000 := by
  unfold manyPages
  rw [List.length_map, List.length_range]

theorem buildImage_bareElf (hvm : vm.free = manyPages) : ∃ vm' im, vm.buildImage 0x200000 0x108000 bareElf = .ok (vm', some im) := by
  refine buildImage_bare (by decide) dataOk_bare ?_ ?_ (by decide) (by decide) (by decide) ?_
  · rw [hvm]; exact frame_manyPages
  · rw [hvm]; exact nodup_manyPages
  · rw [hvm, length_manyPages]; decide

theorem imageSize_bareElf : imageSize bareElf = 2 * PGSIZE := by decide

/-! ### From `exec` to `freevm` -/

/-- The calls of `sbrk` of a process with size `sz`. -/
def Vm.sbrks (kend : Nat) (vm : Vm) (sz : Nat) : List Int → Except Halt (Vm × Nat)
  | [] => .ok (vm, sz)
  | n :: ns => do
    let (vm, sz, _) ← vm.growproc kend sz n
    sbrks kend vm sz ns

section
variable {data d sz : Nat} {vm₀ : Vm} {n : Int} (hk : 0 < kend) (hfree : ∀ p ∈ vm₀.free, Frame kend p)
include hk hfree

theorem Pending.growproc (h : Pending vm₀ vm d) (hu : UserBelow kend vm.dir sz) (hn : -2 ^ 31 ≤ n ∧ n < 2 ^ 31) :
    ∃ vm' sz' ret, vm.growproc kend sz n = .ok (vm', sz', ret) ∧ Pending vm₀ vm' d ∧ UserBelow kend vm'.dir sz' := by
  have hlt := hu.lt
  unfold Vm.growproc
  rcases lt_trichotomy n 0 with hneg | rfl | hpos
  · rw [if_neg (by omega), if_pos hneg]
    by_cases hwrap : sz ≤ toUint32 (sz + n)
    · rw [Vm.deallocuvm, if_pos hwrap, ok_bind]
      dsimp only
      split
      · exact ⟨vm, sz, -1, rfl, h, hu⟩
      · exact ⟨vm, sz, 0, rfl, h, hu⟩
    · rw [not_le] at hwrap
      obtain ⟨vm', hvm', hd⟩ := deallocuvm_ok hk hlt.le hwrap (hu.good.frames (PGROUNDUP_aligned _) hlt.le)
      have hpend : Pending vm₀ vm' d := by
        refine ⟨(hd.owned.cons d).trans h.owned, fun p hp => ?_⟩
        rw [hd.mem p fun hp' => hp (h.mem_free (hd.owned.subset (mem_owned_of_free ?_))), h.mem p hp]
        rw [hd.free, List.mem_append, List.mem_reverse]
        exact .inl hp'
      have hbelow := hu.emptied hwrap.le hd.cleared.emptied
      rw [hvm', ok_bind]
      dsimp only
      split
      · exact ⟨vm', sz, -1, rfl, hpend, hlt, fun va hva hp => (hbelow.below va hva hp).trans_le (PGROUNDUP_mono hlt hwrap.le), hbelow.good⟩
      · exact ⟨vm', _, 0, rfl, hpend, hbelow⟩
  · exact ⟨vm, sz, 0, rfl, h, hu⟩
  · have hnew : toUint32 (sz + n) = (sz + n).toNat := toUint32_of_nonneg (by omega) (by unfold KERNBASE at hlt; omega)
    rw [if_pos hpos, hnew]
    by_cases hbig : KERNBASE ≤ (sz + n).toNat
    · rw [Vm.allocuvm, if_pos hbig]
      exact ⟨vm, sz, -1, rfl, h, hu⟩
    rw [not_le] at hbig
    have habs := hu.absent hbig
    rcases allocuvm_cases hk (by omega : sz ≤ (sz + n).toNat) hbig (fun p hp => hfree p (h.mem_free (mem_owned_of_free hp))) habs
      with ⟨vm', hvm', ha⟩ | ⟨vm', hvm', hr⟩
    · refine ⟨vm', (sz + n).toNat, 0, ?_, h.next ha.owned ha.mem, hu.filled hbig (by omega) ha.filled⟩
      rw [hvm', ok_bind]
      exact if_neg (by omega)
    · refine ⟨vm', sz, -1, by rw [hvm']; rfl, h.next hr.owned fun p hp => ?_, hu.samePages (hr.emptied.samePages habs)⟩
      exact hr.mem_of_absent (PGROUNDUP_aligned _) hbig.le habs hp

theorem Pending.sbrks {ns : List Int} (h : Pending vm₀ vm d) (hu : UserBelow kend vm.dir sz) (hns : ∀ n ∈ ns, -2 ^ 31 ≤ n ∧ n < 2 ^ 31) :
    ∃ vm' sz', vm.sbrks kend sz ns = .ok (vm', sz') ∧ Pending vm₀ vm' d ∧ UserBelow kend vm'.dir sz' := by
  induction ns generalizing vm sz with
  | nil => exact ⟨vm, sz, rfl, h, hu⟩
  | cons n ns ih =>
    obtain ⟨hn, hns⟩ := List.forall_mem_cons.1 hns
    obtain ⟨vm₁, sz₁, ret, hvm₁, h₁, hu₁⟩ := h.growproc hk hfree hu hn
    rw [Vm.sbrks, hvm₁, ok_bind]
    exact ih h₁ hu₁ hns

/-- No page is lost: a process that `exec` has given an image may call `sbrk` as it likes, none of the calls panics, and `freevm` then
gives back the pages that were free before `exec`, and has written to no other. -/
theorem freevm_sbrks {file : List UInt8} {im : Vm.Image} {ns : List Int} (hdata : DataOk data) (hnd : vm₀.free.Nodup)
    (him : vm₀.buildImage kend data file = .ok (vm, some im)) (hns : ∀ n ∈ ns, -2 ^ 31 ≤ n ∧ n < 2 ^ 31) :
    ∃ vm₁ sz vm', vm.sbrks kend im.sz ns = .ok (vm₁, sz) ∧ (∀ va < KERNBASE, vm₁.dir.present va = true → va < PGROUNDUP sz) ∧
      vm₁.freevm kend im.pgdir = .ok vm' ∧ vm'.free.Perm vm₀.free ∧ ∀ p ∉ vm₀.free, vm'.mem p = vm₀.mem p := by
  rcases buildImage_spec hk hdata hfree hnd file with ⟨vm', hnone, -⟩ | ⟨vm', d, hsome, hready⟩
  · rw [him] at hnone
    cases hnone
  · rw [him] at hsome
    cases hsome
    have hround : imageSize file = PGROUNDUP (imageSize file) := by
      have hal := hready.aligned
      rw [PGROUNDUP_of_lt hready.lt]
      unfold PGSIZE at *
      omega
    have hu : UserBelow kend vm.dir (imageSize file) :=
      ⟨hready.lt, fun va hva hp => hround ▸ (hready.present va hva).1 hp, (hready.sound hfree hnd).good⟩
    obtain ⟨vm₁, sz, hvm₁, h₁, hu₁⟩ := hready.sbrks hk hfree hu hns
    obtain ⟨vm', hvm', hback⟩ := h₁.freevm hfree hk
    exact ⟨vm₁, sz, vm', hvm₁, hu₁.below, hvm', hback.free, hback.mem⟩

end

theorem freevm_sbrks_bareElf : ∃ vm im vm₁ sz vm', (singleVm manyPages).buildImage 0x200000 0x108000 bareElf = .ok (vm, some im) ∧
    vm.sbrks 0x200000 im.sz [70000, -5000] = .ok (vm₁, sz) ∧ vm₁.freevm 0x200000 im.pgdir = .ok vm' ∧ vm'.free.Perm manyPages := by
  obtain ⟨vm, im, him⟩ := buildImage_bareElf (show (singleVm manyPages).free = manyPages from rfl)
  obtain ⟨vm₁, sz, vm', hvm₁, -, hvm', hfree, -⟩ := freevm_sbrks (by decide) frame_manyPages dataOk_bare nodup_manyPages him
    (show ∀ n ∈ [70000, -5000], _ from by decide)
  exact ⟨vm, im, vm₁, sz, vm', him, hvm₁, hvm', hfree⟩

end Ostep.Xv6
