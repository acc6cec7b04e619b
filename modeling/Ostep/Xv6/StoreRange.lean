import Ostep.Xv6.ProcSpec
import Ostep.Xv6.Syscall

/-!
# Where the calls store

`Within a n` bounds a list of stores by `n` bytes from `a`. The handlers that use `argptr` store within the
block that it has checked; `getpinfo` and `clone` take their pointer with `argint` and store wherever it says.
-/

namespace Ostep.Xv6

def Within (a n : Nat) (st : List (Nat × UInt8)) : Prop := ∀ x ∈ st, ∃ i < n, x.1 = (a + i) % 2 ^ 32

namespace Within

variable {a b n m : Nat} {st st' : List (Nat × UInt8)}

theorem nil : Within a n [] := fun _ h => by cases h

theorem append (h : Within a n st) (h' : Within a n st') : Within a n (st ++ st') := by
  intro x hx
  rcases List.mem_append.1 hx with hx | hx
  · exact h x hx
  · exact h' x hx

theorem shift {j : Nat} (h : Within (a + j) m st) (hj : j + m ≤ n) : Within a n st := by
  intro x hx
  obtain ⟨i, hi, he⟩ := h x hx
  exact ⟨j + i, by omega, by rw [he, Nat.add_assoc]⟩

theorem mono (h : Within a m st) (hn : m ≤ n) : Within a n st := shift (j := 0) h (by omega)

theorem cons {v : UInt8} (h : Within (a + 1) n st) : Within a (n + 1) ((a % 2 ^ 32, v) :: st) := by
  intro x hx
  rcases List.mem_cons.1 hx with rfl | hx
  · exact ⟨0, by omega, rfl⟩
  · exact shift h (by omega) x hx

theorem storeBytes (a : Nat) (bs : List UInt8) : Within a bs.length (storeBytes a bs) := by
  intro x hx
  obtain ⟨⟨v, i⟩, hv, rfl⟩ := List.mem_map.1 hx
  exact ⟨i, by simpa using List.snd_lt_of_mem_zipIdx hv, rfl⟩

theorem lt {sz : Nat} (h : Within a n st) (hsz : sz < KERNBASE) (hle : a + n ≤ sz) : ∀ x ∈ st, x.1 < sz := by
  intro x hx
  obtain ⟨i, hi, he⟩ := h x hx
  unfold KERNBASE at hsz
  omega

end Within

/-! ### The handlers that check -/

theorem within_pipeCopy (p : Pipe) (n addr : Nat) : Within addr n (pipeCopy p n addr) := by
  induction n generalizing p addr with
  | zero => exact .nil
  | succ n ih =>
    rw [pipeCopy]
    split
    · exact .nil
    · exact .cons (ih _ _)

theorem within_piperead (w : PipeWait) (addr n : Nat) : Within addr n (piperead w addr n).stores := by
  cases w with
  | killed => exact .nil
  | ready p => exact within_pipeCopy p n addr

theorem within_consoleCopy {dst₀ n₀ : Nat} (l : List Typed) {dst n done : Nat} {st : List (Nat × UInt8)}
    (hdst : dst = dst₀ + done) (hn : done + n = n₀) (hst : Within dst₀ done st) :
    Within dst₀ n₀ (consoleCopy l dst n done st).stores := by
  induction l generalizing dst n done st with
  | nil => cases n <;> exact hst.mono (by omega)
  | cons t l ih =>
    cases n with
    | zero => exact hst.mono (by omega)
    | succ n =>
      cases t with
      | killed => exact hst.mono (by omega)
      | char c =>
        have hone : Within dst₀ (done + 1) (st ++ [(dst % 2 ^ 32, c)]) := by
          refine (hst.mono (by omega)).append ?_
          rw [hdst]
          exact (Within.nil.cons (n := 0)).shift (by omega)
        rw [consoleCopy]
        split
        · exact hst.mono (by omega)
        · split
          · exact hone.mono (by omega)
          · exact ih (by omega) (by omega) hone

theorem within_readBlocks (data : Nat → UInt8) (fuel dst off n : Nat) :
    Within dst n (readBlocks data fuel dst off n) := by
  induction fuel generalizing dst off n with
  | zero => exact .nil
  | succ fuel ih =>
    rw [readBlocks]
    split
    · exact .nil
    · refine ((Within.storeBytes _ _).mono ?_).append ((ih _ _ _).shift ?_)
      · rw [List.length_map, List.length_range]; omega
      · omega

theorem within_readi (ip : Inode) (dst off n : Nat) : Within dst n (readi ip dst off n).stores := by
  unfold readi
  split
  · split
    · exact .nil
    · exact within_consoleCopy _ rfl (by omega) .nil
  · split
    · exact .nil
    · next h =>
      refine (within_readBlocks _ _ _ _ _).mono ?_
      split <;> omega

theorem within_fileread (f : File) (addr n : Nat) : Within addr n (fileread f addr n).stores := by
  unfold fileread
  split
  · exact .nil
  · split
    · exact within_piperead _ _ _
    · exact within_readi _ _ _ _
    · exact .nil

theorem within_filestat (f : File) (st : Nat) : Within st 20 (filestat f st).stores := by
  unfold filestat
  split
  · unfold stati
    refine Within.append (Within.append (Within.append (Within.append ?_ ?_) ?_) ?_) ?_
    · exact (Within.storeBytes _ _).shift (by simp)
    · exact (Within.storeBytes _ _).shift (by simp)
    · exact (Within.storeBytes _ _).mono (by simp)
    · exact (Within.storeBytes _ _).shift (by simp)
    · exact (Within.storeBytes _ _).shift (by simp)
  · exact .nil

section
variable {m : Caller}

theorem argint_range {n : Nat} {i : Int} (h : m.argint n = some i) : -2 ^ 31 ≤ i ∧ i < 2 ^ 31 := by
  unfold Caller.argint Caller.fetchint at h
  split at h
  · cases h
  · cases h
    unfold ofLe32 toInt32
    split <;> omega

theorem argptr_some {n : Nat} {size : Int} {p : Nat} (hsz : m.sz < KERNBASE) (hsize : size < 2 ^ 31)
    (h : m.argptr n size = some p) : m.rawptr n size = some p ∧ p + size.toNat ≤ m.sz := by
  unfold Caller.argptr at h
  split at h
  · cases h
  · next i hi =>
    split at h
    · cases h
    · next hok =>
      cases h
      refine ⟨by rw [Caller.rawptr, hi]; rfl, ?_⟩
      have := toUint32_lt i
      rw [show toUint32 size = size.toNat by unfold toUint32; omega] at hok
      unfold KERNBASE at hsz
      omega

/-- The call is refused, or it has checked the block that it stores into. -/
def Checked (m : Caller) (call : Sys) : Prop :=
  ((call.handler m m.argptr).ret = some (-1) ∧ (call.handler m m.argptr).stores = []) ∨
    (call.handler m m.argptr = call.handler m m.rawptr ∧
      ∃ p n, p + n ≤ m.sz ∧ Within p n (call.handler m m.argptr).stores)

theorem checked_read (hsz : m.sz < KERNBASE) : Checked m .read := by
  unfold Checked Sys.handler Caller.sysRead
  cases hf : m.argfd 0 with
  | none => exact .inl ⟨rfl, rfl⟩
  | some f =>
    cases hn : m.argint 2 with
    | none => exact .inl ⟨rfl, rfl⟩
    | some n =>
      cases hp : m.argptr 1 n with
      | none => exact .inl ⟨by simp only [hp], by simp only [hp]⟩
      | some p =>
        obtain ⟨hraw, hle⟩ := argptr_some hsz (argint_range hn).2 hp
        refine .inr ⟨by simp only [hp, hraw], p, n.toNat, hle, ?_⟩
        simp only [hp]
        exact within_fileread f p n.toNat

theorem checked_fstat (hsz : m.sz < KERNBASE) : Checked m .fstat := by
  unfold Checked Sys.handler Caller.sysFstat
  cases hf : m.argfd 0 with
  | none => exact .inl ⟨rfl, rfl⟩
  | some f =>
    cases hp : m.argptr 1 20 with
    | none => exact .inl ⟨rfl, rfl⟩
    | some p =>
      obtain ⟨hraw, hle⟩ := argptr_some hsz (by decide) hp
      exact .inr ⟨by rw [hraw], p, 20, hle, within_filestat f p⟩

theorem checked_pipe (hsz : m.sz < KERNBASE) : Checked m .pipe := by
  unfold Checked Sys.handler Caller.sysPipe
  cases hp : m.argptr 0 8 with
  | none => exact .inl ⟨rfl, rfl⟩
  | some p =>
    obtain ⟨hraw, hle⟩ := argptr_some hsz (by decide) hp
    refine .inr ⟨by rw [hraw], p, 8, hle, ?_⟩
    cases m.newPipe with
    | none => exact .nil
    | some fs =>
      dsimp only
      split
      · exact .nil
      · split
        · exact .nil
        · exact ((Within.storeBytes _ _).mono (by simp)).append ((Within.storeBytes _ _).shift (by simp))

/-! ### All five -/

/-- Every byte stored lies in the caller's memory, and a call that would store one elsewhere returns -1
with nothing stored. -/
structure StoresSafe (m : Caller) (call : Sys) : Prop where
  inside : ∀ x ∈ (call.handler m m.argptr).stores, x.1 < m.sz
  refused : (∃ x ∈ (call.handler m m.rawptr).stores, m.sz ≤ x.1) →
    (call.handler m m.argptr).ret = some (-1) ∧ (call.handler m m.argptr).stores = []

theorem Checked.storesSafe {call : Sys} (hsz : m.sz < KERNBASE) (h : Checked m call) : StoresSafe m call := by
  rcases h with ⟨hret, hst⟩ | ⟨heq, p, n, hle, hw⟩
  · exact ⟨by rw [hst]; nofun, fun _ => ⟨hret, hst⟩⟩
  · have hlt := hw.lt hsz hle
    refine ⟨hlt, fun ⟨x, hx, hge⟩ => ?_⟩
    rw [← heq] at hx
    have := hlt x hx
    omega

/-- The word at `a`, in 32-bit arithmetic, lies in the caller's memory. -/
def WordIn (sz a : Nat) : Prop := a % 2 ^ 32 + 4 ≤ sz

instance (sz a : Nat) : Decidable (WordIn sz a) := inferInstanceAs (Decidable (_ ≤ _))

theorem storeBytes_word_lt {sz a : Nat} {bs : List UInt8} (hsz : sz < KERNBASE) (hlen : bs.length = 4) :
    (∀ x ∈ storeBytes a bs, x.1 < sz) ↔ WordIn sz a := by
  unfold WordIn KERNBASE at *
  constructor
  · intro h
    have hmem : ∀ i < 4, (a + i) % 2 ^ 32 < sz := by
      intro i hi
      have hb : i < bs.length := by omega
      exact h ((a + i) % 2 ^ 32, bs[i]) (List.mem_map.2 ⟨(bs[i], i), by simp [List.mem_zipIdx_iff_getElem?, hb], rfl⟩)
    have := hmem 0 (by omega)
    have := hmem 3 (by omega)
    omega
  · intro h x hx
    obtain ⟨i, hi, he⟩ := Within.storeBytes a bs x hx
    omega

theorem storesSafe_iff_inside {call : Sys} (h : call.handler m m.argptr = call.handler m m.rawptr) :
    StoresSafe m call ↔ ∀ x ∈ (call.handler m m.argptr).stores, x.1 < m.sz := by
  refine ⟨fun hs => hs.inside, fun hin => ⟨hin, ?_⟩⟩
  rintro ⟨x, hx, hge⟩
  rw [← h] at hx
  have := hin x hx
  omega

/-- What a call has to be given for its stores to be safe: nothing where `argptr` checks the pointer; for
`getpinfo`, the words of every slot in use; for `clone`, when it gets a slot and a kernel stack, the three words
at the top of the page at `stack`. -/
def PointerOk (m : Caller) : Sys → Prop
  | .read | .fstat | .pipe => True
  | .getpinfo => ∀ ps, m.argint 0 = some ps → ∀ p : Slot, (m.k.proc p).state ≠ .UNUSED →
      ∀ arr ∈ [Caller.pstatInuse, Caller.pstatTickets, Caller.pstatPid, Caller.pstatTicks],
        WordIn m.sz (toUint32 ps + arr + 4 * p)
  | .clone => (m.argint 0).isSome → (m.argint 1).isSome → (m.argint 2).isSome → ∀ stack, m.argint 3 = some stack →
      (∃ p, (m.k.proc p).state = .UNUSED) → m.kstack ≠ 0 → (toUint32 stack + 4084) % 2 ^ 32 + 12 ≤ m.sz

theorem storesSafe_getpinfo (hsz : m.sz < KERNBASE) : StoresSafe m .getpinfo ↔ PointerOk m .getpinfo := by
  rw [storesSafe_iff_inside rfl]
  show (∀ x ∈ m.sysGetpinfo.stores, x.1 < m.sz) ↔ _
  unfold Caller.sysGetpinfo PointerOk
  cases m.argint 0 with
  | none => simp
  | some ps =>
    simp only [Option.some.injEq, forall_eq', Caller.getpstat, List.mem_flatMap, List.mem_finRange, true_and,
      forall_exists_index]
    rw [forall_comm]
    refine forall_congr' fun p => ?_
    by_cases hu : (m.k.proc p).state = .UNUSED
    · simp [hu]
    · rw [if_neg hu]
      simp only [List.forall_mem_append, storeBytes_word_lt hsz (length_le32 _), List.forall_mem_cons, ne_eq, hu,
        not_false_eq_true, forall_const]
      tauto

theorem clone_words_iff {sz stack : Nat} (hsz : sz < KERNBASE) :
    (WordIn sz (stack + PGSIZE - 12) ∧ WordIn sz (stack + PGSIZE - 8)) ∧ WordIn sz (stack + PGSIZE - 4) ↔
      (stack + 4084) % 2 ^ 32 + 12 ≤ sz := by
  unfold WordIn PGSIZE KERNBASE at *
  omega

theorem storesSafe_clone (hsz : m.sz < KERNBASE) : StoresSafe m .clone ↔ PointerOk m .clone := by
  rw [storesSafe_iff_inside rfl]
  show (∀ x ∈ m.sysClone.stores, x.1 < m.sz) ↔ _
  unfold Caller.sysClone PointerOk
  cases m.argint 0 with
  | none => simp
  | some fcn =>
  cases m.argint 1 with
  | none => simp
  | some arg1 =>
  cases m.argint 2 with
  | none => simp
  | some arg2 =>
  cases m.argint 3 with
  | none => simp
  | some stack =>
  simp only [Option.isSome_some, forall_const, Option.some.injEq, forall_eq']
  rcases m.k.allocproc_cases m.kstack with ⟨ha, hnone⟩ | ⟨p, hp, ⟨hk, ha⟩ | ⟨hk, ha⟩⟩
  · rw [ha]
    exact iff_of_true nofun fun ⟨p, hp⟩ => absurd hp (hnone p)
  · rw [ha]
    exact iff_of_true nofun fun _ hk' => absurd hk hk'
  · rw [ha]
    simp only [List.forall_mem_append, storeBytes_word_lt hsz (length_le32 _)]
    rw [clone_words_iff hsz]
    exact ⟨fun h _ _ => h, fun h => h ⟨p, hp⟩ hk⟩

end

/-- Whatever the number, the arguments and the stack pointer of a call, its stores are safe exactly when it is
`read`, `fstat` or `pipe`, or its pointer satisfies `PointerOk`. -/
theorem storesSafe_iff {m : Caller} (hsz : m.sz < KERNBASE) (num : Int) :
    (∀ call, Sys.ofNum num = some call → StoresSafe m call) ↔ ∀ call, Sys.ofNum num = some call → PointerOk m call := by
  refine forall_congr' fun call => forall_congr' fun _ => ?_
  cases call with
  | read => exact iff_of_true ((checked_read hsz).storesSafe hsz) trivial
  | fstat => exact iff_of_true ((checked_fstat hsz).storesSafe hsz) trivial
  | pipe => exact iff_of_true ((checked_pipe hsz).storesSafe hsz) trivial
  | getpinfo => exact storesSafe_getpinfo hsz
  | clone => exact storesSafe_clone hsz

/-- A process of one page with nothing else in the table, and `ps` as the first argument on its stack at 0. -/
def oneCaller (ps : Nat) : Caller where
  k := boot.set 0 fun q => { q with state := .RUNNING, pid := 1, sz := 4096 }
  c := 0
  mem := fun a => UInt8.ofNat (ps / 256 ^ (a - 4))
  file := fun _ => ⟨.none, false⟩
  kstack := 0
  newPipe := none

theorem storesSafe_getpinfo_zero : StoresSafe (oneCaller 0) .getpinfo := by
  refine (storesSafe_iff (by decide) 24).2 ?_ .getpinfo rfl
  intro call hcall
  cases hcall
  intro ps hps p hp
  have h0 : p = 0 := by
    by_contra h
    simp [oneCaller, h, boot] at hp
  subst h0
  have hps0 : (oneCaller 0).argint 0 = some 0 := by decide
  cases hps0.symm.trans hps
  decide

/-- `getpinfo((struct pstat *) 0x80200000)` returns 0 and writes into kernel memory. -/
theorem not_storesSafe_getpinfo : (oneCaller 0x80200000).sysGetpinfo.ret = some 0 ∧
    ¬ StoresSafe (oneCaller 0x80200000) .getpinfo := by
  refine ⟨by decide, fun h => ?_⟩
  have hmem : ((0x80200000, 1) : Nat × UInt8) ∈ (oneCaller 0x80200000).sysGetpinfo.stores := by decide +kernel
  exact absurd (h.inside _ hmem) (by decide)

end Ostep.Xv6
