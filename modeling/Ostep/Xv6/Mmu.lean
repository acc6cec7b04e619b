import Ostep.Xv6.Proc

/-!
# Addresses and page-table entries (`src/mmu.h`, `src/memlayout.h`)

Addresses are 32-bit words, kept as natural numbers; an entry of a page table is a `BitVec 32`. The macros
that mask low bits (`PGROUNDUP`, `PTE_ADDR` and so on) are written with division.
-/

namespace Ostep.Xv6

def EXTMEM : Nat := 0x100000
def PHYSTOP : Nat := 0xE000000
def DEVSPACE : Nat := 0xFE000000
def KERNBASE : Nat := 0x80000000
def KERNLINK : Nat := KERNBASE + EXTMEM

def PGROUNDUP (a : Nat) : Nat := (a + PGSIZE - 1) % 2 ^ 32 / PGSIZE * PGSIZE
def PGROUNDDOWN (a : Nat) : Nat := a / PGSIZE * PGSIZE

def PDX (va : Nat) : Nat := va / 2 ^ 22 % 1024
def PTX (va : Nat) : Nat := va / 2 ^ 12 % 1024

/-- `PGADDR(d, 0, 0)`. -/
def PGADDR (d : Nat) : Nat := d * 2 ^ 22 % 2 ^ 32

abbrev Pte := BitVec 32

def PTE_P : Pte := 1
def PTE_W : Pte := 2
def PTE_U : Pte := 4

def PTE_ADDR (e : Pte) : Nat := e.toNat / PGSIZE * PGSIZE

def PTE_FLAGS (e : Pte) : Pte := e &&& 0xFFF

namespace Pte

def present (e : Pte) : Bool := e &&& PTE_P ≠ 0
def writable (e : Pte) : Bool := e &&& PTE_W ≠ 0
def user (e : Pte) : Bool := e &&& PTE_U ≠ 0

/-- `pa | perm | PTE_P`. -/
def mk (pa : Nat) (perm : Pte) : Pte := BitVec.ofNat 32 pa ||| perm ||| PTE_P

theorem mk_congr {pa pa' : Nat} (h : pa % 2 ^ 32 = pa' % 2 ^ 32) (perm : Pte) : mk pa perm = mk pa' perm := by
  have : BitVec.ofNat 32 pa = BitVec.ofNat 32 pa' := BitVec.eq_of_toNat_eq (by rw [BitVec.toNat_ofNat, BitVec.toNat_ofNat, h])
  rw [mk, mk, this]

theorem present_eq (e : Pte) : present e = e.getLsbD 0 := by
  rw [present, show PTE_P = BitVec.twoPow 32 0 from rfl, BitVec.and_twoPow]
  cases e.getLsbD 0 <;> decide

theorem writable_eq (e : Pte) : writable e = e.getLsbD 1 := by
  rw [writable, show PTE_W = BitVec.twoPow 32 1 from rfl, BitVec.and_twoPow]
  cases e.getLsbD 1 <;> decide

theorem user_eq (e : Pte) : user e = e.getLsbD 2 := by
  rw [user, show PTE_U = BitVec.twoPow 32 2 from rfl, BitVec.and_twoPow]
  cases e.getLsbD 2 <;> decide

/-- `*page & ~PTE_W`, as `mprotect` does. -/
def clearW (e : Pte) : Pte := e &&& ~~~PTE_W

/-- `*pte &= ~PTE_U`, as `clearpteu` does. -/
def clearU (e : Pte) : Pte := e &&& ~~~PTE_U

/-- `*page | PTE_W`, as `munprotect` does. -/
def setW (e : Pte) : Pte := e ||| PTE_W

@[simp] theorem not_present_zero : present 0#32 = false := by decide

@[simp] theorem not_writable_zero : writable 0#32 = false := by decide

@[simp] theorem present_mk (pa : Nat) (perm : Pte) : present (mk pa perm) = true := by
  rw [present_eq, mk, BitVec.getLsbD_or, show PTE_P.getLsbD 0 = true from rfl, Bool.or_true]

theorem writable_mk (pa : Nat) {perm : Pte} (h : perm.getLsbD 1 = true) : writable (mk pa perm) = true := by
  rw [writable_eq, mk, BitVec.getLsbD_or, BitVec.getLsbD_or, h, Bool.or_true, Bool.true_or]

theorem user_mk {pa : Nat} (hpa : pa % PGSIZE = 0) (perm : Pte) : user (mk pa perm) = perm.getLsbD 2 := by
  have hbit : (BitVec.ofNat 32 pa).getLsbD 2 = false := by
    obtain ⟨q, rfl⟩ := Nat.dvd_of_mod_eq_zero hpa
    rw [BitVec.getLsbD_ofNat, show PGSIZE = 2 ^ 12 from rfl, Nat.testBit_two_pow_mul]
    rfl
  rw [user_eq, mk, BitVec.getLsbD_or, BitVec.getLsbD_or, hbit, show PTE_P.getLsbD 2 = false from rfl, Bool.false_or, Bool.or_false]

@[simp] theorem present_clearU (e : Pte) : present (clearU e) = present e := by
  rw [present_eq, present_eq, clearU, BitVec.getLsbD_and, show (~~~PTE_U).getLsbD 0 = true from rfl, Bool.and_true]

@[simp] theorem user_clearU (e : Pte) : user (clearU e) = false := by
  rw [user_eq, clearU, BitVec.getLsbD_and, show (~~~PTE_U).getLsbD 2 = false from rfl, Bool.and_false]

@[simp] theorem present_clearW (e : Pte) : present (clearW e) = present e := by
  rw [present_eq, present_eq, clearW, BitVec.getLsbD_and, show (~~~PTE_W).getLsbD 0 = true from rfl, Bool.and_true]

@[simp] theorem present_setW (e : Pte) : present (setW e) = present e := by
  rw [present_eq, present_eq, setW, BitVec.getLsbD_or, show PTE_W.getLsbD 0 = false from rfl, Bool.or_false]

@[simp] theorem writable_clearW (e : Pte) : writable (clearW e) = false := by
  rw [writable_eq, clearW, BitVec.getLsbD_and, show (~~~PTE_W).getLsbD 1 = false from rfl, Bool.and_false]

@[simp] theorem writable_setW (e : Pte) : writable (setW e) = true := by
  rw [writable_eq, setW, BitVec.getLsbD_or, show PTE_W.getLsbD 1 = true from rfl, Bool.or_true]

theorem clearW_eq_self_iff (e : Pte) : clearW e = e ↔ writable e = false := by
  constructor
  · intro h; rw [← h]; exact writable_clearW e
  · intro h
    rw [writable_eq] at h
    refine BitVec.eq_of_getLsbD_eq fun i hi => ?_
    rw [clearW, BitVec.getLsbD_and, BitVec.getLsbD_not, show PTE_W = BitVec.twoPow 32 1 from rfl, BitVec.getLsbD_twoPow]
    by_cases h1 : i = 1
    · subst h1; rw [h, Bool.false_and]
    · simp [hi, Ne.symm h1]

theorem setW_eq_self_iff (e : Pte) : setW e = e ↔ writable e = true := by
  constructor
  · intro h; rw [← h]; exact writable_setW e
  · intro h
    rw [writable_eq] at h
    refine BitVec.eq_of_getLsbD_eq fun i hi => ?_
    rw [setW, BitVec.getLsbD_or, show PTE_W = BitVec.twoPow 32 1 from rfl, BitVec.getLsbD_twoPow]
    by_cases h1 : i = 1
    · subst h1; simp [h]
    · simp [Ne.symm h1]

theorem clearW_clearW (e : Pte) : clearW (clearW e) = clearW e := (clearW_eq_self_iff _).2 (writable_clearW e)

theorem setW_setW (e : Pte) : setW (setW e) = setW e := (setW_eq_self_iff _).2 (writable_setW e)

end Pte

theorem PTE_ADDR_mk {pa : Nat} {perm : Pte} (hpa : pa < 2 ^ 32) (hal : pa % PGSIZE = 0) (hperm : perm.toNat < PGSIZE) :
    PTE_ADDR (Pte.mk pa perm) = pa := by
  have h : (Pte.mk pa perm).toNat / PGSIZE = pa / PGSIZE := by
    rw [Pte.mk, BitVec.toNat_or, BitVec.toNat_or, BitVec.toNat_ofNat, Nat.mod_eq_of_lt hpa]
    show _ / 2 ^ 12 = _ / 2 ^ 12
    simp only [← Nat.shiftRight_eq_div_pow, Nat.shiftRight_or_distrib]
    rw [Nat.shiftRight_eq_div_pow perm.toNat, show perm.toNat / 2 ^ 12 = 0 from Nat.div_eq_of_lt hperm, show PTE_P.toNat >>> 12 = 0 from rfl,
      Nat.or_zero, Nat.or_zero]
  rw [PTE_ADDR, h]
  unfold PGSIZE at *
  omega

theorem PTE_ADDR_setW (e : Pte) : PTE_ADDR (Pte.setW e) = PTE_ADDR e := by
  have h : (Pte.setW e).toNat / PGSIZE = e.toNat / PGSIZE := by
    rw [Pte.setW, BitVec.toNat_or]
    show _ / 2 ^ 12 = _ / 2 ^ 12
    rw [← Nat.shiftRight_eq_div_pow, Nat.shiftRight_or_distrib, show PTE_W.toNat >>> 12 = 0 from rfl, Nat.or_zero,
      Nat.shiftRight_eq_div_pow]
  rw [PTE_ADDR, h, PTE_ADDR]

theorem PTE_ADDR_and (e : Pte) {mask : Pte} (h : mask.toNat >>> 12 = 2 ^ 20 - 1) : PTE_ADDR (e &&& mask) = PTE_ADDR e := by
  have h : (e &&& mask).toNat / PGSIZE = e.toNat / PGSIZE := by
    rw [BitVec.toNat_and]
    show _ / 2 ^ 12 = _ / 2 ^ 12
    rw [← Nat.shiftRight_eq_div_pow, Nat.shiftRight_and_distrib, h, Nat.and_two_pow_sub_one_eq_mod, Nat.shiftRight_eq_div_pow]
    have := e.isLt
    omega
  rw [PTE_ADDR, h, PTE_ADDR]

theorem PTE_ADDR_clearW (e : Pte) : PTE_ADDR (Pte.clearW e) = PTE_ADDR e := PTE_ADDR_and e (by decide)

theorem PTE_ADDR_clearU (e : Pte) : PTE_ADDR (Pte.clearU e) = PTE_ADDR e := PTE_ADDR_and e (by decide)

theorem PTE_FLAGS_lt (e : Pte) : (PTE_FLAGS e).toNat < PGSIZE := by
  rw [PTE_FLAGS, BitVec.toNat_and]
  exact Nat.lt_of_le_of_lt Nat.and_le_right (by decide)

theorem PTE_FLAGS_mk {pa : Nat} {e : Pte} (hal : pa % PGSIZE = 0) (he : e.present = true) :
    PTE_FLAGS (.mk pa (PTE_FLAGS e)) = PTE_FLAGS e := by
  refine BitVec.eq_of_getLsbD_eq fun i hi => ?_
  have hmask : (0xFFF : Pte).getLsbD i = decide (i < 12) := by
    rw [show (0xFFF : Pte) = BitVec.ofNat 32 (2 ^ 12 - 1) from rfl, BitVec.getLsbD_ofNat, Nat.testBit_two_pow_sub_one]
    simp [hi]
  rw [PTE_FLAGS, PTE_FLAGS, Pte.mk, BitVec.getLsbD_and, BitVec.getLsbD_or, BitVec.getLsbD_or, BitVec.getLsbD_and, hmask]
  by_cases hlow : i < 12
  · have hpa : (BitVec.ofNat 32 pa).getLsbD i = false := by
      obtain ⟨q, rfl⟩ := Nat.dvd_of_mod_eq_zero hal
      rw [BitVec.getLsbD_ofNat, show PGSIZE = 2 ^ 12 from rfl, Nat.testBit_two_pow_mul]
      simp [hlow]
    rw [hpa, Bool.false_or]
    rcases Nat.eq_zero_or_pos i with rfl | hpos
    · rw [Pte.present_eq] at he
      rw [he]
      rfl
    · have hp : PTE_P.getLsbD i = false := by
        rw [show PTE_P = BitVec.twoPow 32 0 from rfl, BitVec.getLsbD_twoPow]
        simp [hpos.ne]
      rw [hp, Bool.or_false, Bool.and_assoc, Bool.and_self]
  · simp [hlow]

/-! ### Pages -/

theorem same_entry_iff {a b : Nat} (ha : a < 2 ^ 32) (hb : b < 2 ^ 32) :
    PDX a = PDX b ∧ PTX a = PTX b ↔ a / PGSIZE = b / PGSIZE := by
  unfold PDX PTX PGSIZE
  omega

theorem lt_pgsize_iff {va : Nat} (hva : va < KERNBASE) : va < 4096 ↔ PDX va = 0 ∧ PTX va = 0 := by
  unfold PDX PTX KERNBASE at *
  omega

theorem PGROUNDUP_of_lt {a : Nat} (h : a < KERNBASE) : PGROUNDUP a = (a + 4095) / 4096 * 4096 := by
  unfold PGROUNDUP PGSIZE KERNBASE at *
  omega

end Ostep.Xv6
