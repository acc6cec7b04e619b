import Ostep.Lib.Word

/-!
# Memory allocator of the user library (`ulib.c`)

The free blocks form a circular list through their headers in memory, which starts at the static header `base`. Addresses are bytes
of a 32-bit address space, and a `Header` is a pointer and a `uint`. The loops take fuel, and `none` means that there was not enough.
The system answers each call of `sbrk` in turn; `none` is its -1. `got` notes the regions that it has given, with their units.
-/

namespace Ostep.Xv6.Ulib

def ptr (m : Nat → UInt8) (p : Nat) : Nat := load m p

def size (m : Nat → UInt8) (p : Nat) : Nat := load m (p + 4)

def setPtr (p x : Nat) (m : Nat → UInt8) : Nat → UInt8 := store p x m

def setSize (p n : Nat) (m : Nat → UInt8) : Nat → UInt8 := store (p + 4) n m

def add (p n : Nat) : Nat := (p + n * 8) % 2 ^ 32

structure Heap where
  mem : Nat → UInt8
  freep : Nat
  got : List (Nat × Nat)

/-- The loop of `free`: the block behind which `bp` goes. -/
def freeLoop (m : Nat → UInt8) (bp : Nat) : Nat → Nat → Option Nat
  | 0, _ => none
  | fuel + 1, p =>
    if bp > p ∧ bp < ptr m p then some p
    else if p ≥ ptr m p ∧ (bp > p ∨ bp < ptr m p) then some p
    else freeLoop m bp fuel (ptr m p)

def free (fuel ap : Nat) (h : Heap) : Option Heap := do
  let bp := (ap + 2 ^ 32 - 8) % 2 ^ 32
  let p ← freeLoop h.mem bp fuel h.freep
  let m := h.mem
  let m :=
    if add bp (size m bp) = ptr m p then
      let m := setSize bp (size m bp + size m (ptr m p)) m
      setPtr bp (ptr m (ptr m p)) m
    else setPtr bp (ptr m p) m
  let m :=
    if add p (size m p) = bp then
      let m := setSize p (size m p + size m bp) m
      setPtr p (ptr m bp) m
    else setPtr p bp m
  return { h with mem := m, freep := p }

/-- The units that `morecore` asks for. -/
def coreUnits (nu : Nat) : Nat := if nu < 4096 then 4096 else nu

/-- The heap, the result and the answers that are left. -/
def morecore (fuel nu : Nat) (sbrk : List (Option Nat)) (h : Heap) : Option (Heap × Nat × List (Option Nat)) :=
  let nu := coreUnits nu
  match sbrk with
  | [] => some (h, 0, [])
  | none :: sbrk => some (h, 0, sbrk)
  | some hp :: sbrk => do
    let h ← free fuel (add hp 1) { h with mem := setSize hp nu h.mem, got := (hp, nu) :: h.got }
    return (h, h.freep, sbrk)

/-- The block `p`, which is behind `prevp`, is large enough. -/
def take (nunits prevp p : Nat) (h : Heap) : Heap × Nat :=
  let m := h.mem
  if size m p = nunits then ({ h with mem := setPtr prevp (ptr m p) m, freep := prevp }, add p 1)
  else
    let m := setSize p (size m p - nunits) m
    let p := add p (size m p)
    ({ h with mem := setSize p nunits m, freep := prevp }, add p 1)

def mallocLoop (nunits : Nat) : Nat → Nat → Nat → List (Option Nat) → Heap → Option (Heap × Nat)
  | 0, _, _, _, _ => none
  | fuel + 1, prevp, p, sbrk, h =>
    if size h.mem p ≥ nunits then some (take nunits prevp p h)
    else if p = h.freep then do
      let (h, p, sbrk) ← morecore fuel nunits sbrk h
      if p = 0 then return (h, 0)
      else mallocLoop nunits fuel p (ptr h.mem p) sbrk h
    else mallocLoop nunits fuel p (ptr h.mem p) sbrk h

def units (nbytes : Nat) : Nat := (nbytes + 8 - 1) % 2 ^ 32 / 8 + 1

def init (base : Nat) (h : Heap) : Heap :=
  if h.freep = 0 then { h with mem := setSize base 0 (setPtr base base h.mem), freep := base } else h

def malloc (base fuel nbytes : Nat) (sbrk : List (Option Nat)) (h : Heap) : Option (Heap × Nat) :=
  let h := init base h
  mallocLoop (units nbytes) fuel h.freep (ptr h.mem h.freep) sbrk h

/-! ### A program that uses it -/

inductive Op where
  | malloc (nbytes : Nat) (sbrk : List (Option Nat))
  | free (ap : Nat)
  /-- The program writes one of its bytes. -/
  | write (a : Nat) (v : UInt8)

/-- The heap, and the pointers that the program has, with the bytes that it asked for. -/
structure State where
  heap : Heap
  live : List (Nat × Nat)

def step (base fuel : Nat) (s : State) : Op → Option State
  | .malloc nbytes sbrk => do
    let (h, p) ← malloc base fuel nbytes sbrk s.heap
    return ⟨h, if p = 0 then s.live else (p, nbytes) :: s.live⟩
  | .free ap => do
    let h ← free fuel ap s.heap
    return ⟨h, s.live.eraseP fun e => e.1 = ap⟩
  | .write a v => some ⟨{ s.heap with mem := Function.update s.heap.mem a v }, s.live⟩

end Ostep.Xv6.Ulib
