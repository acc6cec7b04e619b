import Mathlib.Logic.Function.Basic
import Ostep.Lib.CStr

/-!
# The store of the MapReduce library (`P4a/mapreduce.c`)

`data_values` is a table of keys with open addressing, each with a linked list of its values; `sorted_data` has a
linked list of keys for each partition. Pointers into the two heaps are positions, `none` is NULL. `malloc`
does not clear its blocks: `Blocks` says what the links hold that the code does not write. An access that the
language leaves undefined, and a loop that does not end, is a `Fault`.
-/

namespace Ostep.MapReduce

def SIZE : Nat := 100000

inductive Fault where
  /-- A probe runs past `data_values[SIZE - 1]`. -/
  | overrun
  /-- A link that leads to no node is followed. -/
  | wild
  /-- The links of a list form a cycle. -/
  | endless
deriving DecidableEq, Repr

structure DataNode where
  val : CStr
  next : Option Nat
deriving DecidableEq

structure DataItem where
  data : Option Nat
  key : Option CStr
deriving DecidableEq

structure Node where
  key : CStr
  index : Nat
  next : Option Nat
deriving DecidableEq

structure Store where
  dataValues : Nat → DataItem
  dataNodes : List DataNode
  /-- `sorted_data[p].next`. -/
  sorted : Nat → Option Nat
  nodes : List Node

structure Blocks where
  /-- `next` of the `n`-th `struct data_node`. -/
  dataNode : Nat → Option Nat
  /-- `sorted_data[p].next`. -/
  head : Nat → Option Nat

def Blocks.zeroed : Blocks where
  dataNode := fun _ => none
  head := fun _ => none

def Store.init (blocks : Blocks) : Store where
  dataValues := fun _ => ⟨none, none⟩
  dataNodes := []
  sorted := blocks.head
  nodes := []

/-- `hash * 33 + c` in an `unsigned long`, with `c` a `char`. -/
def hashStep (hash : Nat) (c : UInt8) : Nat :=
  ((hash * 33 + if c.toNat < 128 then (c.toNat : Int) else c.toNat - 256) % 2 ^ 64).toNat

def mrDefaultHashPartition (key : CStr) (numPartitions : Nat) : Nat :=
  key.bytes.foldl hashStep 5381 % numPartitions

namespace Store

variable (s : Store)

/-- The loop that `MR_Emit` and `get_next` share: from index `i` on, with `n` indices left, the first one
without a key or with `key`. -/
def probeFrom (key : CStr) : Nat → Nat → Except Fault Nat
  | 0, _ => .error .overrun
  | n + 1, i =>
    match (s.dataValues i).key with
    | none => .ok i
    | some k => if strcmp key k ≠ 0 then probeFrom key n (i + 1) else .ok i

def probe (key : CStr) : Except Fault Nat :=
  let hash := mrDefaultHashPartition key SIZE
  s.probeFrom key (SIZE - hash) hash

def claimSlot (i : Nat) (key : CStr) : Store :=
  match (s.dataValues i).key with
  | none => { s with dataValues := Function.update s.dataValues i { s.dataValues i with key := some key } }
  | some _ => s

/-- The section of `MR_Emit` under `val_lock`: the store afterwards and `hash + i`. -/
def emitVal (blocks : Blocks) (key value : CStr) : Except Fault (Store × Nat) := do
  let i ← s.probe key
  let s := s.claimSlot i key
  let item := s.dataValues i
  let next := match item.data with
    | some a => some a
    | none => blocks.dataNode s.dataNodes.length
  .ok ({ s with
    dataNodes := s.dataNodes ++ [{ val := value, next := next }]
    dataValues := Function.update s.dataValues i { item with data := some s.dataNodes.length } }, i)

/-- The loop of `MR_Emit` under `sort_lock`, at most `n` times: `prev` and `curr` after it. The node before the
first is `sorted_data[p]` itself, here `none`. -/
def place (key : CStr) : Nat → Option Nat → Option Nat → Except Fault (Option Nat × Option Nat)
  | _, prev, none => .ok (prev, none)
  | 0, _, some _ => .error .endless
  | n + 1, prev, some a =>
    match s.nodes[a]? with
    | none => .error .wild
    | some x => if 0 < strcmp key x.key then place key n (some a) x.next else .ok (prev, some a)

def nextOf (p : Nat) : Option Nat → Option Nat
  | none => s.sorted p
  | some a => (s.nodes[a]?).bind Node.next

def setNext (p n : Nat) : Option Nat → Store
  | none => { s with sorted := Function.update s.sorted p (some n) }
  | some a => { s with nodes := s.nodes.modify a fun x => { x with next := some n } }

/-- `n = malloc(...)` with its three fields, and `prev->next = n`. -/
def insertNode (p : Nat) (prev : Option Nat) (key : CStr) (index : Nat) (next : Option Nat) : Store :=
  setNext { s with nodes := s.nodes ++ [{ key := key, index := index, next := next }] } p s.nodes.length prev

/-- The section of `MR_Emit` under `sort_lock`, with `index` the slot that the first section found. -/
def emitSort (p : Nat) (key : CStr) (index : Nat) : Except Fault Store := do
  match ← s.place key (s.nodes.length + 1) none (s.sorted p) with
  | (prev, none) => .ok (s.insertNode p prev key index none)
  | (prev, some a) =>
    match s.nodes[a]? with
    | none => .error .wild
    | some x => .ok (if strcmp key x.key = 0 then s else s.insertNode p prev key index (s.nextOf p prev))

/-- `get_next`: the store afterwards and the value returned, `none` for NULL. It does not use the partition. -/
def getNext (key : CStr) (_partitionNumber : Nat) : Except Fault (Store × Option CStr) := do
  let i ← s.probe key
  let s := s.claimSlot i key
  let item := s.dataValues i
  match item.data with
  | none => .ok (s, none)
  | some a =>
    match s.dataNodes[a]? with
    | none => .error .wild
    | some x => .ok ({ s with dataValues := Function.update s.dataValues i { item with data := x.next } }, some x.val)

end Store

end Ostep.MapReduce
