import Ostep.Lib.Run
import Ostep.MapReduce.Store

/-!
# `MR_Run` and its threads (`P4a/mapreduce.c`)

A state has the store and the position of each thread: the main thread in `MR_Run`, one thread for each file whose
`map` has been started and one for each reducer. A step is one of the main thread's calls, one of the two
sections of an `MR_Emit`, one `get_next`, or a move of `reduce_thread` to the next key. `map` is given by what it
emits for a file, `reduce` by its local states between two calls of `get_next`.
-/

namespace Ostep.MapReduce

structure Reducer (Q : Type*) where
  /-- The local state when `reduce(key, get_next, partition_number)` is called. -/
  start : CStr → Nat → Q
  /-- The arguments of the next `get_next`, or `none` when `reduce` returns. -/
  call : Q → Option (CStr × Nat)
  recv : Q → Option CStr → Q

/-- The arguments of `MR_Run`, with `files` for `argv[1]` to `argv[argc - 1]`. -/
structure Job (F Q : Type*) where
  files : List F
  map : F → List (CStr × CStr)
  numMappers : Nat
  reduce : Reducer Q
  numReducers : Nat
  partition : CStr → Nat → Nat

structure MapThread where
  /-- The `MR_Emit` calls to come. -/
  todo : List (CStr × CStr)
  /-- Between the two sections of an `MR_Emit`: its key and `hash + i`. -/
  midway : Option (CStr × Nat)

inductive ReduceThread (Q : Type*) where
  | start
  /-- In `reduce(key, ...)` for the node at `curr`. -/
  | calling (curr : Nat) (key : CStr) (q : Q)
  | finished

inductive Main where
  /-- Before creating the thread for file `i`, in the batch that began with file `base`. -/
  | create (base i : Nat)
  /-- Before joining `p[j - 1]`, where `p[0]` is the thread for file `base`, and `i` is the next file. -/
  | join (base i j : Nat)
  /-- Before creating reducer `i`. -/
  | spawn (i : Nat)
  /-- Before joining reducer `i`. -/
  | await (i : Nat)
  | done
deriving DecidableEq, Repr

structure GetCall where
  thread : Nat
  reducing : CStr
  key : CStr
  answer : Option CStr
deriving DecidableEq

structure State (F Q : Type*) where
  store : Store
  main : Main
  /-- The threads that run `map`, by the number of their file. -/
  mapper : Nat → Option MapThread
  reducer : Nat → Option (ReduceThread Q)
  /-- Ghost: the calls of `map`, of `reduce` (with the thread that makes it) and of `get_next`. -/
  mapLog : List F
  reduceLog : List (Nat × CStr)
  getLog : List GetCall

inductive Act where
  | main
  | mapper (i : Nat)
  | reducer (p : Nat)
deriving DecidableEq, Repr

section
variable {F Q : Type*} (job : Job F Q)

def Job.part (key : CStr) : Nat := job.partition key job.numReducers

def nextBatch (i : Nat) : Main := if i < job.files.length then .create i i else .spawn 0

def State.init (blocks : Blocks) : State F Q where
  store := .init blocks
  main := nextBatch job 0
  mapper := fun _ => none
  reducer := fun _ => none
  mapLog := []
  reduceLog := []
  getLog := []

def stepMain (s : State F Q) : Option (State F Q) :=
  match s.main with
  | .create base i =>
    match job.files[i]? with
    | some f =>
      if i - base < job.numMappers then
        some { s with
          mapper := Function.update s.mapper i (some { todo := job.map f, midway := none })
          main := .create base (i + 1)
          mapLog := s.mapLog ++ [f] }
      else some { s with main := .join base i (i - base) }
    | none => some { s with main := .join base i (i - base) }
  | .join base i (j + 1) =>
    match s.mapper (base + j) with
    | some ⟨[], none⟩ => some { s with main := .join base i j }
    | _ => none
  | .join _ i 0 => some { s with main := nextBatch job i }
  | .spawn i =>
    if i < job.numReducers then
      some { s with reducer := Function.update s.reducer i (some .start), main := .spawn (i + 1) }
    else some { s with main := .await 0 }
  | .await i =>
    if i < job.numReducers then
      match s.reducer i with
      | some .finished => some { s with main := .await (i + 1) }
      | _ => none
    else some { s with main := .done }
  | .done => none

def stepMapper (blocks : Blocks) (s : State F Q) (i : Nat) : Option (State F Q) :=
  match s.mapper i with
  | some ⟨todo, some (key, index)⟩ =>
    match s.store.emitSort (job.part key) key index with
    | .ok store => some { s with store := store, mapper := Function.update s.mapper i (some { todo := todo, midway := none }) }
    | .error _ => none
  | some ⟨(key, value) :: todo, none⟩ =>
    match s.store.emitVal blocks key value with
    | .ok (store, index) => some { s with
        store := store, mapper := Function.update s.mapper i (some { todo := todo, midway := some (key, index) }) }
    | .error _ => none
  | some ⟨[], none⟩ => none
  | none => none

/-- The head of the loop of `reduce_thread`, with `curr` as given. -/
def enter (s : State F Q) (p : Nat) : Option Nat → Option (State F Q)
  | none => some { s with reducer := Function.update s.reducer p (some .finished) }
  | some a =>
    match s.store.nodes[a]? with
    | some x => some { s with
        reducer := Function.update s.reducer p (some (.calling a x.key (job.reduce.start x.key p)))
        reduceLog := s.reduceLog ++ [(p, x.key)] }
    | none => none

def stepReducer (s : State F Q) (p : Nat) : Option (State F Q) :=
  match s.reducer p with
  | some .start => enter job s p (s.store.sorted p)
  | some (.calling curr key q) =>
    match job.reduce.call q with
    | some (k, partitionNumber) =>
      match s.store.getNext k partitionNumber with
      | .ok (store, answer) => some { s with
          store := store
          reducer := Function.update s.reducer p (some (.calling curr key (job.reduce.recv q answer)))
          getLog := s.getLog ++ [{ thread := p, reducing := key, key := k, answer := answer }] }
      | .error _ => none
    | none =>
      match s.store.nodes[curr]? with
      | some x => enter job s p x.next
      | none => none
  | _ => none

/-- One step; a thread that has finished, waits or would make a fault cannot take one. -/
def next (blocks : Blocks) (s : State F Q) : Act → Option (State F Q)
  | .main => stepMain job s
  | .mapper i => stepMapper job blocks s i
  | .reducer p => stepReducer job s p

/-- Some thread is at a call whose probe runs past the table. -/
def Overrun (s : State F Q) : Prop :=
  (∃ i key value todo, s.mapper i = some ⟨(key, value) :: todo, none⟩ ∧ s.store.probe key = .error .overrun) ∨
    ∃ p curr key q k n, s.reducer p = some (.calling curr key q) ∧ job.reduce.call q = some (k, n) ∧
      s.store.probe k = .error .overrun

end

end Ostep.MapReduce
