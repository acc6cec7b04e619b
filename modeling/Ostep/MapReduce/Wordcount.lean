import Mathlib.Data.List.TakeWhile
import Ostep.MapReduce.Drain
import Ostep.Zip.Wzip

/-!
# `P4a/wordcount.c`

`Map` emits a 1 for each piece that `strsep` cuts out of a line, the empty ones included. Whatever the threads do, `Reduce` counts for
each such word how often it stands in the files.
-/

namespace Ostep.MapReduce

/-- The string in a buffer with these bytes and a terminating NUL. -/
def cstring (b : Bytes) : CStr := ⟨b.takeWhile (· ≠ 0), fun h => by simpa using List.mem_takeWhile_imp h⟩

/-- The tokens of `while ((token = strsep(&dummy, " \t\n\r")) != NULL)`. -/
def tokens (line : CStr) : List CStr := (line.bytes.splitOnP fun c => c ∈ [32, 9, 10, 13]).map cstring

/-- The words for which `Map` calls `MR_Emit`, in order. -/
def words (file : Bytes) : List CStr := (getlines file).flatMap fun line => tokens (cstring line)

/-- The call of `MR_Run` in `main`. -/
def wordcount (files : List Bytes) : Job Bytes Counting where
  files := files
  map := fun file => (words file).map fun word => (word, cstring [49])
  numMappers := 10
  reduce := wordcountReduce
  numReducers := 10
  partition := mrDefaultHashPartition

/-- `Reduce(key, get_next, p)` after these answers. -/
def reduced (key : CStr) (p : Nat) (answers : List (Option CStr)) : Counting := answers.foldl wordcountReduce.recv (wordcountReduce.start key p)

def aba : Job Bytes Counting := wordcount [[97, 32, 98, 32, 97]]

def abaRun : List Act :=
  [Act.main, .main] ++ List.replicate 6 (Act.mapper 0) ++ List.replicate 13 Act.main ++ List.replicate 5 (Act.reducer 0) ++
    List.replicate 4 (Act.reducer 1) ++ (List.range' 2 8).map Act.reducer ++ List.replicate 11 Act.main

end Ostep.MapReduce
