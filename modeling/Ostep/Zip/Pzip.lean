import Ostep.Zip.Wzip

/-!
# `pzip` (`P3a/pzip.c`)

Each file is cut into `NO_OF_PROC` slices, one `zip` worker counts the runs of each slice into arrays of
its own, and `main` joins the arrays in order, carrying `old_char` and `old_count` from slice to slice
and from file to file. The workers share nothing but the text, which they only read, so they are
functions of their arguments. Reading outside the text, writing outside the result arrays and signed
overflow are `undefined`.
-/

namespace Ostep

def RES_SIZE : Nat := 1000000

def txtAt (txt : Bytes) (i : Int) : Except Stop UInt8 :=
  if i < 0 then .error .undefined
  else match txt[i.toNat]? with
    | some c => .ok c
    | none => .error .undefined

/-! ### The worker -/

/-- The locals of `zip`; `res` is the written part of the two result arrays. -/
structure ZipSt where
  curr : UInt8
  count : Int
  res : List (UInt8 × Int)

def storeRes (res : List (UInt8 × Int)) (c : UInt8) (n : Int) : Except Stop (List (UInt8 × Int)) :=
  if res.length < RES_SIZE then .ok (res ++ [(c, n)]) else .error .undefined

def zipByte (s : ZipSt) (c : UInt8) : Except Stop ZipSt :=
  if s.curr ≠ c then do
    let res ← storeRes s.res s.curr s.count
    return ⟨c, 1, res⟩
  else do
    let count ← incInt s.count
    return { s with count := count }

/-- The `for (; i < args->end; i++)` loop, with the number of rounds left. -/
def zipLoop (txt : Bytes) : Nat → Int → ZipSt → Except Stop ZipSt
  | 0, _, s => .ok s
  | k + 1, i, s => do
    let c ← txtAt txt i
    let s ← zipByte s c
    let i ← incInt i
    zipLoop txt k i s

/-- `zip` on `txt[start .. stop)`. The first byte is read before `stop` is looked at, and the last
entry of the result is the sentinel with count -1. -/
def zip (txt : Bytes) (start stop : Nat) : Except Stop (List (UInt8 × Int)) := do
  let i := toInt32 start
  let c ← txtAt txt i
  let i ← incInt i
  let s ← zipLoop txt (stop - i.toNat) i ⟨c, 1, []⟩
  let res ← storeRes s.res s.curr s.count
  storeRes res s.curr (-1)

/-! ### `main` -/

structure PzipSt where
  old_char : Int
  old_count : Int
  out : Bytes

/-- The `while (res_count[j][index] != -1)` loop over one worker's result. -/
def mergeRes : List (UInt8 × Int) → PzipSt → Except Stop PzipSt
  | [], _ => .error .undefined
  | (c, n) :: res, s =>
    if n = -1 then .ok s
    else if s.old_char ≠ charInt c then
      mergeRes res ⟨charInt c, n,
        if s.old_count ≠ 0 then s.out ++ fwriteRun s.old_count (lowByte s.old_char) else s.out⟩
    else do
      let m ← addInt s.old_count n
      mergeRes res { s with old_count := m }

/-- `args[j].start` and `args[j].end` for a text of length `len`. -/
def sliceStart (NO_OF_PROC len j : Nat) : Nat := len / NO_OF_PROC * j

def sliceEnd (NO_OF_PROC len j : Nat) : Nat :=
  if j = NO_OF_PROC - 1 then len else len / NO_OF_PROC * j + len / NO_OF_PROC

def pzipFile (NO_OF_PROC : Nat) (s : PzipSt) : Option Bytes → Except Stop PzipSt
  | none => .error (.exit (s.out ++ ascii "wzip: cannot open file\n") 1)
  | some txt => do
    let res ← (List.range NO_OF_PROC).mapM fun j =>
      zip txt (sliceStart NO_OF_PROC txt.length j) (sliceEnd NO_OF_PROC txt.length j)
    res.foldlM (fun s r => mergeRes r s) s

/-- `main` of `pzip.c`; `'\357'` is the `char` -17. -/
def pzip (NO_OF_PROC : Nat) (argv : List (Option Bytes)) : Except Stop Bytes :=
  if argv = [] then .error (.exit (ascii "wzip: file1 [file2 ...]\n") 1)
  else do
    let s ← argv.foldlM (pzipFile NO_OF_PROC) ⟨-17, 0, []⟩
    return if s.old_count > 0 then s.out ++ fwriteRun s.old_count (lowByte s.old_char) else s.out

end Ostep
