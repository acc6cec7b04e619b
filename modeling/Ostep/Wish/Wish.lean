import Mathlib.Data.List.DropRight
import Ostep.Lib.Strtok

/-!
# The shell (`P2a/wish.c`)

A line is taken apart by three layers of `strtok` calls. `handleParallelCommand` returns what the shell does for each segment: report the
error, or give an argument list to `run_built_in_command` or to `run_program`. What these two do with it is not part of this model,
except that the command `exit` ends the shell.
-/

namespace Ostep.Wish

/-- The characters the shell looks for: `'&'`, `'>'`, `' '`, `'\n'`. -/
def AMP : UInt8 := 38
def GT : UInt8 := 62
def SP : UInt8 := 32
def NL : UInt8 := 10

def isspace (c : UInt8) : Bool := c = 32 ∨ (9 ≤ c ∧ c ≤ 13)

/-- What is done for a segment. -/
inductive Act where
  | error
  /-- The arguments, and the file that a program's output is redirected to. -/
  | command (args : List (List UInt8)) (file : Option (List UInt8))
deriving DecidableEq

inductive Redirect where
  | off
  | on (file : Option Nat)
deriving DecidableEq

def strtrim (m : List UInt8) (str : Nat) : Nat × List UInt8 :=
  let str := str + ((cstrAt m str).takeWhile isspace).length
  let s := cstrAt m str
  if s = [] then (str, m) else (str, m.set (str + (s.rdropWhile isspace).length) 0)

/-- `check_redirect`; the results are the globals, the memory and the pointer that `strtok` keeps. -/
def checkRedirect (m : List UInt8) (buffer : Nat) : Redirect × List UInt8 × Nat :=
  let (_, m, save) := strtok m 0 (some buffer) [GT]
  let (token, m, save) := strtok m save none []
  match token with
  | none => (.off, m, save)
  | some token =>
    let (token, m, save) := strtok m save (some token) [NL]
    match token with
    | none => (.on none, m, save)
    | some token =>
      let (file, m) := strtrim m token
      (.on (some file), m, save)

/-- `parse_command`: the pointers in `program`, which has ten entries. -/
def parseCommand (m : List UInt8) (save buffer : Nat) : Except Stop (List Nat × List UInt8 × Nat) :=
  let (buffer, m, save) := strtok m save (some buffer) [NL]
  collect [SP] 10 (strtok m save buffer [SP])

def EXIT : List UInt8 := [101, 120, 105, 116]
def CD : List UInt8 := [99, 100]
def PATH : List UInt8 := [112, 97, 116, 104]

/-- The end of `handle_command`: a built-in command is not redirected. The flag tells whether `run_exit` ends the shell. -/
def runCommand (program : List (List UInt8)) (file : Option (List UInt8)) : Option Act × Bool :=
  match program with
  | [] => (none, false)
  | name :: args =>
    if name = EXIT ∨ name = CD ∨ name = PATH then (some (.command (name :: args) none), name = EXIT ∧ args = [])
    else (some (.command (name :: args) file), false)

def handleCommand (m : List UInt8) : Except Stop (Option Act × Bool) := do
  let (redirect, m, save) := checkRedirect m 0
  let (program, m, _) ← parseCommand m save 0
  let program := program.map (cstrAt m)
  match redirect with
  | .off => .ok (runCommand program none)
  | .on none => .ok (some .error, false)
  | .on (some file) =>
    if SP ∈ cstrAt m file then .ok (some .error, false) else .ok (runCommand program (some (cstrAt m file)))

/-- The second loop of `handle_parallel_command`; `command` has 50 bytes. The list ends where `exit` ends the shell. -/
def handleCommands : List (List UInt8) → Except Stop (List (Option Act))
  | [] => .ok []
  | c :: cs =>
    if 50 < c.length + 2 then .error .undefined
    else do
      let (act, ended) ← handleCommand (c ++ [NL] ++ [0])
      if ended then .ok [act]
      else do
        let acts ← handleCommands cs
        .ok (act :: acts)

/-- `handle_parallel_command`; `commands` has ten entries. -/
def handleParallelCommand (line : List UInt8) : Except Stop (List (Option Act)) := do
  let (commands, m, _) ← collect [AMP] 10 (strtok (line ++ [0]) 0 (some 0) [AMP])
  handleCommands (commands.map (cstrAt m))

end Ostep.Wish
