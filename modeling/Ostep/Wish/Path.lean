import Mathlib.Data.List.TakeWhile
import Mathlib.Logic.Function.Basic
import Ostep.Lib.CInt

/-!
# The search path of the shell (`P2a/wish.c`)

`path` has ten entries and ends with NULL. `run_path` copies each directory into a block of its length, without a NUL behind it; what
`run_program` reads there goes on to the next NUL in memory. `tryPaths_eq` says which names are built from a table, and
`search_iff` when they are the right ones.
-/

namespace Ostep.Wish

/-- What an entry of `path` points to: a literal, or a block that holds the bytes of a directory and no NUL. -/
inductive Dir where
  | literal (bytes : List UInt8)
  | block (bytes : List UInt8)
deriving DecidableEq

def setPath (path : Nat → Option Dir) (i : Nat) (d : Option Dir) : Except Stop (Nat → Option Dir) :=
  if i < 10 then .ok (Function.update path i d) else .error .undefined

def copyDirs : List (List UInt8) → Nat → (Nat → Option Dir) → Except Stop (Nat → Option Dir)
  | [], _, path => .ok path
  | d :: ds, i, path => do
    let path ← setPath path i (some (.block d))
    let path ← setPath path (i + 1) none
    copyDirs ds (i + 1) path

/-- `run_path`, with the words behind `path`. -/
def runPath (args : List (List UInt8)) (path : Nat → Option Dir) : Except Stop (Nat → Option Dir) := do
  let path ← setPath path 0 none
  copyDirs args 0 path

def initialPath : Nat → Option Dir
  | 0 => some (.literal [47, 98, 105, 110])
  | _ => none

/-- What `run_program` depends on beside its arguments. -/
structure Env where
  fork : Bool
  /-- `access(name, X_OK) == 0`. -/
  access : List UInt8 → Bool
  /-- The bytes between the end of the block of `path[i]` and the next NUL. -/
  behind : Nat → List UInt8

def Env.string (env : Env) (i : Nat) : Dir → List UInt8
  | .literal bytes => bytes
  | .block bytes => bytes ++ env.behind i

/-- The loop of `run_program`, with `n` entries of `path` left; `program_path` has 50 bytes. The results are the names given to `access`
and the program that is executed, if there is one. -/
def tryPaths (env : Env) (program : List UInt8) (path : Nat → Option Dir) :
    Nat → Nat → Except Stop (List (List UInt8) × Option (List UInt8))
  | 0, _ => .error .undefined
  | n + 1, i =>
    match path i with
    | none => .ok ([], none)
    | some d =>
      let name := env.string i d ++ [47] ++ program
      if 50 < name.length + 1 then .error .undefined
      else if env.access name then .ok ([name], some name)
      else do
        let (tested, found) ← tryPaths env program path n (i + 1)
        .ok (name :: tested, found)

def runProgram (env : Env) (program : List UInt8) (path : Nat → Option Dir) : Except Stop (List (List UInt8) × Option (List UInt8)) :=
  if env.fork then tryPaths env program path 10 0 else .ok ([], none)

/-! ### The table -/

/-- The entries of `path` are `ds`, up to the NULL. -/
def Holds (path : Nat → Option Dir) (ds : List Dir) : Prop := ds.length ≤ 9 ∧ ∀ i ≤ ds.length, path i = ds[i]?

variable {path : Nat → Option Dir} {ds : List Dir} {d : Dir} {env : Env} {program : List UInt8}

theorem setPath_of_lt {i : Nat} (hi : i < 10) (o : Option Dir) : setPath path i o = .ok (Function.update path i o) := if_pos hi

theorem holds_initialPath : Holds initialPath [.literal [47, 98, 105, 110]] := by
  refine ⟨by decide, fun i hi => ?_⟩
  obtain rfl | rfl : i = 0 ∨ i = 1 := by simp at hi; omega
  · rfl
  · rfl

theorem Holds.push (h : Holds path ds) (hlen : ds.length + 1 ≤ 9) :
    Holds (Function.update (Function.update path ds.length (some d)) (ds.length + 1) none) (ds ++ [d]) := by
  have hlast : (ds ++ [d]).length = ds.length + 1 := List.length_append
  refine ⟨by omega, fun i hi => ?_⟩
  rw [hlast] at hi
  rcases Nat.lt_trichotomy i ds.length with hlt | rfl | hgt
  · rw [Function.update_of_ne (by omega), Function.update_of_ne (by omega), h.2 i (by omega), List.getElem?_append_left hlt]
  · rw [Function.update_of_ne (by omega), Function.update_self, List.getElem?_concat_length]
  · obtain rfl : i = ds.length + 1 := by omega
    rw [Function.update_self, List.getElem?_eq_none (by omega)]

theorem copyDirs_spec (h : Holds path ds) (args : List (List UInt8)) (hlen : ds.length + args.length ≤ 9) :
    ∃ path', copyDirs args ds.length path = .ok path' ∧ Holds path' (ds ++ args.map .block) := by
  induction args generalizing path ds with
  | nil => exact ⟨path, rfl, by rwa [List.map_nil, List.append_nil]⟩
  | cons a args ih =>
    rw [List.length_cons] at hlen
    have hnext : (ds ++ [Dir.block a]).length = ds.length + 1 := List.length_append
    obtain ⟨path', hcopy, hholds⟩ := ih (h.push (d := .block a) (by omega)) (by omega)
    refine ⟨path', ?_, by rwa [List.append_assoc] at hholds⟩
    rw [hnext] at hcopy
    rw [copyDirs, setPath_of_lt (by omega), ok_bind, setPath_of_lt (by omega), ok_bind, hcopy]

theorem runPath_spec (path : Nat → Option Dir) (args : List (List UInt8)) (hlen : args.length ≤ 9) :
    ∃ path', runPath args path = .ok path' ∧ Holds path' (args.map .block) := by
  have hempty : Holds (Function.update path 0 none) [] := by
    refine ⟨Nat.zero_le 9, fun i hi => ?_⟩
    obtain rfl : i = 0 := Nat.le_zero.1 hi
    exact Function.update_self ..
  rw [runPath, setPath_of_lt (by decide), ok_bind]
  exact copyDirs_spec hempty args (by rw [List.length_nil]; omega)

/-! ### The search -/

/-- The names are tried up to the first that is executable. -/
def tried (access : List UInt8 → Bool) (names : List (List UInt8)) : List (List UInt8) :=
  names.takeWhile (fun n => !access n) ++ (names.find? access).toList

theorem tried_cons (access : List UInt8 → Bool) (n : List UInt8) (names : List (List UInt8)) :
    tried access (n :: names) = if access n then [n] else n :: tried access names := by
  unfold tried
  cases h : access n <;> simp [h]

theorem find?_tried (access : List UInt8 → Bool) (names : List (List UInt8)) : (tried access names).find? access = names.find? access := by
  induction names with
  | nil => rfl
  | cons n names ih =>
    rw [tried_cons, List.find?_cons]
    cases h : access n with
    | true => simp [h]
    | false => simp [h, ih]

def names (env : Env) (program : List UInt8) (ds : List Dir) (i : Nat) : List (List UInt8) :=
  (ds.zipIdx i).map fun d => env.string d.2 d.1 ++ [47] ++ program

theorem names_cons (i : Nat) : names env program (d :: ds) i = (env.string i d ++ [47] ++ program) :: names env program ds (i + 1) := by
  rw [names, List.zipIdx_cons, List.map_cons, names]

/-- The search tries all names up to the first executable one, and fails at the first that does not fit into `program_path`. -/
theorem tryPaths_eq {i n : Nat} (hin : i + n = 10) (hlen : i + ds.length ≤ 9) (hds : ∀ j ≤ ds.length, path (i + j) = ds[j]?) :
    tryPaths env program path n i =
      if ∀ name ∈ tried env.access (names env program ds i), name.length < 50 then
        .ok (tried env.access (names env program ds i), (names env program ds i).find? env.access)
      else .error .undefined := by
  induction ds generalizing i n with
  | nil =>
    obtain ⟨n, rfl⟩ : ∃ k, n = k + 1 := ⟨n - 1, by rw [List.length_nil] at hlen; omega⟩
    have hnone : path i = none := hds 0 (Nat.le_refl 0)
    rw [tryPaths, hnone]
    rfl
  | cons d ds ih =>
    rw [List.length_cons] at hlen hds
    obtain ⟨n, rfl⟩ : ∃ k, n = k + 1 := ⟨n - 1, by omega⟩
    have hsome : path i = some d := hds 0 (Nat.zero_le _)
    have hrest : ∀ j ≤ ds.length, path (i + 1 + j) = ds[j]? := fun j hj => by
      rw [Nat.add_right_comm, Nat.add_assoc, hds (j + 1) (by omega), List.getElem?_cons_succ]
    specialize ih (i := i + 1) (n := n) (by omega) (by omega) hrest
    rw [tryPaths, hsome, names_cons, tried_cons, List.find?_cons]
    dsimp only
    generalize hname : env.string i d ++ [47] ++ program = name
    by_cases hlong : 50 < name.length + 1
    · rw [if_pos hlong, if_neg]
      intro hall
      have hin : name ∈ if env.access name then [name] else name :: tried env.access (names env program ds (i + 1)) := by
        split
        · exact List.mem_singleton_self name
        · exact List.mem_cons_self
      have := hall name hin
      omega
    · rw [if_neg hlong]
      have hfits : name.length < 50 := by omega
      cases hacc : env.access name with
      | true => simp [hfits]
      | false =>
        simp only [Bool.false_eq_true, if_false, List.forall_mem_cons, hfits, true_and]
        rw [ih]
        split
        · rfl
        · rfl

theorem Holds.tryPaths (h : Holds path ds) : Ostep.Wish.tryPaths env program path 10 0 =
    if ∀ name ∈ tried env.access (names env program ds 0), name.length < 50 then
      .ok (tried env.access (names env program ds 0), (names env program ds 0).find? env.access)
    else .error .undefined :=
  tryPaths_eq rfl (by rw [Nat.zero_add]; exact h.1) fun j hj => by rw [Nat.zero_add]; exact h.2 j hj

/-! ### The directories of the last `path` command -/

def nameIn (program dir : List UInt8) : List UInt8 := dir ++ [47] ++ program

/-- For each directory that comes before the first with an executable program, and for that one: a NUL stands behind its block, and the
name fits into `program_path`. -/
def Terminated (env : Env) (program : List UInt8) (dirs : List (List UInt8)) : Prop :=
  ∀ i d, dirs[i]? = some d → (∀ d' ∈ dirs.take i, env.access (nameIn program d') = false) →
    env.behind i = [] ∧ (nameIn program d).length < 50

theorem tried_names_iff (env : Env) (program : List UInt8) (dirs : List (List UInt8)) (i : Nat) :
    (tried env.access (names env program (dirs.map .block) i) = tried env.access (dirs.map (nameIn program)) ∧
      ∀ name ∈ tried env.access (dirs.map (nameIn program)), name.length < 50) ↔
    ∀ j d, dirs[j]? = some d → (∀ d' ∈ dirs.take j, env.access (nameIn program d') = false) →
      env.behind (i + j) = [] ∧ (nameIn program d).length < 50 := by
  induction dirs generalizing i with
  | nil => exact iff_of_true ⟨rfl, nofun⟩ nofun
  | cons d dirs ih =>
    rw [List.map_cons, names_cons, List.map_cons, tried_cons, tried_cons]
    by_cases hb : env.behind i = []
    swap
    · -- the first name is another one
      refine iff_of_false (fun h => hb ?_) fun h => hb (h 0 d rfl nofun).1
      have hne : env.string i (.block d) ++ [47] ++ program = nameIn program d := by
        have heq := congrArg List.head? h.1
        split at heq <;> split at heq <;> exact Option.some.inj heq
      rw [Env.string, nameIn, List.append_left_inj, List.append_left_inj] at hne
      exact List.append_right_eq_self.1 hne
    have hname : env.string i (.block d) ++ [47] ++ program = nameIn program d := by rw [Env.string, hb, List.append_nil, nameIn]
    rw [hname]
    cases hacc : env.access (nameIn program d) with
    | true =>
      simp only [if_true, true_and, List.mem_singleton, forall_eq]
      constructor
      · intro hfits j d' hd' hbefore
        cases j with
        | zero =>
          cases hd'
          exact ⟨hb, hfits⟩
        | succ j =>
          have := hbefore d (by simp)
          rw [hacc] at this
          cases this
      · intro h
        exact (h 0 d rfl nofun).2
    | false =>
      simp only [Bool.false_eq_true, if_false, List.cons.injEq, true_and, List.forall_mem_cons]
      rw [and_left_comm, ih (i + 1)]
      constructor
      · rintro ⟨hfits, h⟩ j d' hd' hbefore
        cases j with
        | zero =>
          cases hd'
          exact ⟨hb, hfits⟩
        | succ j =>
          rw [Nat.add_succ, ← Nat.succ_add]
          exact h j d' hd' fun d'' hd'' => hbefore d'' (by rw [List.take_succ_cons]; exact List.mem_cons_of_mem _ hd'')
      · intro h
        refine ⟨(h 0 d rfl nofun).2, fun j d' hd' hbefore => ?_⟩
        have := h (j + 1) d' hd' fun d'' hd'' => by
          rw [List.take_succ_cons] at hd''
          rcases List.mem_cons.1 hd'' with rfl | hd''
          · exact hacc
          · exact hbefore d'' hd''
        rwa [Nat.add_succ, ← Nat.succ_add] at this

def runPaths (commands : List (List (List UInt8))) (path : Nat → Option Dir) : Except Stop (Nat → Option Dir) :=
  commands.foldlM (fun path args => runPath args path) path

theorem runPaths_spec {commands : List (List (List UInt8))} (hne : commands ≠ []) (hlen : ∀ args ∈ commands, args.length ≤ 9)
    (path : Nat → Option Dir) : ∃ path', runPaths commands path = .ok path' ∧ Holds path' ((commands.getLast hne).map .block) := by
  induction commands generalizing path with
  | nil => exact absurd rfl hne
  | cons args commands ih =>
    obtain ⟨path₁, hrun, hholds⟩ := runPath_spec path args (hlen args List.mem_cons_self)
    rw [runPaths, List.foldlM_cons, hrun, ok_bind]
    cases commands with
    | nil => exact ⟨path₁, rfl, hholds⟩
    | cons args' commands => exact ih (List.cons_ne_nil _ _) (fun a ha => hlen a (List.mem_cons_of_mem _ ha)) path₁

/-- A program is looked for in the directories of the last `path` command, in their order and up to the first where it is executable,
exactly when NULs happen to stand behind the blocks of these directories and the names are short enough. -/
theorem search_iff {commands : List (List (List UInt8))} (hne : commands ≠ []) (hlen : ∀ args ∈ commands, args.length ≤ 8)
    (path : Nat → Option Dir) (hfork : env.fork = true) (program : List UInt8) :
    (∃ path', runPaths commands path = .ok path' ∧
      runProgram env program path' = .ok (tried env.access ((commands.getLast hne).map (nameIn program)),
        ((commands.getLast hne).map (nameIn program)).find? env.access)) ↔
    Terminated env program (commands.getLast hne) := by
  obtain ⟨path', hpaths, hholds⟩ := runPaths_spec hne (fun args hargs => Nat.le_succ_of_le (hlen args hargs)) path
  have hiff := tried_names_iff env program (commands.getLast hne) 0
  simp only [Nat.zero_add] at hiff
  rw [Terminated, ← hiff]
  have hrun : runProgram env program path' = _ := (if_pos hfork).trans hholds.tryPaths
  constructor
  · rintro ⟨path'', hpaths', hok⟩
    cases hpaths.symm.trans hpaths'
    rw [hrun] at hok
    split at hok
    · next hfits =>
      have htried := congrArg Prod.fst (Except.ok.inj hok)
      dsimp only at htried
      rw [htried] at hfits
      exact ⟨htried, hfits⟩
    · cases hok
  · rintro ⟨htried, hfits⟩
    refine ⟨path', hpaths, ?_⟩
    rw [hrun, ← find?_tried, htried, if_pos hfits, find?_tried]

def lsIn : Env where
  fork := true
  access := fun name => name = [47, 98, 105, 110, 47, 108, 115]
  behind := fun _ => []

theorem search_iff_ls : ∃ path', runPaths [[[47, 120]], [[47, 97], [47, 98, 105, 110], [47, 120]]] initialPath = .ok path' ∧
    runProgram lsIn [108, 115] path' =
      .ok ([[47, 97, 47, 108, 115], [47, 98, 105, 110, 47, 108, 115]], some [47, 98, 105, 110, 47, 108, 115]) := by
  refine (search_iff (List.cons_ne_nil _ _) (by decide) initialPath rfl [108, 115]).2 fun i d hd _ => ⟨rfl, ?_⟩
  have hlen : d.length ≤ 4 := by
    have hall : ∀ d ∈ [[(47 : UInt8), 97], [47, 98, 105, 110], [47, 120]], d.length ≤ 4 := by decide
    exact hall d (List.mem_of_getElem? hd)
  rw [nameIn, List.length_append, List.length_append]
  simp only [List.length_cons, List.length_nil]
  omega

/-- The block of `/bin` is followed by an `x`: `/binx/ls` is tried, and not `/bin/ls`, which is executable. -/
theorem not_search_ls : ∃ path', runPaths [[[47, 98, 105, 110]]] initialPath = .ok path' ∧
    runProgram { lsIn with behind := fun _ => [120] } [108, 115] path' = .ok ([[47, 98, 105, 110, 120, 47, 108, 115]], none) ∧
    tried lsIn.access ([[47, 98, 105, 110]].map (nameIn [108, 115])) = [[47, 98, 105, 110, 47, 108, 115]] ∧
    ([[47, 98, 105, 110]].map (nameIn [108, 115])).find? lsIn.access = some [47, 98, 105, 110, 47, 108, 115] :=
  ⟨_, rfl, rfl, rfl, rfl⟩

end Ostep.Wish
