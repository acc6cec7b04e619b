import Mathlib.Algebra.Group.Pi.Lemmas
import Mathlib.Data.List.DropRight
import Mathlib.Tactic.Abel
import Ostep.Lib.Strtok
import Ostep.Fs.Icache

/-!
# What a path names

`skipelem` takes a path apart into its elements (`skips_elements`). The two modes of `namex` agree: the inode that a path names is
found by a lookup of the last element in the parent (`namexFrom_lookup`), and on each way out the loop has given back every reference
but the one it returns (`namexFrom_refs`).
-/

namespace Ostep.Fs.Kernel

/-! ### Elements -/

/-- Calls of `skipelem`, on the path and then on what it returned, give these names and then 0. -/
inductive Skips : List UInt8 → List (List UInt8) → Prop where
  | done {path : List UInt8} (h : skipelem path = none) : Skips path []
  | next {path name rest : List UInt8} {names : List (List UInt8)} (h : skipelem path = some (name, rest)) (hs : Skips rest names) :
    Skips path (name :: names)

/-- The non-empty parts of the path between slashes, cut to the length of a name. -/
def elements (path : List UInt8) : List (List UInt8) := (fields isSlash path).map (List.take DIRSIZ)

section
variable {path name rest a w r : List UInt8}

theorem skipelem_slashes (h : ∀ c ∈ path, isSlash c = true) : skipelem path = none := by
  rw [skipelem, List.dropWhile_eq_nil_iff.2 h]

theorem dropWhile_word (hb : Begins isSlash a w r) : (a ++ w ++ r).dropWhile isSlash = w ++ r := by
  obtain ⟨c, v, rfl⟩ := List.exists_cons_of_ne_nil hb.ne_nil
  have hc : ¬ isSlash c = true := by rw [hb.word c List.mem_cons_self]; nofun
  rw [List.append_assoc, List.dropWhile_append_of_pos hb.delims, List.cons_append, List.dropWhile_cons_of_neg hc]

theorem skipelem_begins (hb : Begins isSlash a w r) : skipelem (a ++ w ++ r) = some (w.take DIRSIZ, r.dropWhile isSlash) := by
  have hword : ∀ c ∈ w, (!isSlash c) = true := by
    intro c hc
    rw [hb.word c hc]
    rfl
  have hstop : ∀ c, r.head? = some c → (!isSlash c) = false := by
    intro c hc
    rw [hb.stops c hc]
    rfl
  obtain ⟨htake, hdrop⟩ := takeWhile_append_stop hword hstop
  rw [skipelem, dropWhile_word hb]
  split
  · next hnil => exact absurd (List.append_eq_nil_iff.1 hnil).1 hb.ne_nil
  · next c s hcons => rw [← hcons, htake, hdrop]

/-- A call either finds only slashes or takes the first element off. -/
theorem skipelem_cases (path : List UInt8) :
    (skipelem path = none ∧ elements path = []) ∨
      ∃ name rest, skipelem path = some (name, rest) ∧ elements path = name :: elements rest ∧ rest.length < path.length ∧
        rest.dropWhile isSlash = rest := by
  obtain hall | ⟨a, w, r, rfl, hb⟩ := delims_or_begins (d := isSlash) path
  · exact .inl ⟨skipelem_slashes hall, by rw [elements, fields_eq_nil hall]; rfl⟩
  · refine .inr ⟨_, _, skipelem_begins hb, ?_, ?_, List.dropWhile_idempotent _ _⟩
    · rw [elements, ← fields_dropWhile, dropWhile_word hb, fields_word hb.word hb.ne_nil hb.stops, List.map_cons, elements, fields_dropWhile]
    · have hlen := (List.dropWhile_sublist isSlash (l := r)).length_le
      have hpos := List.length_pos_iff.2 hb.ne_nil
      simp only [List.length_append]
      omega

theorem skips_elements (path : List UInt8) : Skips path (elements path) := by
  induction hn : path.length using Nat.strong_induction_on generalizing path with
  | h n ih =>
    obtain ⟨hnone, hnil⟩ | ⟨name, rest, hskip, hcons, hlt, -⟩ := skipelem_cases path
    · rw [hnil]
      exact .done hnone
    · rw [hcons]
      exact .next hskip (ih rest.length (hn ▸ hlt) rest rfl)

theorem skipelem_rest (h : skipelem path = some (name, rest)) (hne : rest ≠ []) : elements rest ≠ [] := by
  obtain ⟨hnone, -⟩ | ⟨_, _, hskip, -, -, hdrop⟩ := skipelem_cases path
  · rw [hnone] at h
    cases h
  · rw [hskip] at h
    cases h
    obtain ⟨hnone, -⟩ | ⟨_, _, -, hcons, -⟩ := skipelem_cases rest
    · rw [skipelem, hdrop] at hnone
      obtain ⟨c, s, rfl⟩ := List.exists_cons_of_ne_nil hne
      cases hnone
    · rw [hcons]
      nofun

end

/-! ### The two modes -/

section
variable {sb : SuperBlock} {k : Nat} {w w' : World}

def lookupAt (sb : SuperBlock) (k : Nat) (name : List UInt8) (w : World) : Except PathPanic (Option Nat × World) := do
  let w ← ilock sb k w
  let (next, w) ← dirlookupAt sb k name w
  let w ← iunlockput sb k w
  return (next, w)

def lookupParent (sb : SuperBlock) : Option (Nat × List UInt8) × World → Except PathPanic (Option Nat × World)
  | (none, w) => return (none, w)
  | (some (k, name), w) => lookupAt sb k name w

theorem ilock_spec (h : ilock sb k w = .ok w') :
    1 ≤ (w.inode k).ref ∧ ((w.inode k).valid = true ∧ w' = w ∨ ∃ d, w' = w.set k { w.inode k with d, valid := true }) := by
  rw [ilock] at h
  split at h
  · cases h
  rename_i href
  refine ⟨not_lt.1 href, ?_⟩
  split at h
  · dsimp only at h
    split at h
    · cases h
    · cases h
      exact .inr ⟨_, rfl⟩
  · rename_i hvalid
    cases h
    exact .inl ⟨by simpa using hvalid, rfl⟩

theorem ilock_ok (h : ilock sb k w = .ok w') : 1 ≤ (w'.inode k).ref ∧ (w'.inode k).valid = true := by
  obtain ⟨href, ⟨hvalid, rfl⟩ | ⟨d, rfl⟩⟩ := ilock_spec h
  · exact ⟨href, hvalid⟩
  · simp [World.set, href]

theorem ilock_again (h : ilock sb k w = .ok w') : ilock sb k w' = .ok w' := by
  obtain ⟨href, hvalid⟩ := ilock_ok h
  rw [ilock, if_neg (not_lt.2 href), if_neg (by rw [hvalid]; nofun)]

theorem iunlock_of_ilock (h : ilock sb k w = .ok w') : iunlock k w' = .ok () :=
  if_neg (not_lt.2 (ilock_ok h).1)

theorem namexFrom_lookup (fuel : Nat) (k : Nat) (path : List UInt8) (w : World) (hfuel : path.length ≤ fuel) (hne : elements path ≠ []) :
    (do let (ip, w) ← namexFrom sb false fuel k path w; return (ip.map Prod.fst, w)) =
      namexFrom sb true fuel k path w >>= lookupParent sb := by
  induction fuel generalizing k path w with
  | zero =>
    rw [List.length_eq_zero_iff.1 (Nat.le_zero.1 hfuel)] at hne
    exact absurd rfl hne
  | succ fuel ih =>
    obtain ⟨-, hnil⟩ | ⟨name, rest, hskip, -, hlt, -⟩ := skipelem_cases path
    · exact absurd hnil hne
    simp only [namexFrom, hskip]
    cases hlock : ilock sb k w with
    | error e => rfl
    | ok w₁ =>
      simp only [ok_bind]
      by_cases hdir : (w₁.inode k).d.type ≠ T_DIR
      · simp only [if_pos hdir]
        cases iunlockput sb k w₁ <;> rfl
      simp only [if_neg hdir, Bool.false_eq_true, false_and, if_false, true_and]
      by_cases hlast : rest = []
      · -- one mode looks the last element up, the other leaves that to the caller
        simp only [if_pos hlast, iunlock_of_ilock hlock, ok_bind, pure, Except.pure, lookupParent, lookupAt, ilock_again hlock]
        cases dirlookupAt sb k name w₁ with
        | error e => rfl
        | ok r =>
          obtain ⟨next, w₂⟩ := r
          simp only [ok_bind]
          cases iunlockput sb k w₂ with
          | error e => rfl
          | ok w₃ =>
            cases next with
            | none => rfl
            | some next =>
              subst hlast
              cases fuel <;> rfl
      · simp only [if_neg hlast]
        cases dirlookupAt sb k name w₁ with
        | error e => rfl
        | ok r =>
          obtain ⟨next, w₂⟩ := r
          simp only [ok_bind]
          cases iunlockput sb k w₂ with
          | error e => rfl
          | ok w₃ =>
            cases next with
            | none => rfl
            | some next => exact ih next rest w₃ (by omega) (skipelem_rest hskip hlast)

end

/-! ### References -/

section
variable {sb : SuperBlock} {k : Nat} {w w' : World}

def World.refs (w : World) (k : Nat) : Int := (w.inode k).ref

def held : Option Nat → Nat → Int
  | none => 0
  | some k => Pi.single k 1

theorem World.refs_set (w : World) (k : Nat) (ip : Inode) : (w.set k ip).refs = w.refs + Pi.single k (ip.ref - w.refs k) := by
  funext j
  by_cases hj : j = k
  · subst hj
    simp [World.refs, World.set]
  · simp [World.refs, World.set, Function.update_of_ne hj, Pi.single_eq_of_ne hj]

theorem iget_refs {inum : Nat} (h : iget inum w = .ok (k, w')) : w'.refs = w.refs + Pi.single k 1 := by
  rw [iget] at h
  split at h
  · cases h
    rw [World.refs_set]
    simp [World.refs]
  · split at h
    · next hfree =>
      cases h
      have hzero : (w.inode k).ref = 0 := by simpa using List.find?_some hfree
      rw [World.refs_set]
      simp [World.refs, hzero]
    · cases h

theorem idup_refs (k : Nat) (w : World) : (idup k w).refs = w.refs + Pi.single k 1 := by
  rw [idup, World.refs_set]
  simp [World.refs]

theorem ilock_refs (h : ilock sb k w = .ok w') : w'.refs = w.refs := by
  obtain ⟨-, ⟨-, rfl⟩ | ⟨d, rfl⟩⟩ := ilock_spec h
  · rfl
  · rw [World.refs_set]
    simp [World.refs]

theorem freeUnlinked_refs (h : freeUnlinked sb k w = .ok w') : w'.refs = w.refs := by
  rw [freeUnlinked] at h
  split at h
  · obtain ⟨⟨d, img⟩, -, h⟩ := bind_ok h
    cases h
    exact (World.refs_set w k _).trans (by simp [World.refs])
  · cases h
    rfl

theorem iput_refs (h : iput sb k w = .ok w') : w'.refs = w.refs - Pi.single k 1 := by
  obtain ⟨w₁, hfree, h⟩ := bind_ok h
  cases h
  rw [World.refs_set, freeUnlinked_refs hfree, ← freeUnlinked_refs hfree]
  simp [World.refs, sub_eq_add_neg, Pi.single_neg]

theorem iunlockput_refs (h : iunlockput sb k w = .ok w') : w'.refs = w.refs - Pi.single k 1 := by
  obtain ⟨-, -, h⟩ := bind_ok h
  exact iput_refs h

theorem dirlookupAt_refs {name : List UInt8} {next : Option Nat} (h : dirlookupAt sb k name w = .ok (next, w')) :
    w'.refs = w.refs + held next := by
  obtain ⟨⟨found, d, img⟩, -, h⟩ := bind_ok h
  have hset : World.refs { w.set k { w.inode k with d } with img } = w.refs :=
    (World.refs_set w k _).trans (by simp [World.refs])
  cases found with
  | none =>
    cases h
    rw [hset, held, add_zero]
  | some found =>
    obtain ⟨⟨i, w₁⟩, hget, h⟩ := bind_ok h
    cases h
    rw [iget_refs hget, hset, held]

theorem namexDone_refs {parent : Bool} {r : Option (Nat × List UInt8)} (h : namexDone sb parent k w = .ok (r, w')) :
    w'.refs = w.refs - Pi.single k 1 + held (r.map Prod.fst) := by
  rw [namexDone] at h
  split at h
  · obtain ⟨w₁, hput, h⟩ := bind_ok h
    cases h
    rw [iput_refs hput, Option.map_none, held, add_zero]
  · cases h
    rw [Option.map_some, held, sub_add_cancel]

theorem namexFrom_refs {parent : Bool} (fuel k : Nat) (path : List UInt8) (w : World) {r : Option (Nat × List UInt8)}
    (h : namexFrom sb parent fuel k path w = .ok (r, w')) : w'.refs = w.refs - Pi.single k 1 + held (r.map Prod.fst) := by
  induction fuel generalizing k path w with
  | zero => exact namexDone_refs h
  | succ fuel ih =>
    rw [namexFrom] at h
    split at h
    · exact namexDone_refs h
    obtain ⟨w₁, hlock, h⟩ := bind_ok h
    rw [← ilock_refs hlock]
    split at h
    · obtain ⟨w₂, hput, h⟩ := bind_ok h
      cases h
      rw [iunlockput_refs hput, Option.map_none, held, add_zero]
    split at h
    · obtain ⟨-, -, h⟩ := bind_ok h
      cases h
      rw [Option.map_some, held, sub_add_cancel]
    obtain ⟨⟨next, w₂⟩, hlook, h⟩ := bind_ok h
    obtain ⟨w₃, hput, h⟩ := bind_ok h
    have hrefs : w₃.refs = w₁.refs - Pi.single k 1 + held next := by
      rw [iunlockput_refs hput, dirlookupAt_refs hlook]
      abel
    cases next with
    | none =>
      cases h
      rw [hrefs, Option.map_none]
    | some next =>
      rw [ih next _ w₃ h, hrefs, held]
      abel

theorem namex_refs {cwd : Nat} {parent : Bool} {path : List UInt8} {r : Option (Nat × List UInt8)}
    (h : namex sb cwd parent path w = .ok (r, w')) : w'.refs = w.refs + held (r.map Prod.fst) := by
  obtain ⟨⟨k, w₁⟩, hstart, h⟩ := bind_ok h
  have hrefs : w₁.refs = w.refs + Pi.single k 1 := by
    rw [namexStart] at hstart
    split at hstart
    · exact iget_refs hstart
    · cases hstart
      exact idup_refs cwd w
  rw [namexFrom_refs _ _ _ _ h, hrefs, add_sub_cancel_right]

theorem namei_refs {cwd : Nat} {path : List UInt8} {ip : Option Nat} (h : namei sb cwd path w = .ok (ip, w')) :
    w'.refs = w.refs + held ip := by
  obtain ⟨⟨r, w₁⟩, hnamex, h⟩ := bind_ok h
  cases h
  exact namex_refs hnamex

end

/-- The elements of a path, the inode it names as an entry of its parent, and the references that both modes leave. -/
theorem namei_eq_lookup (sb : SuperBlock) (cwd : Nat) (path : List UInt8) (w : World) :
    Skips path (elements path) ∧
      (elements path ≠ [] → namei sb cwd path w = nameiparent sb cwd path w >>= lookupParent sb) ∧
      (∀ ip w', namei sb cwd path w = .ok (ip, w') → w'.refs = w.refs + held ip) ∧
      ∀ r w', nameiparent sb cwd path w = .ok (r, w') → w'.refs = w.refs + held (r.map Prod.fst) := by
  refine ⟨skips_elements path, fun hne => ?_, fun _ _ => namei_refs, fun _ _ => namex_refs⟩
  rw [namei, nameiparent, namex, namex]
  cases namexStart cwd path w with
  | error e => rfl
  | ok r => exact namexFrom_lookup path.length r.1 path r.2 le_rfl hne

def rootOnly : World where
  inode := fun k => if k = 0 then ⟨ROOTINO, 1, true, T_DIR, 0, 0, 1, 16, fun j => if j = 0 then 5 else 0⟩ else ⟨0, 0, false, 0, 0, 0, 0, 0, fun _ => 0⟩
  img := ⟨8 * BSIZE, fun p => if p = 5 * BSIZE then 1 else if p = 5 * BSIZE + 2 then 46 else 0⟩

def rootDisk : SuperBlock := ⟨8, 5, 8, 0, 1, 1, 2⟩

def dots : List UInt8 := [47, 47, 46, 47, 46]

theorem namei_eq_lookup_dots :
    Skips dots [[46], [46]] ∧ namei rootDisk 0 dots rootOnly = nameiparent rootDisk 0 dots rootOnly >>= lookupParent rootDisk ∧
      ∃ w', namei rootDisk 0 dots rootOnly = .ok (some 0, w') ∧ w'.refs = rootOnly.refs + Pi.single 0 1 := by
  obtain ⟨hskips, hlookup, hrefs, -⟩ := namei_eq_lookup rootDisk 0 dots rootOnly
  have hdots : elements dots = [[46], [46]] := by decide
  have hfound : (namei rootDisk 0 dots rootOnly).toOption.map Prod.fst = some (some 0) := by decide +kernel
  refine ⟨hdots ▸ hskips, hlookup (by rw [hdots]; nofun), ?_⟩
  cases hnamei : namei rootDisk 0 dots rootOnly with
  | error e =>
    rw [hnamei] at hfound
    cases hfound
  | ok r =>
    rw [hnamei] at hfound
    obtain ⟨ip, w'⟩ := r
    cases hfound
    exact ⟨w', rfl, hrefs _ w' hnamei⟩

end Ostep.Fs.Kernel
