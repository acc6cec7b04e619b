import Mathlib.Algebra.BigOperators.Group.Finset.Piecewise
import Mathlib.Algebra.Order.BigOperators.Group.Finset
import Ostep.Lib.SlotMap
import Ostep.Fs.Format

/-!
# Link counts in a tree of directories

A file system without its blocks: each inode has a type, a link count and, if it is a directory, slots. `TreeOk` counts the slots that
name an inode. The steps of the calls that make, remove and free inodes keep it, as long as no entry is made in a directory that has
been removed and the parent of a removed directory stays.
-/

namespace Ostep.Fs

structure Node where
  type : Int
  nlink : Int
  slots : List (Option (List UInt8 × Nat))

namespace Node

def free : Node := ⟨0, 0, []⟩

def withNlink (n : Node) (nlink : Int) : Node := { n with nlink }

def withSlots (n : Node) (slots : List (Option (List UInt8 × Nat))) : Node := { n with slots }

def names (i : Nat) (s : Option (List UInt8 × Nat)) : Bool := s.any fun e => e.2 = i

/-- How many slots name inode `i`. -/
def count (n : Node) (i : Nat) : Nat := n.slots.countP (names i)

/-- How many of those behind `.` and `..`. -/
def rest (n : Node) (i : Nat) : Nat := (n.slots.drop 2).countP (names i)

def parent (n : Node) : Option Nat := n.slots[1]?.join.map Prod.snd

variable {n m : Node} {k i x : Nat} {name : List UInt8} {e : Option (List UInt8 × Nat)}

theorem countP_names (e : List UInt8 × Nat) (x : Nat) : [some e].countP (names x) = if x = e.2 then 1 else 0 := by
  by_cases h : x = e.2
  · simp [names, h]
  · simp [names, h, Ne.symm h]

theorem rest_stored (hs : SlotMap.Stored n.slots k e m.slots) (h2 : 2 ≤ k) (hk : k ≤ n.slots.length) (x : Nat) :
    m.rest x + (n.slots[k]?.toList).countP (names x) = n.rest x + [e].countP (names x) := by
  have hold : (n.slots.drop 2)[k - 2]? = n.slots[k]? := by
    rw [List.getElem?_drop]
    congr 1
    omega
  have h := (hs.drop h2).countP (by rw [List.length_drop]; omega) (names x)
  rwa [hold] at h

theorem rest_pos (h2 : 2 ≤ k) (hk : n.slots[k]? = some (some (name, i))) : 0 < n.rest i := by
  refine List.countP_pos_iff.2 ⟨some (name, i), ?_, by simp [names]⟩
  refine List.mem_of_getElem? (i := k - 2) ?_
  rw [List.getElem?_drop, ← hk]
  congr 1
  omega

theorem parent_eq_take (n : Node) : n.parent = (n.slots.take 2)[1]?.join.map Prod.snd := by
  rw [parent, List.getElem?_take, if_pos (by decide)]

theorem take_stored (hs : SlotMap.Stored n.slots k e m.slots) (h2 : 2 ≤ k) : m.slots.take 2 = n.slots.take 2 := by
  refine List.ext_getElem? fun j => ?_
  rw [List.getElem?_take, List.getElem?_take]
  split
  · rw [hs, if_neg (by omega)]
  · rfl

end Node

/-- Where a path leads from inode `i`. -/
def goTo (T : Nat → Node) : Nat → List (List UInt8) → Option Nat
  | i, [] => some i
  | i, name :: es => if (T i).type = T_DIR then (SlotMap.get (T i).slots name).bind fun j => goTo T j es else none

theorem goTo_cons {T : Nat → Node} {i j : Nat} {name : List UInt8} (hdir : (T i).type = T_DIR) (hj : SlotMap.get (T i).slots name = some j)
    (es : List (List UInt8)) : goTo T i (name :: es) = goTo T j es := by
  rw [goTo, if_pos hdir, hj, Option.bind_some]

theorem goTo_concat {T : Nat → Node} {s d : Nat} {es : List (List UInt8)} (h : goTo T s es = some d) (hd : (T d).type = T_DIR) (name : List UInt8) :
    goTo T s (es ++ [name]) = SlotMap.get (T d).slots name := by
  induction es generalizing s with
  | nil =>
    cases h
    rw [List.nil_append, goTo, if_pos hd]
    exact Option.bind_fun_some _
  | cons e es ih =>
    rw [goTo] at h
    split at h
    · next hs =>
      obtain ⟨j, hj, hwalk⟩ := Option.bind_eq_some_iff.1 h
      rw [List.cons_append, goTo_cons hs hj]
      exact ih hwalk
    · cases h

theorem goTo_congr {T T' : Nat → Node} (h : ∀ i, (T' i).type = (T i).type ∧ (T' i).slots = (T i).slots) (i : Nat) (es : List (List UInt8)) :
    goTo T' i es = goTo T i es := by
  induction es generalizing i with
  | nil => rfl
  | cons name es ih =>
    rw [goTo, goTo, (h i).1, (h i).2]
    simp only [ih]

/-! ### The invariant -/

def links (N : Nat) (T : Nat → Node) (i : Nat) : Nat := ∑ d ∈ Finset.range N, (T d).count i

/-- Those behind `.` and `..`. -/
def entries (N : Nat) (T : Nat → Node) (i : Nat) : Nat := ∑ d ∈ Finset.range N, (T d).rest i

/-- Node `c` is a directory other than the root that has not been removed, with parent `d`. -/
def IsSubdir (T : Nat → Node) (d c : Nat) : Prop := (T c).type = T_DIR ∧ (T c).nlink ≠ 0 ∧ c ≠ ROOTINO ∧ (T c).parent = some d

instance (T : Nat → Node) (d c : Nat) : Decidable (IsSubdir T d c) :=
  inferInstanceAs (Decidable ((T c).type = T_DIR ∧ (T c).nlink ≠ 0 ∧ c ≠ ROOTINO ∧ (T c).parent = some d))

def subdirs (N : Nat) (T : Nat → Node) (d : Nat) : Nat := ∑ c ∈ Finset.range N, if IsSubdir T d c then 1 else 0

structure NodeOk (N : Nat) (T : Nat → Node) (i : Nat) : Prop where
  bound : (T i).type ≠ 0 → i < N
  kinds : (T i).type = 0 ∨ (T i).type = T_DIR ∨ (T i).type = T_FILE
  leaf : (T i).type ≠ T_DIR → (T i).slots = []
  dots : (T i).type = T_DIR → ∃ p, (T i).slots.take 2 = [some ([46], i), some ([46, 46], p)] ∧ (T p).type = T_DIR ∧ (T p).nlink ≠ 0
  /-- Nothing names a free inode. -/
  unnamed : (T i).type = 0 → ∀ d, (T d).rest i = 0
  /-- A directory that has not been removed has one entry in its parent, and there are no others. -/
  entry : (T i).type = T_DIR → ∀ d, (T d).rest i = if IsSubdir T d i then 1 else 0
  /-- One that has been removed is empty. -/
  empty : (T i).type = T_DIR → (T i).nlink = 0 → ∀ x, (T i).rest x = 0
  dirLinks : (T i).type = T_DIR → (T i).nlink ≠ 0 → (T i).nlink = 1 + subdirs N T i
  fileLinks : (T i).type = T_FILE → (T i).nlink = entries N T i

/-- `P` holds of the inodes that somebody refers to. -/
structure TreeOk (N : Nat) (T : Nat → Node) (P : Nat → Prop) : Prop where
  root : (T ROOTINO).type = T_DIR ∧ (T ROOTINO).nlink ≠ 0 ∧ (T ROOTINO).parent = some ROOTINO
  node : ∀ i, NodeOk N T i
  held : ∀ i, (T i).type ≠ 0 → (T i).nlink = 0 → P i

theorem dir_ne_zero {t : Int} (h : t = T_DIR) : t ≠ 0 := by rw [h]; decide

theorem file_ne_zero {t : Int} (h : t = T_FILE) : t ≠ 0 := by rw [h]; decide

theorem file_ne_dir {t : Int} (h : t = T_FILE) : t ≠ T_DIR := by rw [h]; decide

variable {N : Nat} {T T' : Nat → Node} {P P' : Nat → Prop} {d dp i k : Nat} {name : List UInt8}

theorem not_isSubdir (h : (T i).type ≠ T_DIR) (d : Nat) : ¬ IsSubdir T d i := fun hs => h hs.1

namespace NodeOk

theorem parent {p : Nat} (h : NodeOk N T i) (hi : (T i).type = T_DIR) (hp : (T i).parent = some p) :
    (T i).slots.take 2 = [some ([46], i), some ([46, 46], p)] ∧ (T p).type = T_DIR ∧ (T p).nlink ≠ 0 := by
  obtain ⟨q, hq, hlive⟩ := h.dots hi
  rw [Node.parent_eq_take, hq] at hp
  cases hp
  exact ⟨hq, hlive⟩

theorem exists_parent (h : NodeOk N T i) (hi : (T i).type = T_DIR) : ∃ p, (T i).parent = some p := by
  obtain ⟨p, hp, -⟩ := h.dots hi
  exact ⟨p, by rw [Node.parent_eq_take, hp]; rfl⟩

theorem congr (h : NodeOk N T i) (hT : T' i = T i) (hrest : ∀ d, (T' d).rest i = (T d).rest i) (hsub : ∀ c, IsSubdir T' i c ↔ IsSubdir T i c)
    (hp : ∀ p, (T i).type = T_DIR → (T i).parent = some p → (T' p).type = T_DIR ∧ (T' p).nlink ≠ 0) : NodeOk N T' i := by
  refine ⟨?_, ?_, ?_, ?_, ?_, ?_, ?_, ?_, ?_⟩
  all_goals rw [hT]
  · exact h.bound
  · exact h.kinds
  · exact h.leaf
  · intro ht
    obtain ⟨p, hq⟩ := h.exists_parent ht
    exact ⟨p, (h.parent ht hq).1, hp p ht hq⟩
  · intro ht d
    rw [hrest]
    exact h.unnamed ht d
  · intro ht d
    have hi : IsSubdir T d i ↔ IsSubdir T' d i := by rw [IsSubdir, IsSubdir, hT]
    rw [hrest, h.entry ht d]
    exact if_congr hi rfl rfl
  · exact h.empty
  · intro ht hn
    rw [h.dirLinks ht hn, subdirs, subdirs]
    simp only [hsub]
  · intro ht
    rw [h.fileLinks ht, entries, entries]
    simp only [hrest]

theorem file (hN : i < N) (ht : (T i).type = T_FILE) (hl : (T i).slots = []) (hn : (T i).nlink = entries N T i) : NodeOk N T i where
  bound := fun _ => hN
  kinds := .inr (.inr ht)
  leaf := fun _ => hl
  dots := fun h => absurd h (file_ne_dir ht)
  unnamed := fun h => absurd h (file_ne_zero ht)
  entry := fun h => absurd h (file_ne_dir ht)
  empty := fun h => absurd h (file_ne_dir ht)
  dirLinks := fun h => absurd h (file_ne_dir ht)
  fileLinks := fun _ => hn

theorem dir {p : Nat} (hN : i < N) (ht : (T i).type = T_DIR) (htake : (T i).slots.take 2 = [some ([46], i), some ([46, 46], p)])
    (hp : (T p).type = T_DIR ∧ (T p).nlink ≠ 0) (hentry : ∀ d, (T d).rest i = if IsSubdir T d i then 1 else 0)
    (hempty : (T i).nlink = 0 → ∀ x, (T i).rest x = 0) (hn : (T i).nlink ≠ 0 → (T i).nlink = 1 + subdirs N T i) : NodeOk N T i where
  bound := fun _ => hN
  kinds := .inr (.inl ht)
  leaf := fun h => absurd ht h
  dots := fun _ => ⟨p, htake, hp⟩
  unnamed := fun h => absurd h (dir_ne_zero ht)
  entry := fun _ => hentry
  empty := fun _ => hempty
  dirLinks := fun _ => hn
  fileLinks := fun h => absurd ht (file_ne_dir h)

theorem free (ht : (T i).type = 0) (hl : (T i).slots = []) (hrest : ∀ d, (T d).rest i = 0) : NodeOk N T i where
  bound := fun h => absurd ht h
  kinds := .inl ht
  leaf := fun _ => hl
  dots := fun h => absurd ht (dir_ne_zero h)
  unnamed := fun _ => hrest
  entry := fun h => absurd ht (dir_ne_zero h)
  empty := fun h => absurd ht (dir_ne_zero h)
  dirLinks := fun h => absurd ht (dir_ne_zero h)
  fileLinks := fun h => absurd ht (file_ne_zero h)

end NodeOk

theorem sum_succ {f f' : Nat → Nat} {a : Nat} (ha : a < N) (hf : ∀ d, f' d = f d + if d = a then 1 else 0) :
    ∑ d ∈ Finset.range N, f' d = ∑ d ∈ Finset.range N, f d + 1 := by
  simp only [hf, Finset.sum_add_distrib, Finset.sum_ite_eq', Finset.mem_range, if_pos ha]

/-! ### Trees that differ by an entry -/

/-- The trees differ in inode `i` and in directory `dp`, which has been removed in neither of them. -/
structure Beside (T T' : Nat → Node) (dp i : Nat) : Prop where
  ne : i ≠ dp
  dir : (T dp).type = T_DIR ∧ (T' dp).type = T_DIR
  live : (T dp).nlink ≠ 0 ∧ (T' dp).nlink ≠ 0
  take : (T' dp).slots.take 2 = (T dp).slots.take 2
  other : ∀ j, j ≠ i → j ≠ dp → T' j = T j
  rest : ∀ d x, x ≠ i → (T' d).rest x = (T d).rest x

theorem Beside.symm (h : Beside T T' dp i) : Beside T' T dp i :=
  ⟨h.ne, h.dir.symm, h.live.symm, h.take.symm, fun j hj hj' => (h.other j hj hj').symm, fun d x hx => (h.rest d x hx).symm⟩

theorem Beside.isSubdir (h : Beside T T' dp i) (d : Nat) {c : Nat} (hc : c ≠ i) : IsSubdir T' d c ↔ IsSubdir T d c := by
  unfold IsSubdir
  by_cases hc' : c = dp
  · rw [hc', Node.parent_eq_take, h.take, ← Node.parent_eq_take]
    simp only [h.dir, h.live, ne_eq, not_false_eq_true]
  · rw [h.other c hc hc']

theorem Beside.subdirs_eq (h : Beside T T' dp i) (hi : IsSubdir T' d i ↔ IsSubdir T d i) : subdirs N T' d = subdirs N T d := by
  refine Finset.sum_congr rfl fun c _ => if_congr ?_ rfl rfl
  by_cases hc : c = i
  · rw [hc, hi]
  · exact h.isSubdir d hc

theorem Beside.subdirs_succ (h : Beside T T' dp i) (hN : i < N) (hold : ¬ IsSubdir T dp i) (hnew : IsSubdir T' dp i) :
    subdirs N T' dp = subdirs N T dp + 1 := by
  refine sum_succ hN fun c => ?_
  by_cases hc : c = i
  · rw [hc, if_pos hnew, if_neg hold, if_pos rfl]
  · rw [if_neg hc]
    exact if_congr (h.isSubdir dp hc) rfl rfl

/-- In `T'` there is one more entry. -/
structure Added (T T' : Nat → Node) (dp i : Nat) : Prop extends Beside T T' dp i where
  entry : ∀ d, (T' d).rest i = (T d).rest i + if d = dp then 1 else 0

/-- What a directory gains with an entry for `inum`. -/
structure Entered (slots : List (Option (List UInt8 × Nat))) (j : Nat) (name : List UInt8) (inum : Nat) (l : List (Option (List UInt8 × Nat))) : Prop where
  le : j ≤ slots.length
  free : ∀ e, slots[j]? ≠ some (some e)
  stored : SlotMap.Stored slots j (some (name, inum)) l

section
variable {a m : Node} (hT : T' = Function.update (Function.update T dp a) i m) (hne : i ≠ dp) (hdp : (T dp).type = T_DIR ∧ a.type = T_DIR)
  (hlive : (T dp).nlink ≠ 0 ∧ a.nlink ≠ 0) (h2 : 2 ≤ k) (hm : ∀ x, m.rest x = (T i).rest x)
include hT hne hdp hlive h2 hm

theorem beside_update {e : Option (List UInt8 × Nat)} (hs : SlotMap.Stored (T dp).slots k e a.slots) (ha : ∀ x, x ≠ i → a.rest x = (T dp).rest x) :
    Beside T T' dp i ∧ T' i = m ∧ T' dp = a ∧ ∀ d, d ≠ dp → (T' d).rest i = (T d).rest i := by
  have hself : T' i = m := by rw [hT, Function.update_self]
  have hdir : T' dp = a := by rw [hT, Function.update_of_ne hne.symm, Function.update_self]
  have hother : ∀ j, j ≠ i → j ≠ dp → T' j = T j := fun j hj hj' => by rw [hT, Function.update_of_ne hj, Function.update_of_ne hj']
  have hrest : ∀ d x, d ≠ dp → (T' d).rest x = (T d).rest x := by
    intro d x hd
    by_cases hi : d = i
    · rw [hi, hself, hm]
    · rw [hother d hi hd]
  refine ⟨⟨hne, hdir ▸ hdp, hdir ▸ hlive, ?_, hother, fun d x hx => ?_⟩, hself, hdir, fun d hd => hrest d i hd⟩
  · rw [hdir]
    exact Node.take_stored hs h2
  · by_cases hd : d = dp
    · rw [hd, hdir, ha x hx]
    · exact hrest d x hd

theorem added_put (he : Entered (T dp).slots k name i a.slots) : Added T T' dp i ∧ T' i = m ∧ T' dp = a := by
  have hrest : ∀ x, a.rest x = (T dp).rest x + if x = i then 1 else 0 := by
    intro x
    have hold : ((T dp).slots[k]?.toList).countP (Node.names x) = 0 := by
      rcases hk : (T dp).slots[k]? with _ | _ | e
      · rfl
      · rfl
      · exact absurd hk (he.free e)
    have h := Node.rest_stored he.stored h2 he.le x
    rwa [hold, Node.countP_names, Nat.add_zero] at h
  obtain ⟨hb, hself, hdir, hi⟩ := beside_update hT hne hdp hlive h2 hm he.stored fun x hx => by rw [hrest, if_neg hx, Nat.add_zero]
  refine ⟨⟨hb, fun d => ?_⟩, hself, hdir⟩
  by_cases hd : d = dp
  · rw [hd, hdir, hrest, if_pos rfl, if_pos rfl]
  · rw [hi d hd, if_neg hd, Nat.add_zero]

theorem added_clear (hk : (T dp).slots[k]? = some (some (name, i))) (hs : SlotMap.Stored (T dp).slots k none a.slots) :
    Added T' T dp i ∧ T' i = m ∧ T' dp = a := by
  have hrest : ∀ x, (T dp).rest x = a.rest x + if x = i then 1 else 0 := by
    intro x
    have h := Node.rest_stored hs h2 (List.getElem?_eq_some_iff.1 hk).1.le x
    rw [hk, Option.toList_some, Node.countP_names] at h
    exact h.symm
  obtain ⟨hb, hself, hdir, hi⟩ := beside_update hT hne hdp hlive h2 hm hs fun x hx => by rw [hrest, if_neg hx, Nat.add_zero]
  refine ⟨⟨hb.symm, fun d => ?_⟩, hself, hdir⟩
  by_cases hd : d = dp
  · rw [hd, hdir, hrest, if_pos rfl, if_pos rfl]
  · rw [hi d hd, if_neg hd, Nat.add_zero]

end

namespace TreeOk

theorem mono (h : TreeOk N T P) (hP : ∀ i, (T i).type ≠ 0 → (T i).nlink = 0 → P i → P' i) : TreeOk N T P' :=
  { h with held := fun i ht hn => hP i ht hn (h.held i ht hn) }

theorem count_eq_rest (h : TreeOk N T P) (hi : (T i).type ≠ T_DIR) (d : Nat) : (T d).count i = (T d).rest i := by
  by_cases hd : (T d).type = T_DIR
  · obtain ⟨p, htake, hp, -⟩ := (h.node d).dots hd
    have hid : i ≠ d := by
      rintro rfl
      exact hi hd
    have hip : i ≠ p := by
      rintro rfl
      exact hi hp
    rw [Node.count, ← List.take_append_drop 2 (T d).slots, List.countP_append, htake, ← List.singleton_append, List.countP_append,
      Node.countP_names, Node.countP_names, if_neg hid, if_neg hip, Nat.add_zero, Nat.zero_add]
    rfl
  · rw [Node.count, Node.rest, (h.node d).leaf hd]
    rfl

theorem links_eq (h : TreeOk N T P) (hi : (T i).type = T_FILE) : links N T i = entries N T i :=
  Finset.sum_congr rfl fun d _ => h.count_eq_rest (file_ne_dir hi) d

theorem named {j : Nat} (h : TreeOk N T P) (hj : (T d).slots[j]? = some (some (name, i))) : (T i).type ≠ 0 := by
  intro h0
  have hcount : (T d).count i = 0 := by
    rw [h.count_eq_rest (by rw [h0]; decide)]
    exact (h.node i).unnamed h0 d
  exact List.countP_eq_zero.1 hcount _ (List.mem_of_getElem? hj) (by simp [Node.names])

theorem nlink_ne (h : TreeOk N T P) (hd : (T dp).type = T_DIR) (hi : 0 < (T dp).rest i) : (T dp).nlink ≠ 0 := by
  intro h0
  rw [(h.node dp).empty hd h0 i] at hi
  exact Nat.lt_irrefl 0 hi

theorem two_le_free (h : TreeOk N T P) (hd : (T dp).type = T_DIR) (hfree : ∀ e, (T dp).slots[k]? ≠ some (some e)) : 2 ≤ k := by
  obtain ⟨p, hl, -⟩ := (h.node dp).dots hd
  by_contra hlt
  have hk : (T dp).slots[k]? = ((T dp).slots.take 2)[k]? := by rw [List.getElem?_take, if_pos (by omega)]
  rw [hk, hl] at hfree
  rcases Nat.le_one_iff_eq_zero_or_eq_one.1 (Nat.le_of_lt_succ (Nat.lt_of_not_le hlt)) with rfl | rfl
  · exact hfree _ rfl
  · exact hfree _ rfl

theorem entries_free (h : TreeOk N T P) (hi : (T i).type = 0) : entries N T i = 0 :=
  Finset.sum_eq_zero fun d _ => (h.node i).unnamed hi d

theorem entries_succ (h : TreeOk N T P) (hdp : (T dp).type = T_DIR) {S S' : Nat → Node} (hadd : Added S S' dp i) : entries N S' i = entries N S i + 1 :=
  sum_succ ((h.node dp).bound (dir_ne_zero hdp)) hadd.entry

theorem of_same (h : TreeOk N T P') {A : Nat → Prop} (hT : ∀ x, ¬ A x → T' x = T x) (hrest : ∀ d x, ¬ A x → (T' d).rest x = (T d).rest x)
    (hsub : ∀ d c, ¬ A d → (IsSubdir T' d c ↔ IsSubdir T d c)) (hnode : ∀ x, A x → NodeOk N T' x)
    (hroot : A ROOTINO → (T' ROOTINO).type = T_DIR ∧ (T' ROOTINO).nlink ≠ 0 ∧ (T' ROOTINO).parent = some ROOTINO)
    (hparent : ∀ x p, ¬ A x → (T x).type = T_DIR → (T x).parent = some p → A p → (T' p).type = T_DIR ∧ (T' p).nlink ≠ 0)
    (hheld : ∀ x, A x → (T' x).type ≠ 0 → (T' x).nlink = 0 → P x) (hP : ∀ x, ¬ A x → P' x → P x) : TreeOk N T' P := by
  refine ⟨?_, fun x => ?_, fun x ht hn => ?_⟩
  · by_cases hA : A ROOTINO
    · exact hroot hA
    · rw [hT ROOTINO hA]
      exact h.root
  · by_cases hA : A x
    · exact hnode x hA
    · refine (h.node x).congr (hT x hA) (fun d => hrest d x hA) (fun c => hsub x c hA) fun p ht hp => ?_
      by_cases hAp : A p
      · exact hparent x p hA ht hp hAp
      · rw [hT p hAp]
        exact ((h.node x).parent ht hp).2
  · by_cases hA : A x
    · exact hheld x hA ht hn
    · rw [hT x hA] at ht hn
      exact hP x hA (h.held x ht hn)

/-- The new tree is right if inode `i` is, and the link count of `dp`. -/
theorem beside (h : TreeOk N T P) (hb : Beside T T' dp i) (hparent : ∀ x, (T x).type = T_DIR → (T x).parent ≠ some i)
    (hsub : ∀ d, d ≠ dp → ¬ IsSubdir T d i ∧ ¬ IsSubdir T' d i) (hroot : i ≠ ROOTINO) (hi : NodeOk N T' i)
    (hlinks : (T' dp).nlink = 1 + subdirs N T' dp) (hP : (T' i).type ≠ 0 → (T' i).nlink = 0 → P i) : TreeOk N T' P := by
  have hdir : (T' dp).type = T_DIR ∧ (T' dp).nlink ≠ 0 := ⟨hb.dir.2, hb.live.2⟩
  refine h.of_same (A := fun x => x = i ∨ x = dp) (fun x hx => ?_) (fun d x hx => hb.rest d x (not_or.1 hx).1) (fun d c hd => ?_) ?_ ?_ ?_ ?_
    fun _ _ => id
  · exact hb.other x (not_or.1 hx).1 (not_or.1 hx).2
  · by_cases hc : c = i
    · rw [hc]
      exact iff_of_false (hsub d (not_or.1 hd).2).2 (hsub d (not_or.1 hd).2).1
    · exact hb.isSubdir d hc
  · rintro x (rfl | rfl)
    · exact hi
    · obtain ⟨p, hp⟩ := (h.node x).exists_parent hb.dir.1
      obtain ⟨hdots, hlive⟩ := (h.node x).parent hb.dir.1 hp
      refine .dir (p := p) ((h.node x).bound (dir_ne_zero hb.dir.1)) hdir.1 (hb.take.trans hdots) ?_ (fun d => ?_) (fun h0 => absurd h0 hdir.2)
        fun _ => hlinks
      · have hpi : p ≠ i := by
          rintro rfl
          exact hparent x hb.dir.1 hp
        by_cases hpx : p = x
        · rw [hpx]
          exact hdir
        · rw [hb.other p hpi hpx]
          exact hlive
      · rw [hb.rest d x hb.ne.symm, (h.node x).entry hb.dir.1 d]
        exact if_congr (hb.isSubdir d hb.ne.symm).symm rfl rfl
  · rintro (rfl | rfl)
    · exact absurd rfl hroot
    · refine ⟨hdir.1, hdir.2, ?_⟩
      rw [Node.parent_eq_take, hb.take, ← Node.parent_eq_take]
      exact h.root.2.2
  · rintro x p - ht hp (rfl | rfl)
    · exact absurd hp (hparent x ht)
    · exact hdir
  · rintro x (rfl | rfl) ht hn
    · exact hP ht hn
    · exact absurd hn hdir.2

/-! ### Files -/

theorem file_step (h : TreeOk N T P) (hb : Beside T T' dp i) (hn : (T' dp).nlink = (T dp).nlink) (hN : i < N) (hi : (T i).type ≠ T_DIR)
    (ht : (T' i).type = T_FILE) (hl : (T' i).slots = []) (hlinks : (T' i).nlink = entries N T' i) (hP : (T' i).nlink = 0 → P i) : TreeOk N T' P := by
  have hold := not_isSubdir hi
  have hnew := not_isSubdir (file_ne_dir ht)
  refine h.beside hb (fun x hx hp => hi ((h.node x).parent hx hp).2.1) (fun d _ => ⟨hold d, hnew d⟩) ?_ (.file hN ht hl hlinks) ?_ fun _ => hP
  · rintro rfl
    exact hi h.root.1
  · rw [hn, (h.node dp).dirLinks hb.dir.1 hb.live.1, hb.subdirs_eq (iff_of_false (hnew dp) (hold dp))]

section
variable (h : TreeOk N T P) (hdp : (T dp).type = T_DIR) {l : List (Option (List UInt8 × Nat))}
include h hdp

theorem addFile {m : Node} (hlive : (T dp).nlink ≠ 0) (he : Entered (T dp).slots k name i l) (hN : i < N) (hi : (T i).type ≠ T_DIR)
    (hm : m.type = T_FILE ∧ m.slots = [] ∧ m.nlink = entries N T i + 1)
    (hT : T' = Function.update (Function.update T dp ((T dp).withSlots l)) i m) : TreeOk N T' P := by
  have hne : i ≠ dp := by
    rintro rfl
    exact hi hdp
  have hleaf : ∀ x, m.rest x = (T i).rest x := fun x => by rw [Node.rest, Node.rest, (h.node i).leaf hi, hm.2.1]
  obtain ⟨hadd, hself, hdir⟩ := added_put hT hne ⟨hdp, hdp⟩ ⟨hlive, hlive⟩ (h.two_le_free hdp he.free) hleaf he
  have hlinks := h.entries_succ hdp hadd
  rw [← hself] at hm
  refine h.file_step hadd.toBeside (by rw [hdir]; rfl) hN hi hm.1 hm.2.1 ?_ fun h0 => ?_
  · rw [hm.2.2, hlinks]
    rfl
  · rw [hm.2.2] at h0
    omega

theorem removeFile (h2 : 2 ≤ k) (hk : (T dp).slots[k]? = some (some (name, i))) (hs : SlotMap.Stored (T dp).slots k none l)
    (hi : (T i).type = T_FILE) (hP : P i)
    (hT : T' = Function.update (Function.update T dp ((T dp).withSlots l)) i ((T i).withNlink ((T i).nlink - 1))) : TreeOk N T' P := by
  have hnotdir := file_ne_dir hi
  have hne : i ≠ dp := by
    rintro rfl
    exact hnotdir hdp
  have hlive := h.nlink_ne hdp (Node.rest_pos h2 hk)
  obtain ⟨hadd, hself, hdir⟩ := added_clear hT hne ⟨hdp, hdp⟩ ⟨hlive, hlive⟩ h2 (fun _ => rfl) hk hs
  have hlinks := h.entries_succ hdp hadd
  have hold := (h.node i).fileLinks hi
  refine h.file_step hadd.symm (by rw [hdir]; rfl) ((h.node i).bound (file_ne_zero hi)) hnotdir (by rw [hself]; exact hi) ?_ ?_ fun _ => hP
  · rw [hself]
    exact (h.node i).leaf hnotdir
  · rw [hself]
    show (T i).nlink - 1 = entries N T' i
    omega

end

/-! ### Directories -/

theorem isSubdir_of_entry (h : TreeOk N T P) (hi : (T i).type = T_DIR) (hpos : 0 < (T dp).rest i) : IsSubdir T dp i := by
  by_contra hno
  rw [(h.node i).entry hi, if_neg hno] at hpos
  exact Nat.lt_irrefl 0 hpos

theorem two_le_nlink (h : TreeOk N T P) (hdp : (T dp).type = T_DIR) (hi : (T i).type = T_DIR) (hpos : 0 < (T dp).rest i) : 2 ≤ (T dp).nlink := by
  have hsub : 1 ≤ subdirs N T dp := by
    have hiN := Finset.mem_range.2 ((h.node i).bound (dir_ne_zero hi))
    refine le_trans ?_ (Finset.single_le_sum (f := fun c => if IsSubdir T dp c then 1 else 0) (fun _ _ => Nat.zero_le _) hiN)
    exact (if_pos (h.isSubdir_of_entry hi hpos)).ge
  have hlinks := (h.node dp).dirLinks hdp (h.nlink_ne hdp hpos)
  omega

section
variable (h : TreeOk N T P) (hdp : (T dp).type = T_DIR) {l : List (Option (List UInt8 × Nat))}
include h hdp

theorem addDir (hlive : (T dp).nlink ≠ 0) (he : Entered (T dp).slots k name i l) (hN : i < N) (hi : (T i).type = 0)
    (hT : T' = Function.update (Function.update T dp (((T dp).withNlink ((T dp).nlink + 1)).withSlots l)) i ⟨T_DIR, 1, [some ([46], i), some ([46, 46], dp)]⟩) :
    TreeOk N T' P := by
  have hne : i ≠ dp := by
    rintro rfl
    exact dir_ne_zero hdp hi
  have hroot : i ≠ ROOTINO := by
    rintro rfl
    exact dir_ne_zero h.root.1 hi
  have hnotdir : (T i).type ≠ T_DIR := by
    rw [hi]
    decide
  have hlinks := (h.node dp).dirLinks hdp hlive
  have hleaf : ∀ x, Node.rest ⟨T_DIR, 1, [some ([46], i), some ([46, 46], dp)]⟩ x = (T i).rest x := fun x => by
    rw [Node.rest, Node.rest, (h.node i).leaf hnotdir]
    rfl
  obtain ⟨hadd, hself, hdir⟩ := added_put hT hne ⟨hdp, hdp⟩ ⟨hlive, show (T dp).nlink + 1 ≠ 0 by omega⟩ (h.two_le_free hdp he.free) hleaf he
  have hparent : ∀ x, (T x).type = T_DIR → (T x).parent ≠ some i := fun x ht hp => dir_ne_zero ((h.node x).parent ht hp).2.1 hi
  have hnone := not_isSubdir hnotdir
  have hone : ∀ d, IsSubdir T' d i ↔ d = dp := by
    intro d
    unfold IsSubdir
    rw [hself]
    exact ⟨fun hs => (Option.some.inj hs.2.2.2).symm, fun hd => ⟨rfl, Int.one_ne_zero, hroot, congrArg some hd.symm⟩⟩
  refine h.beside hadd.toBeside hparent (fun d hd => ⟨hnone d, fun hs => hd ((hone d).1 hs)⟩) hroot ?_ ?_ fun _ h0 => ?_
  · refine .dir (p := dp) hN (by rw [hself]) (by rw [hself]; rfl) ⟨hadd.dir.2, hadd.live.2⟩ (fun d => ?_) (fun h0 => ?_) fun _ => ?_
    · rw [hadd.entry, (h.node i).unnamed hi, Nat.zero_add]
      exact if_congr (hone d).symm rfl rfl
    · rw [hself] at h0
      exact absurd h0 Int.one_ne_zero
    · have hzero : subdirs N T' i = 0 := by
        refine Finset.sum_eq_zero fun c _ => if_neg fun hs => ?_
        by_cases hc : c = i
        · rw [hc] at hs
          exact hne ((hone i).1 hs)
        · have hs := (hadd.isSubdir i hc).1 hs
          exact hparent c hs.1 hs.2.2.2
      rw [hself, hzero]
      rfl
  · rw [hadd.subdirs_succ hN (hnone dp) ((hone dp).2 rfl), hdir]
    show (T dp).nlink + 1 = _
    omega
  · rw [hself] at h0
    exact absurd h0 Int.one_ne_zero

theorem removeDir (h2 : 2 ≤ k) (hk : (T dp).slots[k]? = some (some (name, i))) (hs : SlotMap.Stored (T dp).slots k none l)
    (hi : (T i).type = T_DIR) (hempty : ∀ x, (T i).rest x = 0)
    (hlast : ∀ c, (T c).type = T_DIR → (T c).nlink = 0 → (T c).parent ≠ some i) (hP : P i)
    (hT : T' = Function.update (Function.update T dp (((T dp).withNlink ((T dp).nlink - 1)).withSlots l)) i ((T i).withNlink ((T i).nlink - 1))) : TreeOk N T' P := by
  have hpos := Node.rest_pos h2 hk
  have hne : i ≠ dp := by
    rintro rfl
    rw [hempty] at hpos
    exact Nat.lt_irrefl 0 hpos
  have hlive := h.nlink_ne hdp hpos
  have hisub := h.isSubdir_of_entry hi hpos
  have htwo := h.two_le_nlink hdp hi hpos
  have hlinks := (h.node dp).dirLinks hdp hlive
  have hnosub : ∀ c, ¬ IsSubdir T i c := by
    intro c hc
    have hrest := (h.node c).entry hc.1 i
    rw [hempty, if_pos hc] at hrest
    exact absurd hrest (by decide)
  have hlast1 : (T i).nlink = 1 := by
    have hzero : subdirs N T i = 0 := Finset.sum_eq_zero fun c _ => if_neg (hnosub c)
    rw [(h.node i).dirLinks hi hisub.2.1, hzero]
    rfl
  obtain ⟨hadd, hself, hdir⟩ := added_clear hT hne ⟨hdp, hdp⟩ ⟨hlive, show (T dp).nlink - 1 ≠ 0 by omega⟩ h2 (fun _ => rfl) hk hs
  have hzero : (T' i).nlink = 0 := by
    rw [hself, hlast1]
    rfl
  have hself0 : ∀ d, ¬ IsSubdir T' d i := fun d hs => hs.2.1 hzero
  have honly : ∀ d, d ≠ dp → ¬ IsSubdir T d i := fun d hd hs => hd (Option.some.inj (hs.2.2.2.symm.trans hisub.2.2.2))
  have hparent : ∀ x, (T x).type = T_DIR → (T x).parent ≠ some i := by
    intro x ht hp
    by_cases hn : (T x).nlink = 0
    · exact hlast x ht hn hp
    · by_cases hx : x = ROOTINO
      · subst hx
        exact hisub.2.2.1 (Option.some.inj (hp.symm.trans h.root.2.2))
      · exact hnosub x ⟨ht, hn, hx, hp⟩
  have hiN := (h.node i).bound (dir_ne_zero hi)
  refine h.beside hadd.symm hparent (fun d hd => ⟨honly d hd, hself0 d⟩) hisub.2.2.1 ?_ ?_ fun _ _ => hP
  · obtain ⟨htake, -⟩ := (h.node i).parent hi hisub.2.2.2
    refine .dir (p := dp) hiN (by rw [hself]; exact hi) (by rw [hself]; exact htake) ⟨hadd.dir.1, hadd.live.1⟩ (fun d => ?_)
      (fun _ y => by rw [hself]; exact hempty y) fun hn => absurd hzero hn
    have hc := hadd.entry d
    rw [(h.node i).entry hi d] at hc
    rw [if_neg (hself0 d)]
    by_cases hd : d = dp
    · subst hd
      rw [if_pos hisub, if_pos rfl] at hc
      omega
    · rw [if_neg (honly d hd), if_neg hd] at hc
      exact hc.symm
  · have hsum := hadd.subdirs_succ hiN (hself0 dp) hisub
    rw [hdir]
    show (T dp).nlink - 1 = _
    omega

end

theorem free (h : TreeOk N T fun x => P x ∨ x = i) (ht : (T i).type ≠ 0) (hn : (T i).nlink = 0) (hT : T' = Function.update T i .free) :
    TreeOk N T' P := by
  have hself : T' i = .free := by rw [hT, Function.update_self]
  have hother : ∀ j, j ≠ i → T' j = T j := fun j hj => by rw [hT, Function.update_of_ne hj]
  -- it has no entries
  have hrest : ∀ d x, (T' d).rest x = (T d).rest x := by
    intro d x
    by_cases hd : d = i
    · rw [hd, hself]
      by_cases hdir : (T i).type = T_DIR
      · rw [(h.node i).empty hdir hn]
        rfl
      · rw [Node.rest, Node.rest, (h.node i).leaf hdir]
        rfl
    · rw [hother d hd]
  -- and there are none for it
  have hnone : ∀ d, (T d).rest i = 0 := by
    intro d
    rcases (h.node i).kinds.resolve_left ht with hdir | hfile
    · rw [(h.node i).entry hdir, if_neg fun hs => hs.2.1 hn]
    · have hsum := (h.node i).fileLinks hfile
      rw [hn] at hsum
      have hzero : entries N T i = 0 := by omega
      by_cases hd : (T d).type = 0
      · rw [Node.rest, (h.node d).leaf (by rw [hd]; decide)]
        rfl
      · exact Finset.sum_eq_zero_iff.1 hzero d (Finset.mem_range.2 ((h.node d).bound hd))
  have hsub : ∀ d c, IsSubdir T' d c ↔ IsSubdir T d c := by
    intro d c
    unfold IsSubdir
    by_cases hc : c = i
    · subst hc
      rw [hself]
      exact iff_of_false (fun hs => absurd hs.1 (by decide)) fun hs => hs.2.1 hn
    · rw [hother c hc]
  refine h.of_same (A := fun x => x = i) hother (fun d x _ => hrest d x) (fun d c _ => hsub d c) ?_ ?_ ?_ ?_ fun x hx hP => hP.resolve_right hx
  · rintro x rfl
    exact .free (by rw [hself]; rfl) (by rw [hself]; rfl) fun d => by rw [hrest, hnone]
  · rintro rfl
    exact absurd hn h.root.2.1
  · rintro x p - hx hp rfl
    exact absurd hn ((h.node x).parent hx hp).2.2
  · rintro x rfl hx -
    rw [hself] at hx
    exact absurd rfl hx

end TreeOk

end Ostep.Fs
