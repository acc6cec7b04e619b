import Mathlib.Algebra.BigOperators.Group.List.Basic
import Mathlib.Data.List.Induction
import Ostep.Fs.MkfsSpec
import Ostep.Fs.KernelSpec
import Ostep.Fs.Xcheck

/-!
# The image that `mkfs` builds

`Built` is what `mkfs` has after each of its arguments: the root directory lists the files so far, and the free blocks start behind
those that all files take. `main_ok` says what the finished image holds.
-/

namespace Ostep.Fs.Mkfs

open Xcheck (dot dotdot)

variable {s s' : St} {fs : Nat → File} {i : Nat} {files : List HostFile} {f : HostFile}

/-! ### The start -/

theorem byteOf_zero (k : Nat) : byteOf 0 k = 0 := by
  rw [byteOf, Nat.zero_div]
  rfl

theorem mem_free (k : Nat) : File.free.dinode.mem k = 0 := by
  have haddrs : ∀ j, File.free.addrs j = 0 := by
    intro j
    unfold File.addrs
    split
    · rfl
    · split <;> rfl
  have hshort : ∀ j, File.free.dinode.short j = 0
    | 0 => rfl
    | 1 => rfl
    | 2 => rfl
    | _ + 3 => rfl
  unfold DInode.mem
  split
  · rw [hshort]
    exact byteOf_zero _
  · split
    · exact byteOf_zero _
    · show byteOf (File.free.addrs _) _ = 0
      rw [haddrs]
      exact byteOf_zero _

theorem zeros (n : Nat) : let img := (List.range n).foldl (fun img i => wsect i (fun _ => 0) img) (⟨0, fun _ => 0⟩ : Image)
    img.len = n * 512 ∧ ∀ p, img.byte p = 0 := by
  induction n with
  | zero => exact ⟨rfl, fun _ => rfl⟩
  | succ n ih =>
    obtain ⟨hlen, hbyte⟩ := ih
    rw [List.range_succ, List.foldl_append]
    refine ⟨?_, fun p => ?_⟩
    · show max _ (n * 512 + 512) = _
      rw [hlen]
      omega
    · refine (ite_congr rfl (fun _ => rfl) fun _ => hbyte p).trans ?_
      exact ite_self _

theorem blank_len : blank.len = 1000 * 512 := by
  have hlen := (zeros FSSIZE).1
  refine (wsect_len ?_ _).trans hlen
  rw [hlen]
  decide

theorem blank_byte (p : Nat) : blank.byte p = if p / 512 = 1 ∧ p % 512 < 28 then sb.mem (p % 512) else 0 := by
  show (if p / BSIZE = 1 then bcopy sb.mem 0 28 (fun _ => 0) (p % BSIZE) else _) = _
  rw [(zeros FSSIZE).2 p]
  unfold BSIZE bcopy
  by_cases h1 : p / 512 = 1
  · rw [if_pos h1]
    by_cases h28 : p % 512 < 28
    · rw [if_pos ⟨Nat.zero_le _, by omega⟩, if_pos ⟨h1, h28⟩, Nat.sub_zero]
    · rw [if_neg (by omega), if_neg (fun h => h28 h.2)]
  · rw [if_neg h1, if_neg fun h => h1 h.1]

theorem holds_nil (byte : Nat → UInt8) (type nlink : Int) : Holds byte ⟨type, nlink, [], 0, []⟩ where
  ind := nofun
  entry := fun h => absurd rfl h
  content := fun _ h => absurd h (Nat.not_lt_zero _)
  len := Nat.le_refl 0

theorem sized_nil (type nlink : Int) : Sized ⟨type, nlink, [], 0, []⟩ := ⟨(by decide : 0 = (0 + 511) / 512), iff_of_false (fun h => h rfl) (Nat.not_lt_zero _)⟩

theorem inv_blank : Inv ⟨blank, 1, nmeta⟩ fun _ => .free where
  disk := ⟨blank_len, owns_nil 59, fun _ => holds_nil _ 0 0, fun p hp => by
    have hp' : 59 * 512 ≤ p := hp
    show blank.byte p = 0
    rw [blank_byte, if_neg (by omega)]⟩
  freeblock := by decide
  sized := fun _ => sized_nil 0 0
  short := fun _ => ⟨(by decide : IsShort 0), (by decide : IsShort 0)⟩
  max := fun _ => Nat.zero_le _
  super := fun k hk => by
    show blank.byte (512 + k) = _
    rw [blank_byte, if_pos (by omega)]
    congr 1
    omega
  table := fun i hi k hk => by
    show blank.byte _ = _
    rw [blank_byte, if_neg (by omega), mem_free]
  free := fun _ _ => rfl

/-! ### One argument -/

theorem Inv.ialloc (h : Inv s fs) (hpos : 0 < s.freeinode) (hlt : s.freeinode < 216) {type : Int} (htype : IsShort type) :
    ∃ s', ialloc type s = .ok (s.freeinode, s') ∧ Inv s' (Function.update fs s.freeinode ⟨type, 1, [], 0, []⟩) ∧
      s'.freeinode = s.freeinode + 1 ∧ s'.freeblock = s.freeblock := by
  have hfree := h.free s.freeinode (.inr (Nat.le_refl _))
  have hown : (File.own ⟨type, 1, [], 0, []⟩).Perm (fs s.freeinode).own := by
    rw [hfree]
    exact .refl _
  have hg : Grown s s fs s.freeinode ⟨type, 1, [], 0, []⟩ :=
    ⟨h.disk.change rfl (holds_nil _ _ _) (h.disk.owns.update _ hown) (Nat.le_refl _) fun _ _ => rfl, rfl, fun _ _ => rfl⟩
  obtain ⟨img, hok, hI⟩ := h.store hg hlt h.freeblock (sized_nil _ _) ⟨htype, (by decide : IsShort 1)⟩ (Nat.zero_le _) (n := s.freeinode + 1)
    fun j hj => ⟨by omega, h.free j (by omega)⟩
  refine ⟨⟨img, s.freeinode + 1, s.freeblock⟩, ?_, hI, rfl, rfl⟩
  have haddrs : File.addrs ⟨type, 1, [], 0, []⟩ = fun _ => 0 := by
    funext j
    unfold File.addrs
    split
    · rfl
    · split <;> rfl
  unfold Mkfs.ialloc
  rw [File.dinode, haddrs] at hok
  show (winode s.freeinode ⟨type, 0, 0, 1, 0, fun _ => 0⟩ s.img >>= _) = _
  rw [show winode s.freeinode ⟨type, 0, 0, 1, 0, fun _ => 0⟩ s.img = .ok img from hok]
  rfl

theorem Inv.reads (h : Inv s fs) (hi : i < 216) (hused : 0 < i ∧ i < s.freeinode) (reads : List (List UInt8))
    (hmax : (fs i).data.length + reads.flatten.length ≤ 140 * 512)
    (hfit : s.freeblock + cost ((fs i).data.length + reads.flatten.length) ≤ 1000 + cost (fs i).data.length) :
    ∃ s' f', reads.foldlM (fun s buf => Mkfs.iappend i buf s) s = .ok s' ∧ Inv s' (Function.update fs i f') ∧ Appended (fs i) f' reads.flatten ∧
      s'.freeinode = s.freeinode ∧ s'.freeblock + cost (fs i).data.length = s.freeblock + cost f'.data.length := by
  induction reads generalizing s fs with
  | nil => exact ⟨s, fs i, rfl, by rw [Function.update_eq_self]; exact h, ⟨h.sized i, (List.append_nil _).symm, rfl, rfl⟩, rfl, rfl⟩
  | cons buf reads ih =>
    rw [List.flatten_cons, List.length_append] at hmax hfit
    have hcost : cost ((fs i).data.length + buf.length) ≤ cost ((fs i).data.length + (buf.length + reads.flatten.length)) := cost_mono (by omega)
    obtain ⟨s₁, f₁, hok, hI, happ, hino, hfb⟩ := h.iappend hi hused (p := buf) (by omega) (by omega)
    have hself : Function.update fs i f₁ i = f₁ := Function.update_self ..
    have hlen := happ.length
    obtain ⟨s', f', hok', hI', happ', hino', hfb'⟩ := ih hI ⟨hused.1, by omega⟩ (by rw [hself]; omega) (by
      rw [hself, hlen, Nat.add_assoc]
      rw [hlen] at hfb
      omega)
    rw [hself] at happ' hfb'
    rw [Function.update_idem] at hI'
    refine ⟨s', f', ?_, hI', ⟨happ'.sized, ?_, happ'.type.trans happ.type, happ'.nlink.trans happ.nlink⟩, hino'.trans hino, by omega⟩
    · rw [List.foldlM_cons, hok, ok_bind, hok']
    · rw [happ'.data, happ.data, List.append_assoc, List.flatten_cons]

/-! ### All arguments -/

def HostFile.data (f : HostFile) : List UInt8 := f.reads.flatten

def entries (files : List HostFile) : List (Nat × List UInt8) := [(1, dot), (1, dotdot)] ++ files.mapIdx fun k f => (k + 2, f.name)

/-- The blocks that the files take, with the root directory and those that are not for data. -/
def blocksNeeded (files : List HostFile) : Nat := nmeta + cost (16 * (2 + files.length)) + (files.map fun f => cost f.data.length).sum

structure Built (files : List HostFile) (s : St) (fs : Nat → File) : Prop where
  inv : Inv s fs
  freeinode : s.freeinode = 2 + files.length
  freeblock : s.freeblock = blocksNeeded files
  rootType : (fs 1).type = T_DIR
  rootData : (fs 1).data = (entries files).flatMap fun e => dirent e.1 e.2
  file : ∀ k f, files[k]? = some f → (fs (k + 2)).type = T_FILE ∧ (fs (k + 2)).data = f.data
  nlink : ∀ i, (fs i).type ≠ 0 → (fs i).nlink = 1

theorem length_dirent (inum : Nat) (name : List UInt8) : (dirent inum name).length = 16 := by
  simp [dirent, DIRSIZ]

theorem length_entries (files : List HostFile) : (entries files).length = 2 + files.length := by
  rw [entries, List.length_append, List.length_mapIdx]
  rfl

theorem length_flatMap_dirent (es : List (Nat × List UInt8)) : (es.flatMap fun e => dirent e.1 e.2).length = 16 * es.length := by
  induction es with
  | nil => rfl
  | cons e es ih =>
    rw [List.flatMap_cons, List.length_append, ih, length_dirent, List.length_cons]
    omega

theorem entries_concat (files : List HostFile) (f : HostFile) : entries (files ++ [f]) = entries files ++ [(files.length + 2, f.name)] := by
  rw [entries, entries, List.mapIdx_concat, List.append_assoc]

theorem slash_notMem (h : 47 ∉ f.name) : 47 ∉ f.arg := by
  unfold HostFile.name at h
  rcases harg : f.arg with _ | ⟨c, cs⟩
  · exact List.not_mem_nil
  · rw [harg] at h
    by_cases hc : c = 95
    · rw [if_pos (by rw [hc]; rfl)] at h
      rw [List.mem_cons, not_or]
      exact ⟨by rw [hc]; decide, h⟩
    · rwa [if_neg (by simpa using hc)] at h

theorem Built.add (h : Built files s fs) (hcount : files.length < 214) (hname : 47 ∉ f.name) (hsize : f.data.length ≤ MAXFILE * BSIZE)
    (hfit : blocksNeeded (files ++ [f]) ≤ FSSIZE) : ∃ s' fs', addFile 1 s f = .ok s' ∧ Built (files ++ [f]) s' fs' := by
  have hsum : blocksNeeded (files ++ [f]) = nmeta + cost (16 * (2 + files.length) + 16) + ((files.map fun f => cost f.data.length).sum + cost f.data.length) := by
    unfold blocksNeeded
    rw [List.length_append, List.map_append, List.sum_append]
    simp [Nat.mul_add, Nat.add_assoc]
  have hfb := h.freeblock
  unfold blocksNeeded at hfb
  have hino := h.freeinode
  have hsize' : f.data.length ≤ 140 * 512 := hsize
  have hfit' : blocksNeeded (files ++ [f]) ≤ 1000 := hfit
  have hroot : (fs 1).data.length = 16 * (2 + files.length) := by rw [h.rootData, length_flatMap_dirent, length_entries]
  -- the inode
  obtain ⟨s₁, hok₁, hI₁, hino₁, hfb₁⟩ := h.inv.ialloc (by omega) (by omega) (by decide : IsShort T_FILE)
  have hone : Function.update fs s.freeinode ⟨T_FILE, 1, [], 0, []⟩ 1 = fs 1 := Function.update_of_ne (by omega) ..
  -- the entry
  obtain ⟨s₂, r, hok₂, hI₂, happ₂, hino₂, hfb₂⟩ := hI₁.iappend (i := 1) (p := dirent s.freeinode f.name) (by omega) ⟨by omega, by omega⟩
    (by rw [hone, hroot, length_dirent]; omega) (by rw [hone, hroot, length_dirent, hfb₁]; omega)
  rw [hone] at happ₂ hfb₂
  have hlen₂ := happ₂.length
  rw [hroot, length_dirent] at hlen₂
  rw [hroot, hlen₂] at hfb₂
  have hnew : Function.update (Function.update fs s.freeinode ⟨T_FILE, 1, [], 0, []⟩) 1 r s.freeinode = ⟨T_FILE, 1, [], 0, []⟩ := by
    rw [Function.update_of_ne (by omega), Function.update_self]
  -- the content
  obtain ⟨s₃, f₃, hok₃, hI₃, happ₃, hino₃, hfb₃⟩ := hI₂.reads (i := s.freeinode) (by omega) ⟨by omega, by omega⟩ f.reads
    (by rw [hnew]; show 0 + f.data.length ≤ _; omega) (by
      rw [hnew]
      show s₂.freeblock + cost (0 + f.data.length) ≤ 1000 + cost 0
      rw [Nat.zero_add]
      omega)
  rw [hnew] at happ₃ hfb₃
  have hdata : f₃.data = f.data := happ₃.data
  rw [hdata] at hfb₃
  have hcost0 : cost 0 = 0 := by decide
  have hfb₃' : s₃.freeblock + cost 0 = s₂.freeblock + cost f.data.length := hfb₃
  have hone₃ : Function.update (Function.update (Function.update fs s.freeinode ⟨T_FILE, 1, [], 0, []⟩) 1 r) s.freeinode f₃ 1 = r := by
    rw [Function.update_of_ne (by omega), Function.update_self]
  refine ⟨s₃, _, ?_, hI₃, ?_, by omega, ?_, ?_, fun k g hk => ?_, fun i hi => ?_⟩
  · unfold addFile
    rw [if_neg (slash_notMem hname)]
    simp only [hok₁, hok₂, ok_bind]
    exact hok₃
  · rw [List.length_append, List.length_singleton]
    omega
  · rw [hone₃, happ₂.type, h.rootType]
  · rw [hone₃, happ₂.data, h.rootData, entries_concat, List.flatMap_append, List.flatMap_singleton, hino, Nat.add_comm 2]
  · rcases Nat.lt_or_ge k files.length with hlt | hge
    · rw [List.getElem?_append_left hlt] at hk
      rw [Function.update_of_ne (by omega), Function.update_of_ne (by omega), Function.update_of_ne (by omega)]
      exact h.file k g hk
    · obtain ⟨hk', -⟩ := List.getElem?_eq_some_iff.1 hk
      rw [List.length_append, List.length_singleton] at hk'
      obtain rfl : k = files.length := by omega
      rw [List.getElem?_concat_length] at hk
      cases hk
      rw [show files.length + 2 = s.freeinode by omega, Function.update_self]
      exact ⟨happ₃.type, hdata⟩
  · rcases eq_or_ne i s.freeinode with rfl | hnew
    · rw [Function.update_self, happ₃.nlink]
    · rw [Function.update_of_ne hnew] at hi ⊢
      rcases eq_or_ne i 1 with rfl | hroot
      · rw [Function.update_self, happ₂.nlink]
        exact h.nlink 1 (by rw [h.rootType]; decide)
      · rw [Function.update_of_ne hroot, Function.update_of_ne hnew] at hi ⊢
        exact h.nlink i hi

theorem blocksNeeded_le (files : List HostFile) (f : HostFile) : blocksNeeded files ≤ blocksNeeded (files ++ [f]) := by
  unfold blocksNeeded
  rw [List.length_append, List.map_append, List.sum_append]
  have := cost_mono (show 16 * (2 + files.length) ≤ 16 * (2 + (files.length + [f].length)) by omega)
  omega

theorem Built.addAll (h : Built [] s fs) (hcount : files.length ≤ 214) (hname : ∀ f ∈ files, 47 ∉ f.name)
    (hsize : ∀ f ∈ files, f.data.length ≤ MAXFILE * BSIZE) (hfit : blocksNeeded files ≤ FSSIZE) :
    ∃ s' fs', files.foldlM (addFile 1) s = .ok s' ∧ Built files s' fs' := by
  induction files using List.reverseRecOn with
  | nil => exact ⟨s, fs, rfl, h⟩
  | append_singleton files f ih =>
    rw [List.length_append, List.length_singleton] at hcount
    obtain ⟨s₁, fs₁, hok₁, h₁⟩ := ih (by omega) (fun g hg => hname g (by simp [hg])) (fun g hg => hsize g (by simp [hg]))
      (Nat.le_trans (blocksNeeded_le files f) hfit)
    obtain ⟨s₂, fs₂, hok₂, h₂⟩ := h₁.add (by omega) (hname f (by simp)) (hsize f (by simp)) hfit
    refine ⟨s₂, fs₂, ?_, h₂⟩
    rw [List.foldlM_append, hok₁, ok_bind, List.foldlM_cons, hok₂]
    rfl

/-! ### The end -/

theorem bitmapOf_succ (n : Nat) : bitmapOf (n + 1) =
    Function.update (bitmapOf n) (n / 8) (UInt8.ofNat ((bitmapOf n (n / 8)).toNat ||| 1 <<< (n % 8))) := by
  rw [bitmapOf, List.range_succ, List.foldl_append]
  rfl

theorem testBit_bitmapOf (n b : Nat) : (bitmapOf n (b / 8)).toNat.testBit (b % 8) = decide (b < n) := by
  induction n with
  | zero =>
    show Nat.testBit 0 _ = _
    rw [Nat.zero_testBit]
    simp
  | succ n ih =>
    rw [bitmapOf_succ]
    by_cases hb : b / 8 = n / 8
    · rw [hb, Function.update_self, UInt8.toNat_ofNat', Nat.mod_eq_of_lt (Kernel.or_bit_lt _ _), Nat.testBit_or, Nat.one_shiftLeft,
        Nat.testBit_two_pow, ← hb, ih]
      rw [Bool.eq_iff_iff]
      simp only [Bool.or_eq_true, decide_eq_true_eq]
      omega
    · rw [Function.update_of_ne hb, ih, decide_eq_decide]
      omega

/-- The inode on the disk: `main` rounds the size of the root directory. -/
def finalInode (fs : Nat → File) (i : Nat) : DInode :=
  if i = 1 then { (fs 1).dinode with size := ((fs 1).dinode.size / BSIZE + 1) * BSIZE } else (fs i).dinode

/-- What the finished image holds. -/
structure Final (img : Image) (fb : Nat) (fs : Nat → File) : Prop where
  disk : Disk img fb fs
  super : ∀ k < 28, img.byte (512 + k) = sb.mem k
  table : ∀ i < 208, ∀ k < 64, img.byte (32 * 512 + i * 64 + k) = (finalInode fs i).mem k
  bits : ∀ b < 1000, (img.byte (58 * 512 + b / 8)).toNat.testBit (b % 8) = decide (b < fb)

theorem built_nil : ∃ s₁ s₂ s₃ fs, ialloc T_DIR ⟨blank, 1, nmeta⟩ = .ok (1, s₁) ∧ iappend 1 (dirent 1 dot) s₁ = .ok s₂ ∧
    iappend 1 (dirent 1 dotdot) s₂ = .ok s₃ ∧ Built [] s₃ fs := by
  obtain ⟨s₁, hok₁, hI₁, hino₁, hfb₁⟩ := inv_blank.ialloc (by decide) (by decide) (by decide : IsShort T_DIR)
  have hone : ∀ f : File, Function.update (fun _ => File.free) 1 f 1 = f := fun f => Function.update_self ..
  have h59 : s₁.freeblock = 59 := hfb₁
  have h2 : s₁.freeinode = 2 := hino₁
  obtain ⟨s₂, r₂, hok₂, hI₂, happ₂, hino₂, hfb₂⟩ := hI₁.iappend (i := 1) (p := dirent 1 dot) (by omega) ⟨by omega, by omega⟩
    (by rw [length_dirent]; decide) (by rw [length_dirent, h59]; decide)
  have hlen₂ : r₂.data.length = 16 := by rw [happ₂.length, length_dirent]; rfl
  have hfb₂' : s₂.freeblock + cost 0 = s₁.freeblock + cost r₂.data.length := hfb₂
  rw [Function.update_idem] at hI₂
  rw [hlen₂, h59] at hfb₂'
  have h60 : s₂.freeblock = 60 := by
    have h0 : cost 0 = 0 := by decide
    have h16 : cost 16 = 1 := by decide
    omega
  obtain ⟨s₃, r₃, hok₃, hI₃, happ₃, hino₃, hfb₃⟩ := hI₂.iappend (i := 1) (p := dirent 1 dotdot) (by omega) ⟨by omega, by omega⟩
    (by rw [hone, hlen₂, length_dirent]; decide) (by rw [hone, hlen₂, length_dirent, h60]; decide)
  rw [hone] at happ₃ hfb₃
  rw [Function.update_idem] at hI₃
  have hlen₃ : r₃.data.length = 32 := by rw [happ₃.length, hlen₂, length_dirent]
  rw [hlen₂, hlen₃, h60] at hfb₃
  refine ⟨s₁, s₂, s₃, Function.update (fun _ => File.free) 1 r₃, hok₁, hok₂, hok₃, hI₃, by rw [hino₃, hino₂]; exact h2, ?_, ?_, ?_,
    (fun k f hk => by cases hk), fun i hi => ?_⟩
  · have h16 : cost 16 = 1 := by decide
    have h32 : cost 32 = 1 := by decide
    have hneed : blocksNeeded [] = 60 := by decide
    omega
  · rw [hone, happ₃.type, happ₂.type]
    rfl
  · rw [hone, happ₃.data, happ₂.data]
    rfl
  · rcases eq_or_ne i 1 with rfl | hroot
    · rw [hone, happ₃.nlink, happ₂.nlink]
      rfl
    · rw [Function.update_of_ne hroot] at hi
      exact absurd rfl hi

theorem main_ok (hcount : files.length ≤ 214) (hname : ∀ f ∈ files, 47 ∉ f.name) (hsize : ∀ f ∈ files, f.data.length ≤ MAXFILE * BSIZE)
    (hfit : blocksNeeded files ≤ FSSIZE) : ∃ img s fs, main files = .ok img ∧ Built files s fs ∧ Final img s.freeblock fs := by
  obtain ⟨s₁, s₂, s₃, fs₃, hok₁, hok₂, hok₃, hnil⟩ := built_nil
  obtain ⟨s, fs, hok, h⟩ := hnil.addAll hcount hname hsize hfit
  obtain ⟨img₁, hok₄, hlen₁, hbyte₁⟩ := winode_ok h.inv.disk.len (by omega : 1 < 216) (finalInode fs 1)
  have hfb := h.inv.freeblock
  have hmap : sb.bmapstart * BSIZE + BSIZE ≤ img₁.len := by
    rw [hlen₁, h.inv.disk.len]
    decide
  have hlow : ∀ p, p / 512 ≠ 58 → (wsect sb.bmapstart (bitmapOf s.freeblock) img₁).byte p = img₁.byte p := fun p hp => wsect_of_ne hp _
  refine ⟨wsect sb.bmapstart (bitmapOf s.freeblock) img₁, s, fs, ?_, h, h.inv.disk.low ((wsect_len hmap _).trans hlen₁) fun p hp => ?_,
    fun k hk => ?_, fun i hi k hk => ?_, fun b hb => ?_⟩
  · have hroot : ¬ (1 : Nat) ≠ ROOTINO := by decide
    have hballoc : balloc s.freeblock img₁ = .ok (wsect sb.bmapstart (bitmapOf s.freeblock) img₁) := if_pos (by unfold BSIZE; omega)
    have hfinal : finalInode fs 1 = { (fs 1).dinode with size := ((fs 1).dinode.size / BSIZE + 1) * BSIZE } := if_pos rfl
    rw [hfinal] at hok₄
    unfold main
    simp only [hok₁, ok_bind, if_neg hroot]
    show (iappend 1 (dirent 1 dot) s₁ >>= _) = _
    simp only [hok₂, ok_bind]
    show (iappend 1 (dirent 1 dotdot) s₂ >>= _) = _
    simp only [hok₃, ok_bind, hok, h.inv.rinode (by omega : 1 < 216), hok₄, hballoc]
  · rw [hlow p (by omega), hbyte₁, if_neg (by omega)]
  · rw [hlow _ (by omega), hbyte₁, if_neg (by omega)]
    exact h.inv.super k hk
  · rw [hlow _ (by omega), hbyte₁]
    by_cases h1 : i = 1
    · rw [h1, if_pos (by omega), Nat.add_sub_cancel_left]
    · rw [if_neg (by omega), finalInode, if_neg h1]
      exact h.inv.table i (by omega) k hk
  · rw [← testBit_bitmapOf]
    have hself := wsect_self img₁ sb.bmapstart (b / 8) (by unfold BSIZE; omega) (bitmapOf s.freeblock)
    exact congrArg (fun x : UInt8 => x.toNat.testBit (b % 8)) hself

/-! ### What the kernel reads -/

theorem uintAt_eq_uintOf (img : Image) (a b : Nat) : Kernel.uintAt img (a + b) = uintOf (fun q => img.byte (a + q)) b := by
  unfold Kernel.uintAt uintOf
  rw [Nat.add_assoc a b 1, Nat.add_assoc a b 2, Nat.add_assoc a b 3]

section
variable {img : Image} {fb : Nat}

theorem Disk.blockAt (h : Disk img fb fs) (hfb : fb ≤ 1000) {bn : Nat} (hbn : bn < 140) :
    Kernel.blockAt img (fs i).dinode bn = (fs i).blocks.getD bn 0 := by
  unfold Kernel.blockAt
  rcases Nat.lt_or_ge bn NDIRECT with hlt | hge
  · rw [if_pos hlt]
    exact if_pos hlt
  · have hge' : 12 ≤ bn := hge
    rw [if_neg (Nat.not_lt.2 hge)]
    show (if (fs i).ind = 0 then 0 else Kernel.uintAt img ((fs i).ind * BSIZE + (bn - NDIRECT) * 4)) = _
    by_cases hind : (fs i).ind = 0
    · have hlen := mt (h.holds i).ind (not_not.2 hind)
      rw [if_pos hind, getD_of_le (by omega)]
    · have hentry := h.entry hfb hind (k := bn - 12) (by omega)
      rw [Nat.add_sub_cancel' hge'] at hentry
      rw [if_neg hind, uintAt_eq_uintOf]
      exact hentry

theorem Disk.getD_ne_zero (h : Disk img fb fs) {bn : Nat} (hbn : bn < (fs i).blocks.length) : (fs i).blocks.getD bn 0 ≠ 0 := by
  have := (h.owns.range (getD_mem_own hbn)).1
  omega

theorem Disk.blocks_content (h : Disk img fb fs) (hfb : fb ≤ 1000) (hs : Sized (fs i)) (hmax : (fs i).data.length ≤ 140 * 512) {p : Nat}
    (hp : p < 512 * (fs i).blocks.length) : Kernel.content img (fs i).dinode p = (fs i).data.getD p 0 := by
  have hblocks := hs.blocks
  have hlt : p / 512 < (fs i).blocks.length := by omega
  rw [Kernel.content, show p / BSIZE = p / 512 from rfl, h.blockAt hfb (by omega), if_neg (h.getD_ne_zero hlt)]
  exact (h.holds i).content p hp

theorem Disk.content (h : Disk img fb fs) (hfb : fb ≤ 1000) (hs : Sized (fs i)) (hmax : (fs i).data.length ≤ 140 * 512) {p : Nat}
    (hp : p < (fs i).data.length) : Kernel.content img (fs i).dinode p = (fs i).data.getD p 0 :=
  h.blocks_content hfb hs hmax (Nat.lt_of_lt_of_le hp (h.holds i).len)

end

/-- The kernel finds the data of each argument in its inode. -/
theorem main_content (hcount : files.length ≤ 198) (hname : ∀ f ∈ files, 47 ∉ f.name) (hsize : ∀ f ∈ files, f.data.length ≤ MAXFILE * BSIZE)
    (hfit : blocksNeeded files ≤ FSSIZE) : ∃ img, main files = .ok img ∧ ∀ k f, files[k]? = some f → ∃ d : DInode,
      (∀ j < 64, img.byte (32 * 512 + (k + 2) * 64 + j) = d.mem j) ∧ d.type = T_FILE ∧ d.size = f.data.length ∧
        ∀ p < d.size, Kernel.content img d p = f.data.getD p 0 := by
  obtain ⟨img, s, fs, hok, hb, h⟩ := main_ok (by omega) hname hsize hfit
  refine ⟨img, hok, fun k f hk => ?_⟩
  have hlt := (List.getElem?_eq_some_iff.1 hk).1
  obtain ⟨htype, hdata⟩ := hb.file k f hk
  refine ⟨(fs (k + 2)).dinode, fun j hj => ?_, htype, congrArg List.length hdata, fun p hp => ?_⟩
  · rw [h.table (k + 2) (by omega) j hj, finalInode, if_neg (by omega)]
  · rw [h.disk.content hb.inv.freeblock (hb.inv.sized _) (hb.inv.max _) hp, hdata]

theorem main_content_small : ∃ img, main [⟨[97], [[1, 2]]⟩] = .ok img ∧
    ∃ d : DInode, d.size = 2 ∧ ∀ p < d.size, Kernel.content img d p = [1, 2].getD p 0 := by
  obtain ⟨img, hok, h⟩ := @main_content [⟨[97], [[1, 2]]⟩] (by decide) (by decide) (by decide) (by decide +kernel)
  obtain ⟨d, -, -, hsize, hdata⟩ := h 0 _ rfl
  exact ⟨img, hok, d, hsize, hdata⟩

end Ostep.Fs.Mkfs
