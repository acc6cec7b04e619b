import Mathlib.Data.Finset.Card
import Ostep.Fs.Log
import Ostep.Fs.Kernel

/-!
# The transactions of `filewrite` (`file.c`)

`filewrite` cuts a long write into chunks and makes a transaction of each, so that none passes more than `MAXOPBLOCKS` blocks to
`log_write`. `Logged` is a computation with the blocks that it has passed on so far, also when it panics; without these the functions
here are those of `Kernel` (`writei_result`). `filewrite_small` holds for every inode and every disk of `FSSIZE` blocks, whatever
their pointers and the free map are.
-/

namespace Ostep.Fs.Kernel

open Log (MAXOPBLOCKS)

def FSSIZE : Nat := 1000

structure Logged (α : Type) where
  blocks : List Nat
  result : Except Panic α

namespace Logged

instance : Monad Logged where
  pure a := ⟨[], .ok a⟩
  bind x f := match x.result with
    | .ok a => ⟨x.blocks ++ (f a).blocks, (f a).result⟩
    | .error e => ⟨x.blocks, .error e⟩

variable {α β : Type} {x : Logged α} {f : α → Logged β} {b : Nat}

@[simp] theorem pure_blocks (a : α) : (pure a : Logged α).blocks = [] := rfl

@[simp] theorem pure_result (a : α) : (pure a : Logged α).result = .ok a := rfl

theorem bind_result (x : Logged α) (f : α → Logged β) : (x >>= f).result = x.result >>= fun a => (f a).result := by
  show (match x.result with | .ok a => _ | .error e => _ : Logged β).result = _
  cases x.result <;> rfl

theorem mem_bind : b ∈ (x >>= f).blocks ↔ b ∈ x.blocks ∨ ∃ a, x.result = .ok a ∧ b ∈ (f a).blocks := by
  show b ∈ (match x.result with | .ok a => _ | .error e => _ : Logged β).blocks ↔ _
  cases x.result with
  | error e => simp
  | ok a => simp

/-! ### The functions with their log -/

def logWrite (b : Nat) : Logged Unit := ⟨[b], .ok ()⟩

def stop (p : Panic) : Logged α := ⟨[], .error p⟩

def bzero (b : Nat) (img : Image) : Logged Image := do
  logWrite b
  return Kernel.bzero b img

def balloc (sb : SuperBlock) (img : Image) : Logged (Nat × Image) :=
  match (List.range sb.size).find? fun b => !inUse sb img b with
  | some b => do
    logWrite (BBLOCK b sb)
    let img ← bzero b (setInUse sb b img)
    return (b, img)
  | none => stop .outOfBlocks

def loadIndirect (sb : SuperBlock) (ip : DInode) (img : Image) : Logged (Nat × DInode × Image) :=
  if ip.addrs NDIRECT = 0 then do
    let (addr, img) ← balloc sb img
    return (addr, { ip with addrs := Function.update ip.addrs NDIRECT addr }, img)
  else return (ip.addrs NDIRECT, ip, img)

def bmap (sb : SuperBlock) (ip : DInode) (img : Image) (bn : Nat) : Logged (Nat × DInode × Image) :=
  if bn < NDIRECT then
    if ip.addrs bn = 0 then do
      let (addr, img) ← balloc sb img
      return (addr, { ip with addrs := Function.update ip.addrs bn addr }, img)
    else return (ip.addrs bn, ip, img)
  else if bn - NDIRECT < NINDIRECT then do
    let (ind, ip, img) ← loadIndirect sb ip img
    let p := ind * BSIZE + (bn - NDIRECT) * 4
    if uintAt img p = 0 then do
      let (addr, img) ← balloc sb img
      logWrite ind
      return (addr, ip, setUint p addr img)
    else return (uintAt img p, ip, img)
  else stop .outOfRange

def iupdate (sb : SuperBlock) (inum : Nat) (ip : DInode) (img : Image) : Logged Image := do
  logWrite (IBLOCK inum sb)
  return Kernel.iupdate sb inum ip img

def writeLoop (sb : SuperBlock) : Nat → DInode → Image → Nat → List UInt8 → Logged (DInode × Image × Nat)
  | 0, ip, img, off, _ => return (ip, img, off)
  | fuel + 1, ip, img, off, src =>
    if src = [] then return (ip, img, off)
    else do
      let (addr, ip, img) ← bmap sb ip img (off / BSIZE)
      let m := min src.length (BSIZE - off % BSIZE)
      logWrite addr
      writeLoop sb fuel ip (store (addr * BSIZE + off % BSIZE) (src.take m) img) (off + m) (src.drop m)

def writei (sb : SuperBlock) (inum : Nat) (ip : DInode) (img : Image) (src : List UInt8) (off : Nat) :
    Logged (Option Nat × DInode × Image) :=
  if off > ip.size ∨ (off + src.length) % 2 ^ 32 < off then return (none, ip, img)
  else if (off + src.length) % 2 ^ 32 > MAXFILE * BSIZE then return (none, ip, img)
  else do
    let (ip, img, off) ← writeLoop sb src.length ip img off src
    if src.length > 0 ∧ off > ip.size then
      let ip := { ip with size := off }
      let img ← iupdate sb inum ip img
      return (some src.length, ip, img)
    else return (some src.length, ip, img)

/-! ### Without the log -/

@[simp] theorem logWrite_result (b : Nat) : (logWrite b).result = .ok () := rfl

@[simp] theorem stop_result (p : Panic) : (stop p : Logged α).result = .error p := rfl

theorem balloc_result (sb : SuperBlock) (img : Image) : (balloc sb img).result = Kernel.balloc sb img := by
  unfold balloc Kernel.balloc
  cases (List.range sb.size).find? fun b => !inUse sb img b <;> rfl

theorem bmap_result (sb : SuperBlock) (ip : DInode) (img : Image) (bn : Nat) :
    (bmap sb ip img bn).result = Kernel.bmap sb ip img bn := by
  unfold bmap Kernel.bmap
  by_cases hdir : bn < NDIRECT
  · rw [if_pos hdir, if_pos hdir]
    by_cases h0 : ip.addrs bn = 0
    · rw [if_pos h0, if_pos h0, bind_result, balloc_result]
      rfl
    · rw [if_neg h0, if_neg h0]
      rfl
  rw [if_neg hdir, if_neg hdir]
  by_cases hmax : bn - NDIRECT < NINDIRECT
  swap
  · rw [if_neg hmax, if_neg hmax]
    rfl
  rw [if_pos hmax, if_pos hmax, bind_result, loadIndirect]
  by_cases hind : ip.addrs NDIRECT = 0
  · rw [if_pos hind, if_pos hind, bind_result, balloc_result, bind_assoc]
    refine bind_congr fun ⟨addr, img⟩ => ?_
    rw [pure_result, ok_bind]
    dsimp only
    rw [pure_bind]
    split
    · rw [bind_result, balloc_result]
      rfl
    · rfl
  · rw [if_neg hind, if_neg hind, pure_result, ok_bind, ok_bind]
    dsimp only
    split
    · rw [bind_result, balloc_result]
      rfl
    · rfl

theorem writeLoop_result (sb : SuperBlock) (fuel : Nat) (ip : DInode) (img : Image) (off : Nat) (src : List UInt8) :
    (writeLoop sb fuel ip img off src).result = Kernel.writeLoop sb fuel ip img off src := by
  induction fuel generalizing ip img off src with
  | zero => rfl
  | succ fuel ih =>
    rw [writeLoop, Kernel.writeLoop]
    split
    · rfl
    · rw [bind_result, bmap_result]
      congr 1
      funext ⟨addr, ip, img⟩
      rw [bind_result, logWrite_result]
      exact ih ..

theorem writei_result (sb : SuperBlock) (inum : Nat) (ip : DInode) (img : Image) (src : List UInt8) (off : Nat) :
    (writei sb inum ip img src off).result = Kernel.writei sb inum ip img src off := by
  unfold writei Kernel.writei
  split
  · rfl
  split
  · rfl
  rw [bind_result, writeLoop_result]
  congr 1
  funext ⟨ip, img, off⟩
  dsimp only
  split <;> rfl

/-! ### The blocks of a call -/

section
variable {sb : SuperBlock} (hsize : sb.size = FSSIZE)
include hsize

theorem mem_balloc (img : Image) : ∃ addr, (∀ b ∈ (balloc sb img).blocks, b = sb.bmapstart ∨ b = addr) ∧
    ∀ r, (balloc sb img).result = .ok r → r.1 = addr := by
  unfold balloc
  cases hfind : (List.range sb.size).find? fun b => !inUse sb img b with
  | none => exact ⟨0, nofun, nofun⟩
  | some addr =>
    have hlt := List.mem_range.1 (List.mem_of_find?_eq_some hfind)
    have hmap : BBLOCK addr sb = sb.bmapstart := by
      rw [hsize, FSSIZE] at hlt
      unfold BBLOCK BPB BSIZE
      omega
    refine ⟨addr, fun b hb => ?_, fun r hr => ?_⟩
    · simpa [mem_bind, logWrite, bzero, hmap] using hb
    · cases hr
      rfl

theorem mem_loadIndirect (ip : DInode) (img : Image) : ∃ ind, (∀ b ∈ (loadIndirect sb ip img).blocks, b = sb.bmapstart ∨ b = ind) ∧
    ∀ r, (loadIndirect sb ip img).result = .ok r → r.1 = ind := by
  unfold loadIndirect
  split
  · obtain ⟨addr, hblocks, hresult⟩ := mem_balloc hsize img
    refine ⟨addr, fun b hb => ?_, fun r hr => ?_⟩
    · rcases mem_bind.1 hb with hb | ⟨x, -, hb⟩
      · exact hblocks b hb
      · cases hb
    · rw [bind_result] at hr
      obtain ⟨x, hx, hr⟩ := bind_ok hr
      cases hr
      exact hresult x hx
  · refine ⟨ip.addrs NDIRECT, nofun, fun r hr => ?_⟩
    cases hr
    rfl

theorem mem_bmap (ip : DInode) (img : Image) (bn : Nat) : ∃ ind addr,
    (∀ b ∈ (bmap sb ip img bn).blocks, b = sb.bmapstart ∨ b = ind ∨ b = addr) ∧
      ∀ r, (bmap sb ip img bn).result = .ok r → r.1 = addr := by
  unfold bmap
  by_cases hdir : bn < NDIRECT
  · rw [if_pos hdir]
    by_cases h0 : ip.addrs bn = 0
    · rw [if_pos h0]
      obtain ⟨addr, hblocks, hresult⟩ := mem_balloc hsize img
      refine ⟨addr, addr, fun b hb => ?_, fun r hr => ?_⟩
      · rcases mem_bind.1 hb with hb | ⟨x, -, hb⟩
        · exact (hblocks b hb).imp_right .inl
        · cases hb
      · rw [bind_result] at hr
        obtain ⟨x, hx, hr⟩ := bind_ok hr
        cases hr
        exact hresult x hx
    · rw [if_neg h0]
      refine ⟨0, ip.addrs bn, nofun, fun r hr => ?_⟩
      cases hr
      rfl
  rw [if_neg hdir]
  by_cases hmax : bn - NDIRECT < NINDIRECT
  swap
  · rw [if_neg hmax]
    exact ⟨0, 0, nofun, nofun⟩
  rw [if_pos hmax]
  obtain ⟨ind, hblocks, hresult⟩ := mem_loadIndirect hsize ip img
  cases hload : (loadIndirect sb ip img).result with
  | error e =>
    refine ⟨ind, 0, fun b hb => ?_, fun r hr => ?_⟩
    · rcases mem_bind.1 hb with hb | ⟨x, hx, -⟩
      · exact (hblocks b hb).imp_right .inl
      · rw [hload] at hx
        cases hx
    · rw [bind_result, hload] at hr
      cases hr
  | ok x =>
    obtain rfl := hresult x hload
    obtain ⟨ind, ip, img⟩ := x
    -- the entry of the indirect block
    by_cases h0 : uintAt img (ind * BSIZE + (bn - NDIRECT) * 4) = 0
    · obtain ⟨addr, hblocks', hresult'⟩ := mem_balloc hsize img
      refine ⟨ind, addr, fun b hb => ?_, fun r hr => ?_⟩
      · rcases mem_bind.1 hb with hb | ⟨y, hy, hb⟩
        · exact (hblocks b hb).imp_right .inl
        · rw [hload] at hy
          cases hy
          dsimp only at hb
          rw [if_pos h0] at hb
          rcases mem_bind.1 hb with hb | ⟨z, -, hb⟩
          · exact (hblocks' b hb).imp_right .inr
          · exact .inr (.inl (by simpa [mem_bind, logWrite] using hb))
      · rw [bind_result, hload, ok_bind] at hr
        dsimp only at hr
        rw [if_pos h0, bind_result] at hr
        obtain ⟨z, hz, hr⟩ := bind_ok hr
        cases hr
        exact hresult' z hz
    · refine ⟨ind, uintAt img (ind * BSIZE + (bn - NDIRECT) * 4), fun b hb => ?_, fun r hr => ?_⟩
      · rcases mem_bind.1 hb with hb | ⟨y, hy, hb⟩
        · exact (hblocks b hb).imp_right .inl
        · rw [hload] at hy
          cases hy
          dsimp only at hb
          rw [if_neg h0] at hb
          cases hb
      · rw [bind_result, hload, ok_bind] at hr
        dsimp only at hr
        rw [if_neg h0] at hr
        cases hr
        rfl

/-- How many blocks `n` bytes from `off` on lie in. -/
def span (off n : Nat) : Nat := if n = 0 then 0 else (off % BSIZE + n + (BSIZE - 1)) / BSIZE

/-- One pass of the loop logs at most two blocks besides that of the free map. The indirect block need not be the same in all passes:
where the free map has block 0 as free, its pointer can stay 0. -/
theorem mem_writeLoop (fuel : Nat) (ip : DInode) (img : Image) (off : Nat) (src : List UInt8) : ∃ l : List Nat, l.length ≤ 2 * span off src.length ∧
    ∀ b ∈ (writeLoop sb fuel ip img off src).blocks, b = sb.bmapstart ∨ b ∈ l := by
  induction fuel generalizing ip img off src with
  | zero => exact ⟨[], Nat.zero_le _, nofun⟩
  | succ fuel ih =>
    rw [writeLoop]
    by_cases hsrc : src = []
    · rw [if_pos hsrc]
      exact ⟨[], Nat.zero_le _, nofun⟩
    rw [if_neg hsrc]
    have hpos := List.length_pos_iff.2 hsrc
    obtain ⟨m, hm⟩ : ∃ m, m = min src.length (BSIZE - off % BSIZE) := ⟨_, rfl⟩
    obtain ⟨ind, addr, hblocks, hresult⟩ := mem_bmap hsize ip img (off / BSIZE)
    have hspan : span (off + m) (src.drop m).length + 1 ≤ span off src.length := by
      have hall : span off src.length = (off % BSIZE + src.length + (BSIZE - 1)) / BSIZE := if_neg hpos.ne'
      rw [hall, span, List.length_drop]
      unfold BSIZE at *
      split <;> omega
    cases hmap : (bmap sb ip img (off / BSIZE)).result with
    | error e =>
      refine ⟨[ind, addr], show 2 ≤ _ by omega, fun b hb => ?_⟩
      rcases mem_bind.1 hb with hb | ⟨x, hx, -⟩
      · simpa using hblocks b hb
      · rw [hmap] at hx
        cases hx
    | ok x =>
      obtain rfl := hresult x hmap
      obtain ⟨addr, ip, img⟩ := x
      obtain ⟨l, hl, hrest⟩ := ih ip (store (addr * BSIZE + off % BSIZE) (src.take m) img) (off + m) (src.drop m)
      refine ⟨ind :: addr :: l, show l.length + 1 + 1 ≤ _ by omega, fun b hb => ?_⟩
      rcases mem_bind.1 hb with hb | ⟨y, hy, hb⟩
      · have := hblocks b hb
        simp only [List.mem_cons]
        tauto
      rw [hmap] at hy
      cases hy
      rcases mem_bind.1 hb with hb | ⟨-, -, hb⟩
      · exact .inr (by simpa using .inr (.inl (List.mem_singleton.1 hb)))
      · rw [← hm] at hb
        have := hrest b hb
        simp only [List.mem_cons]
        tauto

theorem mem_writei (inum : Nat) (ip : DInode) (img : Image) (src : List UInt8) (off : Nat) : ∃ l : List Nat, l.length ≤ 2 * span off src.length ∧
    ∀ b ∈ (writei sb inum ip img src off).blocks, b = sb.bmapstart ∨ b = IBLOCK inum sb ∨ b ∈ l := by
  unfold writei
  split
  · exact ⟨[], Nat.zero_le _, nofun⟩
  split
  · exact ⟨[], Nat.zero_le _, nofun⟩
  obtain ⟨l, hl, hloop⟩ := mem_writeLoop hsize src.length ip img off src
  refine ⟨l, hl, fun b hb => ?_⟩
  rcases mem_bind.1 hb with hb | ⟨⟨ip, img, off⟩, -, hb⟩
  · exact (hloop b hb).imp_right .inr
  · dsimp only at hb
    split at hb
    · exact .inr (.inl (by simpa [mem_bind, iupdate, logWrite] using hb))
    · cases hb

end

end Logged

/-! ### `filewrite` -/

inductive FilePanic where
  /-- A panic in `fs.c`. -/
  | fs (p : Panic)
  /-- `short filewrite` -/
  | shortFilewrite
deriving DecidableEq, Repr

structure FileState where
  ip : DInode
  off : Nat
  img : Image

def chunkMax : Nat := (MAXOPBLOCKS - 1 - 1 - 2) / 2 * 512

/-- `writei` of any inode. For a device it calls the function of the driver, if there is one, which logs nothing. -/
def writeInode (sb : SuperBlock) (devWrite : Int → Option (List UInt8 → Option Nat)) (inum : Nat) (f : FileState) (src : List UInt8) :
    Logged (Option Nat × DInode × Image) :=
  if f.ip.type = T_DEV then return ((devWrite f.ip.major).bind (· src), f.ip, f.img)
  else Logged.writei sb inum f.ip f.img src f.off

/-- What is between `begin_op` and `end_op`. -/
def chunk (sb : SuperBlock) (devWrite : Int → Option (List UInt8 → Option Nat)) (inum : Nat) (f : FileState) (src : List UInt8) :
    Logged (Option Nat × FileState) := do
  let (r, ip, img) ← writeInode sb devWrite inum f src
  return (r, ⟨ip, (f.off + r.getD 0) % 2 ^ 32, img⟩)

/-- The loop of `filewrite`, with the bytes still to be written. Between two chunks the file is not locked: chunk `k` starts from what
`others k` makes of it. The result is the blocks logged by each transaction, and whether all has been written. -/
def writeChunks (sb : SuperBlock) (devWrite : Int → Option (List UInt8 → Option Nat)) (inum : Nat) (others : Nat → FileState → FileState) :
    Nat → Nat → FileState → List UInt8 → List (List Nat) × Except FilePanic (Bool × FileState)
  | 0, _, f, _ => ([], .ok (true, f))
  | fuel + 1, k, f, src =>
    if src = [] then ([], .ok (true, f))
    else
      let n := min src.length chunkMax
      let c := chunk sb devWrite inum (others k f) (src.take n)
      match c.result with
      | .error p => ([c.blocks], .error (.fs p))
      | .ok (none, f) => ([c.blocks], .ok (false, f))
      | .ok (some r, f) =>
        if r ≠ n then ([c.blocks], .error .shortFilewrite)
        else
          let rest := writeChunks sb devWrite inum others fuel (k + 1) f (src.drop n)
          (c.blocks :: rest.1, rest.2)

def filewrite (sb : SuperBlock) (devWrite : Int → Option (List UInt8 → Option Nat)) (inum : Nat) (others : Nat → FileState → FileState)
    (f : FileState) (src : List UInt8) : List (List Nat) × Except FilePanic (Bool × FileState) :=
  writeChunks sb devWrite inum others src.length 0 f src

section
variable {sb : SuperBlock} (hsize : sb.size = FSSIZE) (devWrite : Int → Option (List UInt8 → Option Nat)) (inum : Nat)
include hsize

theorem chunk_small (f : FileState) {src : List UInt8} (hsrc : src.length ≤ chunkMax) :
    (chunk sb devWrite inum f src).blocks.toFinset.card ≤ MAXOPBLOCKS := by
  have hspan : Logged.span f.off src.length ≤ 4 := by
    unfold chunkMax MAXOPBLOCKS at hsrc
    unfold Logged.span BSIZE
    split <;> omega
  obtain ⟨l, hl, hwrite⟩ := Logged.mem_writei hsize inum f.ip f.img src f.off
  have hsub : (chunk sb devWrite inum f src).blocks.toFinset ⊆ (sb.bmapstart :: IBLOCK inum sb :: l).toFinset := by
    intro b hb
    simp only [List.mem_toFinset] at hb ⊢
    rcases Logged.mem_bind.1 hb with hb | ⟨x, -, hb⟩
    · unfold writeInode at hb
      split at hb
      · cases hb
      · simpa using hwrite b hb
    · cases hb
  calc (chunk sb devWrite inum f src).blocks.toFinset.card
      ≤ (sb.bmapstart :: IBLOCK inum sb :: l).toFinset.card := Finset.card_le_card hsub
    _ ≤ (sb.bmapstart :: IBLOCK inum sb :: l).length := List.toFinset_card_le _
    _ ≤ MAXOPBLOCKS := by
      show l.length + 1 + 1 ≤ 10
      omega

theorem writeChunks_small (others : Nat → FileState → FileState) (fuel k : Nat) (f : FileState) (src : List UInt8) :
    ∀ t ∈ (writeChunks sb devWrite inum others fuel k f src).1, t.toFinset.card ≤ MAXOPBLOCKS := by
  induction fuel generalizing k f src with
  | zero => nofun
  | succ fuel ih =>
    rw [writeChunks]
    by_cases hsrc : src = []
    · rw [if_pos hsrc]
      nofun
    rw [if_neg hsrc]
    have hlen : (src.take (min src.length chunkMax)).length ≤ chunkMax := by
      rw [List.length_take]
      omega
    have hchunk := chunk_small hsize devWrite inum (others k f) hlen
    dsimp only
    split
    · simpa using hchunk
    · simpa using hchunk
    · split
      · simpa using hchunk
      · intro t ht
        rcases List.mem_cons.1 ht with rfl | ht
        · exact hchunk
        · exact ih _ _ _ t ht

end

/-- No transaction of `filewrite` passes more than `MAXOPBLOCKS` different blocks to `log_write`. -/
theorem filewrite_small {sb : SuperBlock} (hsize : sb.size = FSSIZE) (devWrite : Int → Option (List UInt8 → Option Nat)) (inum : Nat)
    (others : Nat → FileState → FileState) (f : FileState) (src : List UInt8) :
    ∀ t ∈ (filewrite sb devWrite inum others f src).1, t.toFinset.card ≤ MAXOPBLOCKS :=
  writeChunks_small hsize devWrite inum others src.length 0 f src

def chunksDisk : SuperBlock := ⟨FSSIZE, 941, 200, 30, 2, 32, 58⟩

def threeChunks : List (List Nat) :=
  (filewrite chunksDisk (fun _ => none) 2 (fun _ f => f)
    ⟨⟨T_FILE, 0, 0, 1, 100, fun j => if j = 0 then 60 else 0⟩, 100, ⟨1000 * 512, fun p => if p < 58 * 512 + 8 then 255 else 0⟩⟩
    (List.replicate 4000 7)).1

theorem filewrite_small_three_chunks : chunksDisk.size = FSSIZE ∧ ∀ t ∈ threeChunks, t.toFinset.card ≤ MAXOPBLOCKS :=
  ⟨rfl, filewrite_small rfl _ _ _ _ _⟩

end Ostep.Fs.Kernel
