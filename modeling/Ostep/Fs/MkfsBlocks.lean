import Ostep.Fs.Trunc
import Ostep.Fs.MkfsRead

/-!
# The kernel on a new disk

`mkfs` gives every block to one file and marks all that it has given, so the kernel starts on a consistent disk, unless the size of
the root directory was rounded to one block too many.
-/

namespace Ostep.Fs.Mkfs

open Xcheck (nonzero)

variable {s : St} {fs : Nat → File} {i k : Nat} {files : List HostFile} {img : Image} {fb : Nat}

theorem addrs_finalInode (fs : Nat → File) (i j : Nat) : (finalInode fs i).addrs j = (fs i).addrs j := by
  unfold finalInode
  split
  · next hi => rw [hi]; rfl
  · rfl

theorem Final.ptrAt_cases (h : Final img fb fs) (hfb : fb ≤ 1000) (hk : k < Kernel.NPTR) (hne : Kernel.ptrAt img (finalInode fs i) k ≠ 0) :
    k = NDIRECT ∧ (fs i).ind ≠ 0 ∧ Kernel.ptrAt img (finalInode fs i) k = (fs i).ind ∨
    ∃ bn, ∃ hbn : bn < (fs i).blocks.length, k = Kernel.slotFor bn ∧ Kernel.ptrAt img (finalInode fs i) k = (fs i).blocks.get ⟨bn, hbn⟩ := by
  rcases Kernel.slot_cases hk with rfl | ⟨bn, hbn, rfl⟩
  · rw [Kernel.ptrAt_ind, addrs_finalInode] at hne ⊢
    exact .inl ⟨rfl, hne, rfl⟩
  · rw [Kernel.ptrAt_slotFor, blockAt_finalInode, h.disk.blockAt hfb hbn] at hne ⊢
    have hlt : bn < (fs i).blocks.length := by
      by_contra hle
      exact hne (getD_of_le (Nat.not_lt.1 hle))
    refine .inr ⟨bn, hlt, rfl, ?_⟩
    rw [List.getD_eq_getElem?_getD, List.getElem?_eq_getElem hlt]
    rfl

theorem Final.ptrAt_mem_own (h : Final img fb fs) (hfb : fb ≤ 1000) (hk : k < Kernel.NPTR)
    (hne : Kernel.ptrAt img (finalInode fs i) k ≠ 0) : Kernel.ptrAt img (finalInode fs i) k ∈ (fs i).own := by
  rcases h.ptrAt_cases hfb hk hne with ⟨-, h0, heq⟩ | ⟨bn, hbn, -, heq⟩
  · rw [heq]
    exact ind_mem_own h0
  · rw [heq]
    exact List.mem_append_left _ (List.get_mem _ _)

theorem Final.ptrAt_inj (h : Final img fb fs) (hfb : fb ≤ 1000) {k l : Nat} (hk : k < Kernel.NPTR) (hl : l < Kernel.NPTR)
    (heq : Kernel.ptrAt img (finalInode fs i) k = Kernel.ptrAt img (finalInode fs i) l)
    (hne : Kernel.ptrAt img (finalInode fs i) k ≠ 0) : k = l := by
  obtain ⟨hblocks, -, hsep⟩ := List.nodup_append.1 (h.disk.owns.nodup i)
  have hind : (fs i).ind ≠ 0 → (fs i).ind ∈ nonzero (fs i).ind := by
    intro h0
    rw [nonzero, if_neg h0]
    exact List.mem_singleton_self _
  have hl0 := heq ▸ hne
  rcases h.ptrAt_cases hfb hk hne with ⟨hk', h0, hx⟩ | ⟨bn, hbn, hk', hx⟩ <;>
    rcases h.ptrAt_cases hfb hl hl0 with ⟨hl', h0', hy⟩ | ⟨bn', hbn', hl', hy⟩ <;> rw [hx, hy] at heq
  · exact hk'.trans hl'.symm
  · exact absurd heq.symm (hsep _ (List.get_mem _ _) _ (hind h0))
  · exact absurd heq (hsep _ (List.get_mem _ _) _ (hind h0'))
  · rw [hk', hl', Fin.mk.inj (hblocks.injective_get heq)]

theorem Final.inUse (h : Final img fb fs) {b : Nat} (hb : b < 1000) : Kernel.inUse sb img b = decide (b < fb) := by
  rw [← h.bits b hb]
  unfold Kernel.inUse Kernel.mapByte BBLOCK BPB BSIZE
  rw [show (b / (512 * 8) + sb.bmapstart) * 512 + b % (512 * 8) / 8 = 58 * 512 + b / 8 by
    have : sb.bmapstart = 58 := rfl
    omega]

theorem Final.owned (h : Final img fb fs) (hfb : fb ≤ 1000) : Kernel.Owned sb ⟨finalInode fs, img⟩ where
  size_lt := by decide
  inodes := fun i hi => by
    have hi' : i < 200 := hi
    show i / (512 / 64) + 32 < 58
    omega
  reserved := fun b hb hlt => by
    have hb' : b ≤ 58 := hb
    have hle := h.disk.owns.le
    rw [h.inUse hlt, decide_eq_true_eq]
    omega
  data := fun x hx => by
    unfold Kernel.State.ptr at hx ⊢
    split at hx
    · next hu =>
      rw [if_pos hu]
      obtain ⟨hge, hlt⟩ := h.disk.owns.range (h.ptrAt_mem_own hfb hu.2 hx)
      have hlt' : Kernel.ptrAt img (finalInode fs x.1) x.2 < 1000 := by omega
      exact ⟨hlt', hge, by rw [h.inUse hlt', decide_eq_true_eq]; exact hlt⟩
    · exact absurd rfl hx
  distinct := by
    rintro ⟨i, k⟩ ⟨j, l⟩ heq hne
    unfold Kernel.State.ptr at heq hne
    split at hne
    · next hx =>
      rw [if_pos hx] at heq
      split at heq
      · next hy =>
        have hi := h.ptrAt_mem_own hfb hx.2 hne
        have hj := h.ptrAt_mem_own hfb hy.2 (heq ▸ hne)
        obtain rfl : i = j := h.disk.owns.unique hi (by rw [heq]; exact hj)
        exact congrArg _ (h.ptrAt_inj hfb hx.2 hy.2 heq hne)
      · exact absurd heq hne
    · exact absurd rfl hne

theorem Built.finalSize (hb : Built files s fs) (hcount : files.length ≤ 214) (hround : (files.length + 2) % 32 ≠ 0) (i : Nat) :
    (finalInode fs i).size ≤ 512 * (fs i).blocks.length ∧ (finalInode fs i).size ≤ MAXFILE * BSIZE := by
  have hrootSize := hb.rootSize
  have hblocks := (hb.inv.sized i).blocks
  have hmax : (fs i).data.length ≤ 140 * 512 := hb.inv.max i
  have hbound : MAXFILE * BSIZE = 140 * 512 := rfl
  unfold finalInode
  split
  · next hi =>
    rw [hi] at hblocks ⊢
    show ((fs 1).data.length / 512 + 1) * 512 ≤ _ ∧ ((fs 1).data.length / 512 + 1) * 512 ≤ _
    omega
  · show (fs i).data.length ≤ _ ∧ (fs i).data.length ≤ _
    omega

theorem Built.consistent (hb : Built files s fs) (h : Final img s.freeblock fs) (hcount : files.length ≤ 214) (hround : (files.length + 2) % 32 ≠ 0) :
    Kernel.Consistent sb ⟨finalInode fs, img⟩ := by
  have hfb := hb.inv.freeblock
  refine ⟨h.owned hfb, fun i _ bn hbn => ?_⟩
  obtain ⟨hlen, hmax⟩ := hb.finalSize hcount hround i
  have hbn' : bn * 512 < (finalInode fs i).size := hbn
  have hmax' : (finalInode fs i).size ≤ 140 * 512 := hmax
  have hlt : bn < 140 := by omega
  refine ⟨hlt, ?_⟩
  show Kernel.blockAt img (finalInode fs i) bn ≠ 0
  rw [blockAt_finalInode, h.disk.blockAt hfb hlt]
  exact h.disk.getD_ne_zero (by omega)

end Ostep.Fs.Mkfs
