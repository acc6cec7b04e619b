import Ostep.Fs.MkfsImage

/-!
# What `mkfs` accepts

The conditions of `main_ok` are necessary, too: each block that `iappend` takes is read before it is written, so that `mkfs` stops at
the first one behind the end of the disk, and a file that is too long fails its `assert`. Only the number of files is not tested.
-/

namespace Ostep.Fs.Mkfs

variable {s s' : St} {files : Nat → File} {i x : Nat} {din din' : DInode} {f : File}

theorem le_of_rsect_ok {img : Image} {sec : Nat} {buf : Nat → UInt8} (h : rsect sec img = .ok buf) : sec * BSIZE + BSIZE ≤ img.len := by
  unfold rsect at h
  split at h
  · next hle => exact hle
  · cases h

theorem entryFor_fits {k : Nat} (hlen : s.img.len = 1000 * 512)
    (hnew : uintOf (fun q => s.img.byte (din.addrs NDIRECT * BSIZE + q)) (k * 4) = 0)
    (hok : entryFor k din s = .ok (x, din', s')) (hx : x * BSIZE + BSIZE ≤ s'.img.len) : s.freeblock + 1 ≤ 1000 := by
  unfold entryFor at hok
  obtain ⟨buf, hbuf, hok⟩ := bind_ok hok
  have hin := le_of_rsect_ok hbuf
  rw [rsect_ok hin] at hbuf
  cases hbuf
  rw [if_pos hnew] at hok
  cases hok
  rw [wsect_len hin, hlen] at hx
  unfold BSIZE at hx
  omega

theorem blockFor_fits (h : Disk s.img s.freeblock files) (hs : Sized (files i)) (hfb : s.freeblock ≤ 1000)
    (hmax : (files i).data.length < 140 * 512) (haddrs : din.addrs = (files i).addrs)
    (hok : blockFor ((files i).data.length / 512) din s = .ok (x, din', s')) (hx : x * BSIZE + BSIZE ≤ s'.img.len) :
    s.freeblock + cost ((files i).data.length + 1) ≤ 1000 + cost (files i).data.length := by
  have hblocks := hs.blocks
  have hind := hs.ind
  rcases Nat.eq_zero_or_pos ((files i).data.length % 512) with h0 | hpos
  swap
  · rw [cost_succ (by omega)]
    omega
  -- a new block is taken
  have hnone : ∀ j, (files i).data.length / 512 ≤ j → (files i).blocks.getD j 0 = 0 := fun j hj => getD_of_le (by omega)
  unfold blockFor at hok
  rcases Nat.lt_or_ge ((files i).data.length / 512) NDIRECT with hdirect | hindirect
  · have haddr : din.addrs ((files i).data.length / 512) = 0 := by
      rw [haddrs]
      exact (if_pos hdirect).trans (hnone _ (Nat.le_refl _))
    rw [if_pos hdirect, if_pos haddr] at hok
    cases hok
    unfold NDIRECT at hdirect
    rw [cost_succ_of_full h0 (by omega)]
    have hx : s.freeblock * BSIZE + BSIZE ≤ s.img.len := hx
    rw [h.len] at hx
    unfold BSIZE at hx
    omega
  unfold NDIRECT at hindirect
  rw [if_neg (by unfold NDIRECT; omega)] at hok
  by_cases hno : (files i).ind = 0
  · -- the indirect block, which is all zeros, is taken as well
    have hdata : (files i).data.length = 12 * 512 := by
      have := mt hind.2 (not_not.2 hno)
      omega
    rw [if_pos (by rw [haddrs]; exact hno)] at hok
    have hzero : ∀ q, s.img.byte (s.freeblock * BSIZE + q) = 0 := h.fresh_block
    have hcost : cost (12 * 512 + 1) = cost (12 * 512) + 2 := by decide
    have hfit := entryFor_fits (s := { s with freeblock := s.freeblock + 1 }) h.len (by
      show uintOf (fun q => s.img.byte (Function.update din.addrs NDIRECT s.freeblock NDIRECT * BSIZE + q)) _ = 0
      simp only [Function.update_self, hzero]
      rfl) hok hx
    have hfit : s.freeblock + 1 + 1 ≤ 1000 := hfit
    rw [hdata, hcost]
    omega
  · have hgt := hind.1 hno
    rw [if_neg (by rw [haddrs]; exact hno)] at hok
    have hentry := h.entry hfb hno (k := (files i).data.length / 512 - 12) (by omega)
    rw [hnone _ (by omega)] at hentry
    have hfit := entryFor_fits h.len (by rw [haddrs, addrs_twelve]; exact hentry) hok hx
    rw [cost_succ_of_full h0 (by omega)]
    omega

theorem iappendLoop_fits {fuel : Nat} {p : List UInt8} {r : DInode × St × Nat} (hfuel : p.length ≤ fuel) (h : Disk s.img s.freeblock files)
    (hf : files i = f) (hs : Sized f) (hfb : s.freeblock ≤ 1000) (hmax : f.data.length ≤ 140 * 512) (haddrs : din.addrs = f.addrs)
    (hok : iappendLoop fuel din s f.data.length p = .ok r) :
    f.data.length + p.length ≤ 140 * 512 ∧ s.freeblock + cost (f.data.length + p.length) ≤ 1000 + cost f.data.length := by
  induction fuel generalizing s files f din p with
  | zero =>
    obtain rfl := List.length_eq_zero_iff.1 (Nat.le_zero.1 hfuel)
    exact ⟨hmax, Nat.add_le_add_right hfb _⟩
  | succ fuel ih =>
    by_cases hp : p = []
    · subst hp
      exact ⟨hmax, Nat.add_le_add_right hfb _⟩
    subst hf
    -- this pass
    obtain ⟨hlt, hfit⟩ : (files i).data.length < 140 * 512 ∧
        s.freeblock + cost ((files i).data.length + 1) ≤ 1000 + cost (files i).data.length := by
      rw [iappendLoop, if_neg hp] at hok
      have hfbn : (files i).data.length / BSIZE < MAXFILE := by
        by_contra hge
        simp only [hge, not_false_eq_true, if_true, error_bind, reduceCtorEq] at hok
      simp only [not_not.2 hfbn, if_false] at hok
      obtain ⟨⟨x, din₁, s₁⟩, hblock, hok⟩ := bind_ok hok
      obtain ⟨buf, hbuf, -⟩ := bind_ok hok
      have hlt : (files i).data.length < 140 * 512 := by
        unfold MAXFILE NINDIRECT NDIRECT BSIZE at hfbn
        omega
      exact ⟨hlt, blockFor_fits h hs hfb hlt haddrs hblock (le_of_rsect_ok hbuf)⟩
    -- and the others
    obtain ⟨n, s₁, f₁, hpos, hn, hstep, hg, happ, hblock, hfb₁⟩ := iappendLoop_step hp h hs hlt hfit haddrs
    rw [hstep fuel] at hok
    have hlen := happ.length
    rw [List.length_take_of_le hn] at hlen
    have hrest : (p.drop n).length = p.length - n := List.length_drop
    have hcost : cost f₁.data.length = cost ((files i).data.length + 1) := cost_congr (by omega)
    have hfb' : s₁.freeblock ≤ 1000 := by
      rw [hcost] at hfb₁
      omega
    have hmax' : f₁.data.length ≤ 140 * 512 :=
      hblock.trans (Nat.mul_le_mul_right 512 ((Nat.div_lt_iff_lt_mul (Nat.succ_pos 511)).2 hlt))
    obtain ⟨hmax', hfit'⟩ := ih (p := p.drop n) (by omega) hg.disk (Function.update_self ..) happ.sized hfb' hmax'
      (show DInode.addrs { din with addrs := f₁.addrs } = f₁.addrs from rfl) hok
    have htotal : f₁.data.length + (p.drop n).length = (files i).data.length + p.length := by omega
    rw [htotal] at hmax' hfit'
    exact ⟨hmax', by omega⟩

theorem Inv.iappend_fits (h : Inv s files) (hi : i < 216) {p : List UInt8} (hok : Mkfs.iappend i p s = .ok s') :
    (files i).data.length + p.length ≤ 140 * 512 ∧
      s.freeblock + cost ((files i).data.length + p.length) ≤ 1000 + cost (files i).data.length := by
  unfold Mkfs.iappend at hok
  rw [h.rinode hi, ok_bind] at hok
  obtain ⟨r, hloop, -⟩ := bind_ok hok
  exact iappendLoop_fits (Nat.le_refl _) h.disk rfl (h.sized i) h.freeblock (h.max i) rfl hloop

theorem Inv.reads_fits (h : Inv s files) (hi : i < 216) (hused : 0 < i ∧ i < s.freeinode) {reads : List (List UInt8)}
    (hok : reads.foldlM (fun s buf => Mkfs.iappend i buf s) s = .ok s') :
    (files i).data.length + reads.flatten.length ≤ 140 * 512 ∧
      s.freeblock + cost ((files i).data.length + reads.flatten.length) ≤ 1000 + cost (files i).data.length := by
  induction reads generalizing s files with
  | nil => exact ⟨h.max i, Nat.add_le_add_right h.freeblock _⟩
  | cons buf reads ih =>
    rw [List.foldlM_cons] at hok
    obtain ⟨s₁, hok₁, hok⟩ := bind_ok hok
    obtain ⟨hmax, hfit⟩ := h.iappend_fits hi hok₁
    obtain ⟨s₂, f₂, hok₂, hI, happ, hino, hfb⟩ := h.iappend hi hused hmax hfit
    obtain rfl : s₁ = s₂ := Except.ok.inj (hok₁.symm.trans hok₂)
    have hlen := happ.length
    obtain ⟨hmax', hfit'⟩ := ih hI ⟨hused.1, by omega⟩ hok
    rw [Function.update_self, hlen, Nat.add_assoc] at hmax' hfit'
    rw [hlen] at hfb
    rw [List.flatten_cons, List.length_append]
    exact ⟨hmax', by omega⟩

/-! ### All arguments -/

variable {hosts : List HostFile} {host : HostFile} {img : Image}

theorem notMem_name (h : 47 ∉ host.arg) : 47 ∉ host.name := by
  unfold HostFile.name
  split
  · exact fun hmem => h (List.mem_of_mem_tail hmem)
  · exact h

theorem Built.add_fits (h : Built hosts s files) (hcount : hosts.length < 214) (hok : addFile 1 s host = .ok s') :
    47 ∉ host.name ∧ host.data.length ≤ MAXFILE * BSIZE ∧ blocksNeeded (hosts ++ [host]) ≤ FSSIZE := by
  have hino := h.freeinode
  have hroot : (files 1).data.length = 16 * (2 + hosts.length) := by rw [h.rootData, length_flatMap_dirent, length_entries]
  unfold addFile at hok
  by_cases hslash : 47 ∈ host.arg
  · simp only [if_pos hslash, error_bind, reduceCtorEq] at hok
  simp only [if_neg hslash] at hok
  obtain ⟨⟨inum, s₁⟩, hok₁, hok⟩ := bind_ok hok
  obtain ⟨s₂, hok₂, hok₃⟩ := bind_ok hok
  -- the inode
  obtain ⟨s₁', hok₁', hI₁, hino₁, hfb₁⟩ := h.inv.ialloc (by omega) (by omega) (by decide : IsShort T_FILE)
  obtain ⟨rfl, rfl⟩ := Prod.mk.inj (Except.ok.inj (hok₁.symm.trans hok₁'))
  -- the entry
  obtain ⟨hmax₂, hfit₂⟩ := hI₁.iappend_fits (by omega) hok₂
  obtain ⟨s₂', r, hok₂', hI₂, happ₂, hino₂, hfb₂⟩ := hI₁.iappend (by omega) ⟨by omega, by omega⟩ hmax₂ hfit₂
  obtain rfl : s₂ = s₂' := Except.ok.inj (hok₂.symm.trans hok₂')
  have hone : Function.update files s.freeinode ⟨T_FILE, 1, [], 0, []⟩ 1 = files 1 := Function.update_of_ne (by omega) ..
  rw [hone] at happ₂ hfb₂
  have hlen₂ := happ₂.length
  rw [hroot, length_dirent] at hlen₂
  rw [hroot, hlen₂] at hfb₂
  -- the content
  obtain ⟨hmax₃, hfit₃⟩ := hI₂.reads_fits (by omega) ⟨by omega, by omega⟩ hok₃
  rw [Function.update_of_ne (by omega), Function.update_self] at hmax₃ hfit₃
  have hmax₃ : 0 + host.data.length ≤ 140 * 512 := hmax₃
  have hfit₃ : s₂.freeblock + cost (0 + host.data.length) ≤ 1000 + cost 0 := hfit₃
  rw [Nat.zero_add] at hmax₃ hfit₃
  refine ⟨notMem_name hslash, hmax₃, ?_⟩
  have hcost0 : cost 0 = 0 := by decide
  have hfb := h.freeblock
  unfold blocksNeeded at hfb ⊢
  rw [List.length_append, List.map_append, List.sum_append]
  simp only [List.length_singleton, List.map_singleton, List.sum_singleton, FSSIZE]
  rw [show 16 * (2 + (hosts.length + 1)) = 16 * (2 + hosts.length) + 16 by omega]
  omega

theorem Built.addAll_fits {fs : Nat → File} (h : Built [] s fs) (hcount : hosts.length ≤ 214) (hok : hosts.foldlM (addFile 1) s = .ok s') :
    (∀ f ∈ hosts, 47 ∉ f.name) ∧ (∀ f ∈ hosts, f.data.length ≤ MAXFILE * BSIZE) ∧ blocksNeeded hosts ≤ FSSIZE := by
  induction hosts using List.reverseRecOn generalizing s' with
  | nil => exact ⟨nofun, nofun, by decide⟩
  | append_singleton hosts host ih =>
    rw [List.length_append, List.length_singleton] at hcount
    rw [List.foldlM_append] at hok
    obtain ⟨s₁, hok₁, hok⟩ := bind_ok hok
    obtain ⟨hname, hsize, hfit⟩ := ih (by omega) hok₁
    obtain ⟨s₂, fs₂, hok₂, hb⟩ := h.addAll (by omega) hname hsize hfit
    obtain rfl : s₁ = s₂ := Except.ok.inj (hok₁.symm.trans hok₂)
    rw [List.foldlM_cons] at hok
    obtain ⟨s₃, hok₃, -⟩ := bind_ok hok
    obtain ⟨hname', hsize', hfit'⟩ := hb.add_fits (by omega) hok₃
    refine ⟨fun f hf => ?_, fun f hf => ?_, hfit'⟩
    · rcases List.mem_append.1 hf with hf | hf
      · exact hname f hf
      · rwa [List.mem_singleton.1 hf]
    · rcases List.mem_append.1 hf with hf | hf
      · exact hsize f hf
      · rwa [List.mem_singleton.1 hf]

/-- `mkfs` has come to its end: the image holds the files. -/
theorem final_of_main (hcount : hosts.length ≤ 214) (hok : main hosts = .ok img) :
    ∃ s fs, Built hosts s fs ∧ Final img s.freeblock fs := by
  obtain ⟨s₁, s₂, s₃, fs₃, hok₁, hok₂, hok₃, hnil⟩ := built_nil
  have hroot : ¬ (1 : Nat) ≠ ROOTINO := by decide
  have hall : ∃ s, hosts.foldlM (addFile 1) s₃ = .ok s := by
    unfold main at hok
    simp only [hok₁, ok_bind, if_neg hroot] at hok
    obtain ⟨t₂, ht₂, hok⟩ := bind_ok hok
    obtain rfl : t₂ = s₂ := Except.ok.inj (ht₂.symm.trans hok₂)
    obtain ⟨t₃, ht₃, hok⟩ := bind_ok hok
    obtain rfl : t₃ = s₃ := Except.ok.inj (ht₃.symm.trans hok₃)
    obtain ⟨s, hs, -⟩ := bind_ok hok
    exact ⟨s, hs⟩
  obtain ⟨s, hs⟩ := hall
  obtain ⟨hname, hsize, hfit⟩ := hnil.addAll_fits hcount hs
  obtain ⟨img', s', fs, hok', hb, hf⟩ := main_ok hcount hname hsize hfit
  obtain rfl : img = img' := Except.ok.inj (hok.symm.trans hok')
  exact ⟨s', fs, hb, hf⟩

end Ostep.Fs.Mkfs
