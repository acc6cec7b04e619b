import Mathlib.Data.Fintype.Card
import Ostep.Xv6.Bio

/-!
# What the buffer cache keeps

`Listed` says that buffers are on the circular list. When all of them are, `bget` ends, and `bget_spec` says what it has done with
the buffer that it returns. The references to a buffer are those of the calls under way and that of the holder of its sleep lock.
There are never more than one for each process and one for the holder, so `refcnt` does not wrap around and counts them exactly.
-/

namespace Ostep.Xv6.Bio

variable {m : Mem} {x y : Ptr} {v : Buf} {b : BufId} {l l₁ l₂ : List BufId} {dev blockno : UInt32}

theorem field_update {β : Type*} (f : Buf → β) (hv : f v = f (m x)) (z : Ptr) : f (Function.update m x v z) = f (m z) := by
  by_cases hz : z = x
  · rw [hz, Function.update_self, hv]
  · rw [Function.update_of_ne hz]

/-! ### Links -/

def links (m : Mem) : Links Ptr := ⟨fun x => (m x).next, fun x => (m x).prev⟩

theorem links_update (hnext : v.next = (m x).next) (hprev : v.prev = (m x).prev) : links (Function.update m x v) = links m := by
  simp only [links, Function.apply_update (fun _ => Buf.next), Function.apply_update (fun _ => Buf.prev), hnext, hprev]
  rw [Function.update_eq_self x fun x => (m x).next, Function.update_eq_self x fun x => (m x).prev]

theorem links_setNext (m : Mem) (x y : Ptr) : links (m.setNext x y) = ⟨Function.update (links m).next x y, (links m).prev⟩ := by
  simp only [links, Mem.setNext, Function.apply_update (fun _ => Buf.next), Function.apply_update (fun _ => Buf.prev)]
  rw [Function.update_eq_self x fun x => (m x).prev]

theorem links_setPrev (m : Mem) (x y : Ptr) : links (m.setPrev x y) = ⟨(links m).next, Function.update (links m).prev x y⟩ := by
  simp only [links, Mem.setPrev, Function.apply_update (fun _ => Buf.next), Function.apply_update (fun _ => Buf.prev)]
  rw [Function.update_eq_self x fun x => (m x).next]

theorem next_eq (m : Mem) (x : Ptr) : (m x).next = (links m).next x := rfl

theorem prev_eq (m : Mem) (x : Ptr) : (m x).prev = (links m).prev x := rfl

theorem links_linkFront (hx : x ≠ .head) : links (m.linkFront x) = (links m).linkFront .head x := by
  simp only [Mem.linkFront, next_eq, links_setNext, links_setPrev, Links.linkFront, Function.update_of_ne hx.symm]

theorem links_unlink (m : Mem) (x : Ptr) : links (m.unlink x) = (links m).unlink x := by
  have hsame : Function.update (links m).prev ((links m).next x) ((links m).prev x) x = (links m).prev x := by
    by_cases hx : x = (links m).next x
    · rw [← hx, Function.update_self]
    · rw [Function.update_of_ne hx]
  simp only [Mem.unlink, next_eq, prev_eq, links_setNext, links_setPrev, Links.unlink, hsame]

/-! ### The rest of a buffer -/

/-- A buffer without its place on the list. -/
def Buf.core (v : Buf) : Buf := { v with prev := .null, next := .null }

theorem Buf.fields_of_core {w : Buf} (h : v.core = w.core) :
    v.dev = w.dev ∧ v.blockno = w.blockno ∧ v.lock = w.lock ∧ v.refcnt = w.refcnt := by
  obtain ⟨-, hdev, hno, hlock, hrefcnt, -, -⟩ := Buf.mk.inj h
  exact ⟨hdev, hno, hlock, hrefcnt⟩

theorem core_update (hv : v.core = (m x).core) (z : Ptr) : (Function.update m x v z).core = (m z).core := field_update Buf.core hv z

@[simp] theorem core_setNext (m : Mem) (x y z : Ptr) : (m.setNext x y z).core = (m z).core :=
  core_update (m := m) (x := x) (v := { m x with next := y }) rfl z

@[simp] theorem core_setPrev (m : Mem) (x y z : Ptr) : (m.setPrev x y z).core = (m z).core :=
  core_update (m := m) (x := x) (v := { m x with prev := y }) rfl z

@[simp] theorem core_linkFront (m : Mem) (x z : Ptr) : (m.linkFront x z).core = (m z).core := by simp [Mem.linkFront]

@[simp] theorem core_unlink (m : Mem) (x z : Ptr) : (m.unlink x z).core = (m z).core := by simp [Mem.unlink]

theorem core_unref (m : Mem) (x z : Ptr) : (unref m x z).core = (m.setRefcnt x ((m x).refcnt - 1) z).core := by
  unfold unref
  split <;> simp

/-! ### The list -/

def Listed (m : Mem) (l : List BufId) : Prop := (links m).Circular .head (l.map .buf)

theorem buf_injective : Function.Injective Ptr.buf := fun _ _ h => Ptr.buf.inj h

namespace Listed

theorem congr {m' : Mem} (h : Listed m l) (hlinks : links m' = links m) : Listed m' l := by rwa [Listed, hlinks]

theorem linkFront (h : Listed m l) (hb : b ∉ l) : Listed (m.linkFront (.buf b)) (b :: l) := by
  rw [Listed, links_linkFront Ptr.noConfusion]
  refine Links.Circular.linkFront h ?_
  rw [List.mem_cons, List.mem_map_of_injective buf_injective]
  exact fun hmem => hmem.elim Ptr.noConfusion hb

theorem unlink (h : Listed m (l₁ ++ b :: l₂)) : Listed (m.unlink (.buf b)) (l₁ ++ l₂) := by
  rw [Listed, List.map_append, List.map_cons] at h
  rw [Listed, links_unlink, List.map_append]
  exact Links.Circular.unlink h

theorem nodup (h : Listed m l) : l.Nodup := (List.nodup_map_iff buf_injective).1 (List.nodup_cons.1 (Links.Circular.nodup h)).2

theorem unref (h : Listed m l) (hb : b ∈ l) : ∃ l', Listed (unref m (.buf b)) l' ∧ l'.Perm l := by
  have hset : Listed (m.setRefcnt (.buf b) ((m (.buf b)).refcnt - 1)) l := h.congr (links_update rfl rfl)
  unfold Bio.unref
  dsimp only
  split
  · obtain ⟨l₁, l₂, rfl⟩ := List.append_of_mem hb
    have hperm : (b :: (l₁ ++ l₂)).Perm (l₁ ++ b :: l₂) := List.perm_middle.symm
    have hnd := (hperm.nodup_iff.2 h.nodup)
    exact ⟨b :: (l₁ ++ l₂), hset.unlink.linkFront (List.nodup_cons.1 hnd).1, hperm⟩
  · exact ⟨l, hset, List.Perm.refl l⟩

end Listed

def AllListed (m : Mem) : Prop := ∃ l, Listed m l ∧ l.Perm (List.finRange NBUF)

theorem AllListed.congr {m' : Mem} (h : AllListed m) (hlinks : links m' = links m) : AllListed m' := by
  obtain ⟨l, hl, hperm⟩ := h
  exact ⟨l, hl.congr hlinks, hperm⟩

theorem AllListed.unref (h : AllListed m) (b : BufId) : AllListed (unref m (.buf b)) := by
  obtain ⟨l, hl, hperm⟩ := h
  obtain ⟨l', hl', hperm'⟩ := hl.unref (hperm.mem_iff.2 (List.mem_finRange b))
  exact ⟨l', hl', hperm'.trans hperm⟩

theorem binit_loop (l : List BufId) : ∀ {m : Mem} {l' : List BufId}, Listed m l' → (l.reverse ++ l').Nodup → (∀ x, (m x).core = (bss x).core) →
    Listed (l.foldl (fun m b => (m.setLock (.buf b) initsleeplock).linkFront (.buf b)) m) (l.reverse ++ l') ∧
      ∀ x, (l.foldl (fun m b => (m.setLock (.buf b) initsleeplock).linkFront (.buf b)) m x).core = (bss x).core := by
  induction l with
  | nil => exact fun hl _ hm => ⟨hl, hm⟩
  | cons b l ih =>
    intro m l' hl hnd hm
    rw [List.reverse_cons, List.append_assoc, List.singleton_append] at hnd ⊢
    have hb : b ∉ l' := (List.nodup_cons.1 (List.nodup_append.1 hnd).2.1).1
    have hset : Listed (m.setLock (.buf b) initsleeplock) l' := hl.congr (links_update rfl rfl)
    refine ih (hset.linkFront hb) hnd fun x => ?_
    rw [core_linkFront, Mem.setLock]
    by_cases hx : x = .buf b
    · rw [hx, Function.update_self]
      show ({ (m (.buf b)).core with lock := initsleeplock } : Buf) = (bss x).core
      rw [hm]
      rfl
    · rw [Function.update_of_ne hx, hm]

theorem binit_spec : AllListed (binit bss) ∧ ∀ x, (binit bss x).core = (bss x).core := by
  have hempty : Listed ((bss.setPrev .head .head).setNext .head .head) [] := by
    refine Links.circular_nil ?_
    rw [links_setNext, links_setPrev]
    exact ⟨Function.update_self Ptr.head Ptr.head (links bss).next, Function.update_self Ptr.head Ptr.head (links bss).prev⟩
  have hnd : ((List.finRange NBUF).reverse ++ []).Nodup := by
    rw [List.append_nil, List.nodup_reverse]
    exact List.nodup_finRange NBUF
  obtain ⟨hlisted, hcore⟩ := binit_loop (List.finRange NBUF) hempty hnd fun x => by simp
  rw [List.append_nil] at hlisted
  exact ⟨⟨_, hlisted, List.reverse_perm _⟩, hcore⟩

/-! ### `bget` -/

/-- What `bget` has done with the buffer `b`: it has taken a reference, and the buffer held the block or has been recycled. -/
structure Got (m : Mem) (dev blockno : UInt32) (b : BufId) (v : Buf) : Prop where
  next : v.next = (m (.buf b)).next
  prev : v.prev = (m (.buf b)).prev
  lock : v.lock = (m (.buf b)).lock
  refcnt : v.refcnt = (m (.buf b)).refcnt + 1
  holds : v.Holds dev blockno
  before : (m (.buf b)).Holds dev blockno ∨ (m (.buf b)).Unused ∧ ∀ c, ¬ (m (.buf c)).Holds dev blockno

theorem bget_spec (h : AllListed m) (dev blockno : UInt32) :
    (∃ b v, bget m dev blockno = .ok (.buf b, Function.update m (.buf b) v) ∧ Got m dev blockno b v) ∨
      bget m dev blockno = .error .noBuffers := by
  obtain ⟨l, hl, hperm⟩ := h
  have hlen : (l.map Ptr.buf).length < NBUF + 1 := by
    rw [List.length_map, hperm.length_eq, List.length_finRange]
    exact Nat.lt_succ_self NBUF
  have hcached := Links.Circular.scan_next hl (fun x => (m x).Holds dev blockno) hlen
  have hunused := Links.Circular.scan_prev hl (fun x => (m x).Unused) hlen
  simp only [links] at hcached hunused
  unfold bget
  rw [hcached]
  cases hfind : (l.map Ptr.buf).find? fun x => (m x).Holds dev blockno with
  | some x =>
    obtain ⟨b, -, rfl⟩ := List.mem_map.1 (List.mem_of_find?_eq_some hfind)
    have hholds : (m (.buf b)).Holds dev blockno := by simpa using List.find?_some hfind
    exact .inl ⟨b, _, rfl, rfl, rfl, rfl, rfl, hholds, .inl hholds⟩
  | none =>
    have hnone : ∀ c, ¬ (m (.buf c)).Holds dev blockno := fun c hc =>
      List.find?_eq_none.1 hfind (.buf c) (List.mem_map_of_mem (hperm.mem_iff.2 (List.mem_finRange c))) (decide_eq_true hc)
    dsimp only
    rw [hunused]
    cases hfind : (l.map Ptr.buf).reverse.find? fun x => (m x).Unused with
    | some x =>
      obtain ⟨b, -, rfl⟩ := List.mem_map.1 (List.mem_reverse.1 (List.mem_of_find?_eq_some hfind))
      have hb : (m (.buf b)).Unused := by simpa using List.find?_some hfind
      refine .inl ⟨b, _, rfl, rfl, rfl, rfl, ?_, ⟨rfl, rfl⟩, .inr ⟨hb, hnone⟩⟩
      rw [hb.1]
      rfl
    | none => exact .inr rfl

/-- No two buffers hold the same block of a device other than 0. -/
def Distinct (m : Mem) : Prop :=
  ∀ b c dev blockno, dev ≠ 0 → (m (.buf b)).Holds dev blockno → (m (.buf c)).Holds dev blockno → b = c

theorem Distinct.congr {m' : Mem} (h : Distinct m) (hdev : ∀ x, (m' x).dev = (m x).dev) (hno : ∀ x, (m' x).blockno = (m x).blockno) :
    Distinct m' := by
  intro b c dev blockno
  simp only [Buf.Holds, hdev, hno]
  exact h b c dev blockno

theorem Distinct.bget (h : Distinct m) (hgot : Got m dev blockno b v) : Distinct (Function.update m (.buf b) v) := by
  have hother : ∀ {c}, c ≠ b → Function.update m (.buf b) v (.buf c) = m (.buf c) := fun hc =>
    Function.update_of_ne (fun he => hc (Ptr.buf.inj he)) _ _
  -- no other buffer holds the block that `b` holds now
  have hown : ∀ c dev' blockno', dev' ≠ 0 → v.Holds dev' blockno' → (m (.buf c)).Holds dev' blockno' → c = b := by
    rintro c _ _ hdev ⟨rfl, rfl⟩ hc
    rw [hgot.holds.1, hgot.holds.2] at hc
    rcases hgot.before with hb | ⟨-, hnone⟩
    · exact h c b dev blockno (hgot.holds.1 ▸ hdev) hc hb
    · exact absurd hc (hnone c)
  intro c d dev' blockno' hdev hc hd
  by_cases hcb : c = b
  · by_cases hdb : d = b
    · rw [hcb, hdb]
    · rw [hcb, Function.update_self] at hc
      rw [hother hdb] at hd
      exact absurd (hown d dev' blockno' hdev hc hd) hdb
  · rw [hother hcb] at hc
    by_cases hdb : d = b
    · rw [hdb, Function.update_self] at hd
      exact absurd (hown c dev' blockno' hdev hd hc) hcb
    · rw [hother hdb] at hd
      exact h c d dev' blockno' hdev hc hd

/-! ### References -/

section
variable {call : Slot → Call} {p : Slot} {c : Call}

def refs (call : Slot → Call) : Multiset Ptr := pointers fun p => (call p).ref

theorem ref_update (call : Slot → Call) (p : Slot) (c : Call) :
    (fun q => (Function.update call p c q).ref) = Function.update (fun q => (call q).ref) p c.ref :=
  funext (Function.apply_update (fun _ => Call.ref) call p c)

theorem refs_begin (h : call p = .outside) (hc : c.ref = some x) : refs (Function.update call p c) = x ::ₘ refs call := by
  have hnone : (call p).ref = none := by rw [h]; rfl
  rw [refs, ref_update, hc]
  exact pointers_put (o := fun q => (call q).ref) hnone x

theorem refs_end (h : (call p).ref = some x) : refs call = x ::ₘ refs (Function.update call p .outside) := by
  rw [refs, refs, ref_update]
  exact pointers_clear (o := fun q => (call q).ref) h

theorem count_refs_le (call : Slot → Call) (x : Ptr) : (refs call).count x ≤ NPROC := by
  rw [refs, count_pointers]
  exact (Finset.card_le_univ _).trans_eq (Fintype.card_fin NPROC)

end

/-! ### Steps -/

structure Inv (s : St) : Prop where
  listed : AllListed s.mem
  distinct : Distinct s.mem
  refcnt : ∀ x, (s.mem x).refcnt.toNat = (refs s.call).count x + (s.mem x).lock.locked.toNat
  buffer : ∀ x, (s.mem x).refcnt ≠ 0 → ∃ b, x = .buf b
  calls : ∀ x, (s.mem x).refcnt.toNat + s.puts x = s.gets x

namespace Inv
variable {s s' : St} {p : Slot}

theorem refcnt_le (h : Inv s) (x : Ptr) : (s.mem x).refcnt.toNat ≤ NPROC + 1 := by
  rw [h.refcnt x]
  exact Nat.add_le_add (count_refs_le s.call x) (Bool.toNat_le _)

theorem relink (h : Inv s) {m : Mem} (hl : AllListed m) (hcore : ∀ x, (m x).core = (s.mem x).core) : Inv { s with mem := m } where
  listed := hl
  distinct := h.distinct.congr (fun x => (Buf.fields_of_core (hcore x)).1) fun x => (Buf.fields_of_core (hcore x)).2.1
  refcnt x := by
    obtain ⟨-, -, hlock, hrefcnt⟩ := Buf.fields_of_core (hcore x)
    show (m x).refcnt.toNat = _ + (m x).lock.locked.toNat
    rw [hrefcnt, hlock]
    exact h.refcnt x
  buffer x hx := h.buffer x ((Buf.fields_of_core (hcore x)).2.2.2 ▸ hx)
  calls x := by
    show (m x).refcnt.toNat + _ = _
    rw [(Buf.fields_of_core (hcore x)).2.2.2]
    exact h.calls x

/-- A step that leaves `refcnt` alone: a reference may go from a call to the holder or back. -/
theorem pass (h : Inv s) {call : Slot → Call} (hnext : v.next = (s.mem x).next) (hprev : v.prev = (s.mem x).prev)
    (hdev : v.dev = (s.mem x).dev) (hno : v.blockno = (s.mem x).blockno) (hrefcnt : v.refcnt = (s.mem x).refcnt)
    (hx : (refs call).count x + v.lock.locked.toNat = (refs s.call).count x + (s.mem x).lock.locked.toNat)
    (hne : ∀ z, z ≠ x → (refs call).count z = (refs s.call).count z) :
    Inv { s with mem := Function.update s.mem x v, call := call } where
  listed := h.listed.congr (links_update hnext hprev)
  distinct := h.distinct.congr (field_update Buf.dev hdev) (field_update Buf.blockno hno)
  refcnt z := by
    show (Function.update s.mem x v z).refcnt.toNat = (refs call).count z + (Function.update s.mem x v z).lock.locked.toNat
    rw [field_update Buf.refcnt hrefcnt, h.refcnt z]
    by_cases hz : z = x
    · rw [hz, Function.update_self, hx]
    · rw [Function.update_of_ne hz, hne z hz]
  buffer z hz := h.buffer z (field_update Buf.refcnt hrefcnt z ▸ hz)
  calls z := by
    show (Function.update s.mem x v z).refcnt.toNat + _ = _
    rw [field_update Buf.refcnt hrefcnt]
    exact h.calls z

theorem acquiresleep (h : Inv s) (hs : act s p .acquiresleep = some s') : Inv s' := by
  cases hcall : s.call p with
  | getting x =>
    simp only [act, hcall, Option.ite_none_left_eq_some, Option.some.injEq] at hs
    obtain ⟨hfree, rfl⟩ := hs
    have hrefs : refs s.call = x ::ₘ refs (Function.update s.call p .outside) := refs_end (by rw [hcall]; rfl)
    refine h.pass rfl rfl rfl rfl rfl ?_ fun z hz => ?_
    · rw [hrefs, Multiset.count_cons_self, Bool.eq_false_of_not_eq_true hfree]
      rfl
    · rw [hrefs, Multiset.count_cons_of_ne hz]
  | _ => simp [act, hcall] at hs

theorem brelse (h : Inv s) (hs : act s p (.brelse x) = some s') : Inv s' := by
  cases hcall : s.call p with
  | outside =>
    simp only [act, hcall, Option.ite_none_right_eq_some, Option.some.injEq] at hs
    obtain ⟨hholds, rfl⟩ := hs
    have hlocked : (s.mem x).lock.locked = true := (Bool.and_eq_true_iff.1 hholds).1
    have hrefs := refs_begin (c := .releasing x) hcall rfl
    refine h.pass rfl rfl rfl rfl rfl ?_ fun z hz => ?_
    · rw [hrefs, Multiset.count_cons_self, hlocked]
      rfl
    · rw [hrefs, Multiset.count_cons_of_ne hz]
  | _ => simp [act, hcall] at hs

theorem setFlags {flags : UInt32} (h : Inv s) (hs : act s p (.setFlags x flags) = some s') : Inv s' := by
  cases hcall : s.call p with
  | outside =>
    simp only [act, hcall, Option.ite_none_right_eq_some, Option.some.injEq] at hs
    obtain ⟨-, rfl⟩ := hs
    exact h.pass rfl rfl rfl rfl rfl rfl fun z hz => rfl
  | _ => simp [act, hcall] at hs

theorem toNat_succ_refcnt (h : Inv s) (x : Ptr) : ((s.mem x).refcnt + 1).toNat = (s.mem x).refcnt.toNat + 1 := by
  have hle := h.refcnt_le x
  rw [UInt32.toNat_add]
  exact Nat.mod_eq_of_lt (by simp only [NPROC] at hle; simp; omega)

theorem recount (h : Inv s) {call : Slot → Call} {gets puts : Ptr → Nat} (hlisted : AllListed (Function.update s.mem (.buf b) v))
    (hdistinct : Distinct (Function.update s.mem (.buf b) v))
    (hrefcnt : v.refcnt.toNat = (refs call).count (.buf b) + v.lock.locked.toNat) (hcalls : v.refcnt.toNat + puts (.buf b) = gets (.buf b))
    (hne : ∀ x, x ≠ .buf b → (refs call).count x = (refs s.call).count x ∧ gets x = s.gets x ∧ puts x = s.puts x) :
    Inv ⟨Function.update s.mem (.buf b) v, call, gets, puts⟩ := by
  refine ⟨hlisted, hdistinct, fun x => ?_, fun x hx => ?_, fun x => ?_⟩
  all_goals dsimp only at *
  · by_cases hxb : x = .buf b
    · rw [hxb, Function.update_self, hrefcnt]
    · rw [Function.update_of_ne hxb, (hne x hxb).1]
      exact h.refcnt x
  · by_cases hxb : x = .buf b
    · exact ⟨b, hxb⟩
    · rw [Function.update_of_ne hxb] at hx
      exact h.buffer x hx
  · by_cases hxb : x = .buf b
    · rw [hxb, Function.update_self, hcalls]
    · rw [Function.update_of_ne hxb, (hne x hxb).2.1, (hne x hxb).2.2]
      exact h.calls x

theorem bget (h : Inv s) (hs : act s p (.bget dev blockno) = some s') : Inv s' := by
  cases hcall : s.call p with
  | outside =>
    rcases bget_spec h.listed dev blockno with ⟨b, v, hget, hgot⟩ | hpanic
    · simp only [act, hcall, hget, Option.some.injEq] at hs
      subst hs
      have hrefs := refs_begin (c := .getting (.buf b)) hcall rfl
      have hrefcnt : v.refcnt.toNat = (s.mem (.buf b)).refcnt.toNat + 1 := by rw [hgot.refcnt, h.toNat_succ_refcnt]
      refine h.recount (h.listed.congr (links_update hgot.next hgot.prev)) (h.distinct.bget hgot) ?_ ?_ fun x hx => ⟨?_, ?_, rfl⟩
      · rw [hrefcnt, h.refcnt, hrefs, Multiset.count_cons_self, hgot.lock]
        omega
      · rw [hrefcnt, Function.update_self, ← h.calls]
        omega
      · rw [hrefs, Multiset.count_cons_of_ne hx]
      · rw [Function.update_of_ne hx]
    · simp [act, hcall, hpanic] at hs
  | _ => simp [act, hcall] at hs

theorem unref (h : Inv s) (hs : act s p .unref = some s') : Inv s' := by
  cases hcall : s.call p with
  | releasing x =>
    simp only [act, hcall, Option.some.injEq] at hs
    subst hs
    have hrefs : refs s.call = x ::ₘ refs (Function.update s.call p .outside) := refs_end (by rw [hcall]; rfl)
    have hx := h.refcnt x
    rw [hrefs, Multiset.count_cons_self] at hx
    have hpos : 1 ≤ (s.mem x).refcnt.toNat := by omega
    obtain ⟨b, rfl⟩ := h.buffer x fun h0 => by
      rw [h0] at hpos
      exact absurd hpos (Nat.not_succ_le_zero 0)
    have hrefcnt : ((s.mem (.buf b)).refcnt - 1).toNat = (s.mem (.buf b)).refcnt.toNat - 1 :=
      UInt32.toNat_sub_of_le _ _ (UInt32.le_iff_toNat_le.2 hpos)
    have hcalls := h.calls (.buf b)
    -- the reference count first, the place on the list afterwards
    have hcount : Inv ⟨s.mem.setRefcnt (.buf b) ((s.mem (.buf b)).refcnt - 1), Function.update s.call p .outside, s.gets,
        Function.update s.puts (.buf b) (s.puts (.buf b) + 1)⟩ := by
      refine h.recount (h.listed.congr (links_update rfl rfl)) (h.distinct.congr (field_update Buf.dev rfl) (field_update Buf.blockno rfl))
        ?_ ?_ fun x hx => ⟨?_, rfl, ?_⟩
      · dsimp only
        omega
      · rw [Function.update_self]
        dsimp only
        omega
      · rw [hrefs, Multiset.count_cons_of_ne hx]
      · rw [Function.update_of_ne hx]
    exact hcount.relink (h.listed.unref b) (core_unref s.mem (.buf b))
  | _ => simp [act, hcall] at hs

theorem step (h : Inv s) {a : Slot × Action} (hs : step s a = some s') : Inv s' := by
  obtain ⟨p, a⟩ := a
  cases a with
  | bget dev blockno => exact h.bget hs
  | acquiresleep => exact h.acquiresleep hs
  | brelse x => exact h.brelse hs
  | unref => exact h.unref hs
  | setFlags x flags => exact h.setFlags hs

theorem init : Inv St.init := by
  obtain ⟨hlisted, hcore⟩ := binit_spec
  have hfields := fun x => Buf.fields_of_core (hcore x)
  have hrefs : refs (fun _ => .outside) = 0 := pointers_null
  refine ⟨hlisted, fun b c dev blockno hdev hb => ?_, fun x => ?_, fun x hx => ?_, fun x => ?_⟩
  · exact absurd (hb.1.symm.trans (hfields (.buf b)).1) hdev
  · show (binit bss x).refcnt.toNat = (refs fun _ => .outside).count x + (binit bss x).lock.locked.toNat
    rw [(hfields x).2.2.1, (hfields x).2.2.2, hrefs, Multiset.count_zero]
    rfl
  · exact absurd (hfields x).2.2.2 hx
  · show (binit bss x).refcnt.toNat + 0 = 0
    rw [(hfields x).2.2.2]
    rfl

theorem of_run {l : List (Slot × Action)} (hrun : run Bio.step St.init l = some s) : Inv s :=
  run_inv (fun _ _ _ h hs => h.step hs) init hrun

end Inv

/-- In every state reached the list goes through the head and through each buffer once, a block of a device other than 0 is in one
buffer at most, and `refcnt` is the number of calls of `bget` for the buffer that no `brelse` has matched. The next `bget` ends, with a
buffer or with its panic. It writes no other buffer than the one it returns, and if that one did not hold the block before, there was
no reference to it and it was not dirty. The device that the calls are for does not matter. -/
theorem bcache_of_run {l : List (Slot × Action)} {t : St} (hrun : run step St.init l = some t) :
    (∃ order : List BufId, (links t.mem).Circular .head (order.map .buf) ∧ ∀ b, order.count b = 1) ∧
    (∀ b c, (t.mem (.buf b)).dev ≠ 0 → (t.mem (.buf b)).dev = (t.mem (.buf c)).dev →
      (t.mem (.buf b)).blockno = (t.mem (.buf c)).blockno → b = c) ∧
    (∀ b, (t.mem (.buf b)).refcnt.toNat + t.puts (.buf b) = t.gets (.buf b)) ∧
    ∀ dev blockno, bget t.mem dev blockno = .error .noBuffers ∨
      ∃ b m, bget t.mem dev blockno = .ok (.buf b, m) ∧ (m (.buf b)).Holds dev blockno ∧ (∀ x, x ≠ .buf b → m x = t.mem x) ∧
        ((t.mem (.buf b)).Holds dev blockno ∨
          (t.mem (.buf b)).refcnt = 0 ∧ t.gets (.buf b) = t.puts (.buf b) ∧ (t.mem (.buf b)).flags &&& B_DIRTY = 0) := by
  have h := Inv.of_run hrun
  refine ⟨?_, fun b c hdev hd hn => ?_, fun b => h.calls (.buf b), fun dev blockno => ?_⟩
  · obtain ⟨order, hlisted, hperm⟩ := h.listed
    refine ⟨order, hlisted, fun b => ?_⟩
    rw [hperm.count_eq, List.count_eq_one_of_mem (List.nodup_finRange NBUF) (List.mem_finRange b)]
  · exact h.distinct b c _ _ hdev ⟨rfl, rfl⟩ ⟨hd.symm, hn.symm⟩
  · rcases bget_spec h.listed dev blockno with ⟨b, v, hget, hgot⟩ | hpanic
    · refine .inr ⟨b, _, hget, ?_, fun x hx => Function.update_of_ne hx _ _, ?_⟩
      · rw [Function.update_self]
        exact hgot.holds
      · refine hgot.before.imp_right fun hbefore => ?_
        obtain ⟨hzero, hclean⟩ := hbefore.1
        have hcalls := h.calls (.buf b)
        rw [hzero] at hcalls
        exact ⟨hzero, by simpa using hcalls.symm, hclean⟩
    · exact .inl hpanic

/-- Process 1 asks for a block that process 0 has, and gets it between the two halves of `brelse`. Process 0 has made it dirty, so
that its next `bget` recycles another buffer. -/
def shared : List (Slot × Action) :=
  [(0, .bget 1 5), (0, .acquiresleep), (1, .bget 1 5), (0, .setFlags (.buf 0) 6), (0, .brelse (.buf 0)), (1, .acquiresleep), (0, .unref),
    (1, .brelse (.buf 0)), (1, .unref), (0, .bget 1 6)]

theorem bcache_of_run_shared : ∃ t, run step St.init shared = some t ∧ (t.gets (.buf 0), t.gets (.buf 1)) = (2, 1) ∧
    ∀ b, (t.mem (.buf b)).refcnt.toNat + t.puts (.buf b) = t.gets (.buf b) := by
  have hval : (run step St.init shared).map (fun t => (t.gets (.buf 0), t.gets (.buf 1))) = some (2, 1) := by decide +kernel
  obtain ⟨t, ht, hgets⟩ := Option.map_eq_some_iff.1 hval
  exact ⟨t, ht, hgets, (bcache_of_run ht).2.2.1⟩

section
variable {m' : Mem} {s t : St} {p q : Slot} {y : Ptr}

/-! ### The holder of a buffer -/

/-- What the holder of the sleep lock relies on. -/
def Buf.held (v : Buf) : UInt32 × UInt32 × UInt32 × Sleeplock := (v.dev, v.blockno, v.flags, v.lock)

theorem held_setRefcnt (m : Mem) (x y : Ptr) (n : UInt32) : (m.setRefcnt x n y).held = (m y).held :=
  field_update (m := m) (x := x) (v := { m x with refcnt := n }) Buf.held rfl y

theorem held_bget (hget : bget m dev blockno = .ok (y, m')) (hx : (m x).refcnt ≠ 0) : (m' x).held = (m x).held := by
  unfold bget at hget
  split at hget
  · cases hget
  · cases hget
    exact held_setRefcnt m y x _
  · split at hget
    · cases hget
    · next b hfind =>
      cases hget
      have hunused : (m y).Unused := by simpa using scan_found hfind
      have hxy : x ≠ y := by
        rintro rfl
        exact hx hunused.1
      rw [Function.update_of_ne hxy]
    · cases hget

theorem holdingsleep_iff {lk : Sleeplock} : holdingsleep lk p = true ↔ lk.locked = true ∧ lk.pid = some p := by
  rw [holdingsleep, Bool.and_eq_true, decide_eq_true_eq]

theorem Inv.refcnt_ne (h : Inv s) (hlocked : (s.mem x).lock.locked = true) : (s.mem x).refcnt ≠ 0 := by
  intro h0
  have hcount := h.refcnt x
  rw [h0, hlocked] at hcount
  exact absurd hcount (by simp)

/-- A step of another process. -/
theorem Inv.held_act {a : Action} (h : Inv s) (hheld : holdingsleep (s.mem x).lock p) (hq : q ≠ p) (hs : act s q a = some t) :
    (t.mem x).held = (s.mem x).held := by
  obtain ⟨hlocked, hpid⟩ := holdingsleep_iff.1 hheld
  have hother : ∀ y, holdingsleep (s.mem y).lock q → x ≠ y := by
    rintro y hy rfl
    exact hq (Option.some.inj ((holdingsleep_iff.1 hy).2.symm.trans hpid))
  cases a with
  | bget dev blockno =>
    simp only [act] at hs
    split at hs
    · next hget =>
      cases hs
      exact held_bget hget (h.refcnt_ne hlocked)
    · cases hs
  | acquiresleep =>
    simp only [act] at hs
    split at hs
    · next y hcall =>
      rw [Option.ite_none_left_eq_some] at hs
      obtain ⟨hfree, hs⟩ := hs
      cases hs
      have hxy : x ≠ y := by
        rintro rfl
        exact hfree hlocked
      exact congrArg Buf.held (Function.update_of_ne hxy ..)
    · cases hs
  | brelse y =>
    simp only [act] at hs
    split at hs
    · rw [Option.ite_none_right_eq_some] at hs
      obtain ⟨hy, hs⟩ := hs
      cases hs
      exact congrArg Buf.held (Function.update_of_ne (hother y hy) ..)
    · cases hs
  | unref =>
    simp only [act] at hs
    split at hs
    · next y hcall =>
      cases hs
      exact (congrArg Buf.held (core_unref s.mem y x)).trans (held_setRefcnt s.mem y x _)
    · cases hs
  | setFlags y flags =>
    simp only [act] at hs
    split at hs
    · rw [Option.ite_none_right_eq_some] at hs
      obtain ⟨hy, hs⟩ := hs
      cases hs
      exact congrArg Buf.held (Function.update_of_ne (hother y hy) ..)
    · cases hs

/-- As long as a process holds the sleep lock of a buffer, whatever the others do, it is the only one that does, the buffer keeps its
block and its flags, and `refcnt` is not 0. -/
theorem held_of_run {l l' : List (Slot × Action)} (hrun : run step St.init l = some s) (hheld : holdingsleep (s.mem x).lock p)
    (hothers : ∀ a ∈ l', a.1 ≠ p) (hrun' : run step s l' = some t) :
    (t.mem x).held = (s.mem x).held ∧ (∀ q, holdingsleep (t.mem x).lock q ↔ q = p) ∧ (t.mem x).refcnt ≠ 0 := by
  have hinv : Inv t ∧ (t.mem x).held = (s.mem x).held := by
    refine (along_of_mem hothers s).inv (I := fun t => Inv t ∧ (t.mem x).held = (s.mem x).held) ?_ ⟨.of_run hrun, rfl⟩ hrun'
    rintro t₁ ⟨q, a⟩ t₂ ⟨hinv, heq⟩ hq hs
    have hlock : (t₁.mem x).lock = (s.mem x).lock := congrArg (·.2.2.2) heq
    exact ⟨hinv.step hs, (hinv.held_act (hlock ▸ hheld) hq hs).trans heq⟩
  obtain ⟨hinv, heq⟩ := hinv
  have hlock : (t.mem x).lock = (s.mem x).lock := congrArg (·.2.2.2) heq
  obtain ⟨hlocked, hpid⟩ := holdingsleep_iff.1 (hlock ▸ hheld : holdingsleep (t.mem x).lock p = true)
  refine ⟨heq, fun q => ?_, hinv.refcnt_ne hlocked⟩
  rw [holdingsleep_iff, hpid, Option.some.injEq]
  exact ⟨fun hq => hq.2.symm, fun hq => ⟨hlocked, hq.symm⟩⟩

theorem held_of_run_wait : ∃ s t, run step St.init [(0, .bget 1 5), (0, .acquiresleep)] = some s ∧ holdingsleep (s.mem (.buf 0)).lock 0 ∧
    run step s [(1, .bget 1 5), (2, .bget 1 6), (2, .acquiresleep)] = some t ∧ (t.mem (.buf 0)).held = (s.mem (.buf 0)).held := by
  have hval : ((run step St.init [(0, .bget 1 5), (0, .acquiresleep)]).bind fun s =>
      (run step s [(1, .bget 1 5), (2, .bget 1 6), (2, .acquiresleep)]).map fun _ => holdingsleep (s.mem (.buf 0)).lock 0) = some true := by
    decide +kernel
  obtain ⟨s, hs, hmap⟩ := Option.bind_eq_some_iff.1 hval
  obtain ⟨t, ht, hheld⟩ := Option.map_eq_some_iff.1 hmap
  exact ⟨s, t, hs, hheld, ht, (held_of_run hs hheld (by decide) ht).1⟩

end

end Ostep.Xv6.Bio
