import Ostep.Lib.Ring
import Ostep.Lib.Run
import Ostep.Xv6.Console

/-!
# What readers of the console get

The ring holds `q`, the characters that are committed and not yet read, and behind them `p`, the line that is being typed
(`Holds`). Typing changes `p` or appends to `q`; a section of `consoleread` takes from the front of `q` (`Takes`). So the committed
characters are those that have been taken, in order, and then `q`.
-/

namespace Ostep.Xv6.Console

theorem input_buf_dvd : INPUT_BUF ∣ 2 ^ 32 := by decide
theorem input_buf_lt : INPUT_BUF < 2 ^ 32 := by decide

/-- The characters between `r` and `w` are `q`, those between `w` and `e` are `p`. -/
structure Holds (input : Input) (q p : List UInt8) : Prop where
  ring : Ring INPUT_BUF input.buf input.r input.e (q ++ p)
  w : input.w = input.r + BitVec.ofNat 32 q.length

variable {input input' : Input} {q p new t : List UInt8} {b : UInt8}

namespace Holds

theorem committed (h : Holds input q p) : Ring INPUT_BUF input.buf input.r input.w q := by
  rw [h.w]
  exact (h.ring.split input_buf_dvd).1

theorem pending (h : Holds input q p) : Ring INPUT_BUF input.buf input.w input.e p := by
  rw [h.w]
  exact (h.ring.split input_buf_dvd).2

theorem between_r_w (h : Holds input q p) : between input.buf input.r input.w = q := h.committed.contents input_buf_lt

theorem e_eq_w_iff (h : Holds input q p) : input.e = input.w ↔ p = [] := by
  rw [eq_comm]
  exact h.pending.empty_iff input_buf_lt

theorem r_eq_w_iff (h : Holds input q p) : input.r = input.w ↔ q = [] := h.committed.empty_iff input_buf_lt

theorem erase (h : Holds input q (p ++ [b])) :
    input.buf ((input.e - 1).toNat % INPUT_BUF) = b ∧ Holds { input with e := input.e - 1 } q p := by
  obtain ⟨hb, hring⟩ := h.pending.unpush input_buf_dvd
  have hall := h.ring
  rw [← List.append_assoc] at hall
  exact ⟨hb, (hall.unpush input_buf_dvd).2, h.w⟩

theorem type (h : Holds input q p) (hlt : (q ++ p).length < INPUT_BUF) (b : UInt8) :
    Holds { input with buf := Function.update input.buf (input.e.toNat % INPUT_BUF) b, e := input.e + 1 } q (p ++ [b]) ∧
      Holds { input with buf := Function.update input.buf (input.e.toNat % INPUT_BUF) b, e := input.e + 1, w := input.e + 1 }
        (q ++ (p ++ [b])) [] := by
  have hring := h.ring.push input_buf_dvd hlt b
  rw [List.append_assoc] at hring
  refine ⟨⟨hring, h.w⟩, ?_, hring.count⟩
  rwa [List.append_nil]

theorem read (h : Holds input (b :: q) p) :
    input.buf (input.r.toNat % INPUT_BUF) = b ∧ Holds { input with r := input.r + 1 } q p := by
  have hring := h.ring
  rw [List.cons_append] at hring
  obtain ⟨hb, hrest⟩ := hring.pop input_buf_dvd
  exact ⟨hb, hrest, (h.committed.pop input_buf_dvd).2.count⟩

end Holds

/-! ### Typing -/

theorem killLine_spec (n : Nat) (h : Holds input q p) :
    ∃ p', Holds (Input.killLine n input) q p' ∧ (Input.killLine n input).r = input.r ∧ (Input.killLine n input).w = input.w := by
  induction n generalizing input p with
  | zero => exact ⟨p, h, rfl, rfl⟩
  | succ n ih =>
    rw [Input.killLine]
    split
    · next hgo =>
      obtain rfl | ⟨p₁, b, rfl⟩ := List.eq_nil_or_concat p
      · exact absurd (h.e_eq_w_iff.2 rfl) hgo.1
      · rw [List.concat_eq_append] at h
        obtain ⟨p', hp', hr, hw⟩ := ih h.erase.2
        exact ⟨p', hp', hr, hw⟩
    · exact ⟨p, h, rfl, rfl⟩

/-- Typing a character leaves the committed ones where they are, and perhaps commits more. -/
theorem consoleintr_spec (h : Holds input q p) (c : Nat) :
    ∃ new p', Holds (input.consoleintr c) (q ++ new) p' ∧ (input.consoleintr c).r = input.r := by
  have hsame : ∀ {input'}, Holds input' q p → input'.r = input.r → ∃ new p', Holds input' (q ++ new) p' ∧ input'.r = input.r :=
    fun h' hr => ⟨[], p, by rwa [List.append_nil], hr⟩
  unfold Input.consoleintr
  split
  · exact hsame h rfl
  split
  · obtain ⟨p', hp', hr, -⟩ := killLine_spec (input.e - input.w).toNat h
    exact ⟨[], p', by rwa [List.append_nil], hr⟩
  split
  · split
    · next hne =>
      obtain rfl | ⟨p₁, b, rfl⟩ := List.eq_nil_or_concat p
      · exact absurd (h.e_eq_w_iff.2 rfl) hne
      · rw [List.concat_eq_append] at h
        exact ⟨[], p₁, by rw [List.append_nil]; exact h.erase.2, rfl⟩
    · exact hsame h rfl
  split
  · next hroom =>
    have hlt : (q ++ p).length < INPUT_BUF := by
      rw [← h.ring.toNat_sub input_buf_lt]
      exact hroom.2
    dsimp only
    generalize (if c = 13 then 10 else c) = c'
    obtain ⟨hgoes, hdone⟩ := h.type hlt (UInt8.ofNat c')
    split
    · exact ⟨_, [], hdone, rfl⟩
    · exact ⟨[], _, by rw [List.append_nil]; exact hgoes, rfl⟩
  · exact hsame h rfl

theorem between_consoleintr {c : Nat} {p' : List UInt8} (h : Holds input q p) (h' : Holds (input.consoleintr c) (q ++ new) p')
    (hr : (input.consoleintr c).r = input.r) : between (input.consoleintr c).buf input.w (input.consoleintr c).w = new := by
  have hnew := (h'.committed.split input_buf_dvd).2
  rw [hr, ← h.w] at hnew
  exact hnew.contents input_buf_lt

/-! ### Reading -/

/-- A section of a call with `n` of `target` bytes to go: it copies nothing behind a newline, and takes a `^D` only when that comes first
in the whole call. -/
structure Takes (killed : Bool) (target n : Nat) (c : Section) : Prop where
  stops : ∀ b ∈ c.copied.dropLast, b ≠ 10
  data : ∀ b ∈ c.copied, b ≠ 4
  eof : c.eof = true → c.copied = [] ∧ n = target ∧ c.outcome = .ret 0
  sleep : ∀ m, c.outcome = .sleep m → m + c.copied.length = n ∧ 10 ∉ c.copied
  ret : ∀ m, c.outcome = .ret m → m = -1 ∧ killed = true ∨ m + n = target + c.copied.length

theorem taken_of_not_eof {c : Section} (h : c.eof = false) : c.taken = c.copied := by
  rw [Section.taken, h, if_neg Bool.false_ne_true, List.append_nil]

theorem consoleread_spec (killed : Bool) {target n : Nat} (hn : n ≤ target) (h : Holds input q p) :
    Takes killed target n (consoleread killed target n input) ∧
      ∃ q', q = (consoleread killed target n input).taken ++ q' ∧ Holds (consoleread killed target n input).input q' p := by
  induction n generalizing input q with
  | zero =>
    refine ⟨⟨nofun, nofun, nofun, nofun, ?_⟩, q, rfl, h⟩
    rintro m ⟨⟩
    exact .inr rfl
  | succ n ih =>
    rw [consoleread]
    split
    · split
      · next hkilled =>
        refine ⟨⟨nofun, nofun, nofun, nofun, ?_⟩, q, rfl, h⟩
        rintro m ⟨⟩
        exact .inl ⟨rfl, hkilled⟩
      · refine ⟨⟨nofun, nofun, nofun, ?_, nofun⟩, q, rfl, h⟩
        rintro m ⟨⟩
        exact ⟨rfl, List.not_mem_nil⟩
    next hne =>
    obtain ⟨b, q, rfl⟩ : ∃ b q', q = b :: q' := List.exists_cons_of_ne_nil fun hnil => hne (h.r_eq_w_iff.2 hnil)
    obtain ⟨hb, hrest⟩ := h.read
    dsimp only
    rw [hb]
    split
    · next hb4 =>
      split
      · -- the `^D` is left for the next call
        have hback : ({ input with r := input.r + 1 - 1 } : Input) = input := by rw [BitVec.add_sub_cancel]
        refine ⟨⟨nofun, nofun, nofun, nofun, ?_⟩, b :: q, rfl, ?_⟩
        · rintro m ⟨⟩
          exact .inr (by simp)
        · rw [hback]
          exact h
      · next hfirst =>
        have htarget : n + 1 = target := by omega
        refine ⟨⟨nofun, nofun, fun _ => ⟨rfl, htarget, by rw [htarget, Int.sub_self]⟩, nofun, ?_⟩, q, ?_, hrest⟩
        · rintro m ⟨⟩
          exact .inr (by simp)
        · rw [hb4]
          rfl
    next hb4 =>
    split
    · next hb10 =>
      refine ⟨⟨nofun, ?_, nofun, nofun, ?_⟩, q, rfl, hrest⟩
      · rintro b' hb'
        rw [List.mem_singleton.1 hb']
        exact hb4
      · rintro m ⟨⟩
        exact .inr (by rw [List.length_singleton]; omega)
    next hb10 =>
    obtain ⟨htakes, q', hq, hholds⟩ := ih (by omega) hrest
    have heof : (consoleread killed target n { input with r := input.r + 1 }).eof = false := by
      cases he : (consoleread killed target n { input with r := input.r + 1 }).eof with
      | false => rfl
      | true =>
        have := (htakes.eof he).2.1
        omega
    generalize consoleread killed target n { input with r := input.r + 1 } = c at htakes hq hholds heof
    refine ⟨⟨?_, ?_, ?_, ?_, ?_⟩, q', ?_, hholds⟩
    · intro b' hb'
      by_cases hnil : c.copied = []
      · rw [hnil] at hb'
        cases hb'
      · rw [List.dropLast_cons_of_ne_nil hnil] at hb'
        rcases List.mem_cons.1 hb' with rfl | hb'
        · exact hb10
        · exact htakes.stops b' hb'
    · exact List.forall_mem_cons.2 ⟨hb4, htakes.data⟩
    · intro he
      rw [heof] at he
      cases he
    · intro m hm
      obtain ⟨hlen, hno⟩ := htakes.sleep m hm
      exact ⟨by rw [List.length_cons]; omega, List.not_mem_cons_of_ne_of_not_mem (Ne.symm hb10) hno⟩
    · intro m hm
      rw [List.length_cons]
      exact (htakes.ret m hm).imp_right fun hlen => by omega
    · rw [hq]
      rfl

/-! ### Calls -/

def St.takenBy (s : St) (k : Nat) : List UInt8 := (s.taken.filter fun x => x.1 = k).map Prod.snd

/-- A call and the characters `t` that it has taken: it has copied all of them but a `^D`, it has taken none behind a newline or a
`^D`, and the one that takes a `^D` takes nothing else and returns 0. -/
structure ReadOk (read : Read) (t : List UInt8) : Prop where
  copied : read.copied = t.filter (· ≠ 4)
  stops : ∀ b ∈ t.dropLast, b ≠ 4 ∧ b ≠ 10
  sleeps : read.result = none → read.left + read.copied.length = read.target ∧ ∀ b ∈ t, b ≠ 4 ∧ b ≠ 10
  eof : 4 ∈ t → t = [4] ∧ read.result = some 0
  result : ∀ n, read.result = some n → n = -1 ∨ n = read.copied.length

theorem readOk_begins (n : Nat) : ReadOk ⟨n, n, [], none⟩ [] := ⟨rfl, nofun, fun _ => ⟨rfl, nofun⟩, nofun, nofun⟩

theorem Read.after_ret {read : Read} {c : Section} {n : Int} (h : c.outcome = .ret n) :
    read.after c = { read with left := 0, copied := read.copied ++ c.copied, result := some n } := by
  rw [Read.after, h]

theorem Read.after_sleep {read : Read} {c : Section} {n : Nat} (h : c.outcome = .sleep n) :
    read.after c = { read with left := n, copied := read.copied ++ c.copied } := by
  rw [Read.after, h]

theorem mem_dropLast_append {l l' : List UInt8} (h : b ∈ (l ++ l').dropLast) : b ∈ l ∨ b ∈ l'.dropLast := by
  by_cases hnil : l' = []
  · rw [hnil, List.append_nil] at h
    exact .inl (List.dropLast_subset _ h)
  · rw [List.dropLast_append_of_ne_nil hnil] at h
    exact List.mem_append.1 h

theorem ReadOk.after {read : Read} {c : Section} {killed : Bool} (h : ReadOk read t) (hopen : read.result = none)
    (hc : Takes killed read.target read.left c) : ReadOk (read.after c) (t ++ c.taken) := by
  obtain ⟨hleft, ht⟩ := h.sleeps hopen
  cases heof : c.eof with
  | true =>
    -- nothing has been taken before
    obtain ⟨hnil, hall, hret⟩ := hc.eof heof
    have hzero : read.copied = [] := List.length_eq_zero_iff.1 (by omega)
    have htnil : t = [] := by
      have hfilter : t.filter (· ≠ 4) = t := List.filter_eq_self.2 fun b hb => decide_eq_true (ht b hb).1
      rw [← hfilter, ← h.copied, hzero]
    have htaken : t ++ c.taken = [4] := by rw [htnil, Section.taken, hnil, heof, if_pos rfl, List.nil_append, List.nil_append]
    rw [htaken, Read.after_ret hret, hzero, hnil]
    refine ⟨rfl, nofun, nofun, fun _ => ⟨rfl, rfl⟩, ?_⟩
    rintro n ⟨⟩
    exact .inr rfl
  | false =>
    have hcopied : read.copied ++ c.copied = (t ++ c.copied).filter (· ≠ 4) := by
      rw [List.filter_append, ← h.copied, List.filter_eq_self.2 fun b hb => decide_eq_true (hc.data b hb)]
    have hstops : ∀ b ∈ (t ++ c.copied).dropLast, b ≠ 4 ∧ b ≠ 10 := by
      intro b hb
      rcases mem_dropLast_append hb with hb | hb
      · exact ht b hb
      · exact ⟨hc.data b (List.dropLast_subset _ hb), hc.stops b hb⟩
    have hno4 : 4 ∉ t ++ c.copied := by
      intro h4
      rcases List.mem_append.1 h4 with h4 | h4
      · exact (ht 4 h4).1 rfl
      · exact hc.data 4 h4 rfl
    rw [taken_of_not_eof heof]
    cases hout : c.outcome with
    | ret m =>
      rw [Read.after_ret hout]
      refine ⟨hcopied, hstops, nofun, fun h4 => absurd h4 hno4, ?_⟩
      rintro n ⟨⟩
      refine (hc.ret m hout).imp And.left fun hlen => ?_
      rw [List.length_append]
      omega
    | sleep m =>
      rw [Read.after_sleep hout]
      obtain ⟨hlen, hno10⟩ := hc.sleep m hout
      refine ⟨hcopied, hstops, fun _ => ⟨?_, fun b hb => ?_⟩, fun h4 => absurd h4 hno4, fun n hn => absurd (hopen.symm.trans hn) nofun⟩
      · dsimp only
        rw [List.length_append]
        omega
      · rcases List.mem_append.1 hb with hb | hb
        · exact ht b hb
        · exact ⟨hc.data b hb, fun h10 => hno10 (h10 ▸ hb)⟩

/-! ### Runs -/

structure Inv (s : St) : Prop where
  ring : ∃ q p, Holds s.input q p ∧ s.committed = s.taken.map Prod.snd ++ q
  reads : ∀ k read, s.reads[k]? = some read → ReadOk read (s.takenBy k)
  taken : ∀ x ∈ s.taken, x.1 < s.reads.length

theorem inv_init (buf : Nat → UInt8) (c : BitVec 32) : Inv (.init buf c) where
  ring := ⟨[], [], ⟨ring_nil _ _ _, (BitVec.add_zero c).symm⟩, rfl⟩
  reads := nofun
  taken := nofun

variable {s s' : St}

theorem Inv.begins (h : Inv s) (n : Nat) : Inv { s with reads := s.reads ++ [⟨n, n, [], none⟩] } where
  ring := h.ring
  reads := fun k read hk => by
    rcases Nat.lt_or_ge k s.reads.length with hlt | hge
    · rw [List.getElem?_append_left hlt] at hk
      exact h.reads k read hk
    · rw [List.getElem?_append_right hge, List.getElem?_singleton] at hk
      split at hk
      · next h0 =>
        cases hk
        have hnone : s.takenBy k = [] := by
          rw [St.takenBy, List.filter_eq_nil_iff.2 fun x hx => ?_]
          · rfl
          · have := h.taken x hx
            simp only [decide_eq_true_eq]
            omega
        show ReadOk _ (s.takenBy k)
        rw [hnone]
        exact readOk_begins n
      · cases hk
  taken := fun x hx => by
    rw [List.length_append]
    exact Nat.lt_add_right _ (h.taken x hx)

theorem filter_taken (l : List (Nat × UInt8)) (k : Nat) (t : List UInt8) (j : Nat) :
    ((l ++ t.map fun b => (k, b)).filter fun x => x.1 = j).map Prod.snd =
      (l.filter fun x => x.1 = j).map Prod.snd ++ if k = j then t else [] := by
  rw [List.filter_append, List.map_append, List.filter_map, List.map_map]
  congr 1
  by_cases hkj : k = j
  · simp [hkj, Function.comp_def]
  · simp [hkj, Function.comp_def]

theorem Inv.enter {k : Nat} {killed : Bool} (h : Inv s) (hs : s.enter k killed = some s') : Inv s' := by
  rw [St.enter] at hs
  cases hk : s.reads[k]? with
  | none =>
    rw [hk] at hs
    cases hs
  | some read =>
    rw [hk] at hs
    dsimp only at hs
    split at hs
    · next hopen =>
      cases hs
      have hread := h.reads k read hk
      have hlt : k < s.reads.length := (List.getElem?_eq_some_iff.1 hk).1
      obtain ⟨q, p, hholds, hcommitted⟩ := h.ring
      have hn : read.left ≤ read.target := by
        have := (hread.sleeps hopen).1
        omega
      obtain ⟨htakes, q', hq, hholds'⟩ := consoleread_spec killed hn hholds
      generalize consoleread killed read.target read.left s.input = c at htakes hq hholds'
      refine ⟨⟨q', p, hholds', ?_⟩, fun j read' hj => ?_, fun x hx => ?_⟩
      · have hsnd : (c.taken.map fun b => (k, b)).map Prod.snd = c.taken := by
          rw [List.map_map]
          exact List.map_id _
        rw [hcommitted, hq, List.map_append, hsnd, List.append_assoc]
      · rw [St.takenBy, filter_taken]
        by_cases hjk : k = j
        · subst hjk
          rw [List.getElem?_set_self hlt] at hj
          cases hj
          rw [if_pos rfl]
          exact hread.after hopen htakes
        · rw [List.getElem?_set_ne hjk] at hj
          rw [if_neg hjk, List.append_nil]
          exact h.reads j read' hj
      · rw [List.length_set]
        rcases List.mem_append.1 hx with hx | hx
        · exact h.taken x hx
        · obtain ⟨b, -, rfl⟩ := List.mem_map.1 hx
          exact hlt
    · cases hs

theorem Inv.step {a : Action} (h : Inv s) (hs : step s a = some s') : Inv s' := by
  cases a with
  | type c =>
    cases hs
    obtain ⟨q, p, hholds, hcommitted⟩ := h.ring
    obtain ⟨new, p', hholds', hr⟩ := consoleintr_spec hholds c
    refine ⟨⟨q ++ new, p', hholds', ?_⟩, h.reads, h.taken⟩
    rw [hcommitted, between_consoleintr hholds hholds' hr, List.append_assoc]
  | read n killed => exact (h.begins n.toNat).enter hs
  | resume k killed => exact h.enter hs

def St.Killed (s : St) (k : Nat) : Prop := ∃ read, s.reads[k]? = some read ∧ read.result = some (-1)

instance (s : St) (k : Nat) : Decidable (s.Killed k) :=
  match h : s.reads[k]? with
  | none => isFalse fun ⟨_, hr, _⟩ => by rw [h] at hr; cases hr
  | some read => decidable_of_iff (read.result = some (-1)) (by simp [St.Killed, h])

/-- The bytes that reads have got that were not killed, in the order in which they got them. -/
def St.delivered (s : St) : List UInt8 := (s.taken.filter fun x => x.2 ≠ 4 ∧ ¬ s.Killed x.1).map Prod.snd

/-- The characters that are committed and not yet read. -/
def St.unread (s : St) : List UInt8 := between s.input.buf s.input.r s.input.w

/-- How the console has treated what was typed. -/
structure Correct (s : St) : Prop where
  counters : (s.input.w - s.input.r).toNat ≤ (s.input.e - s.input.r).toNat ∧ (s.input.e - s.input.r).toNat ≤ INPUT_BUF
  /-- Typing only adds to the committed characters. -/
  typing : ∀ c s', step s (.type c) = some s' → s.unread <+: s'.unread ∧ s.committed <+: s'.committed
  /-- Each committed character is taken once, in order, by one of the calls. -/
  order : s.committed = s.taken.map Prod.snd ++ s.unread
  calls : ∀ x ∈ s.taken, x.1 < s.reads.length
  reads : ∀ k read, s.reads[k]? = some read → ReadOk read (s.takenBy k)
  /-- Nothing is lost unless a call was killed after it had taken something. -/
  delivered : (∀ x ∈ s.taken, ¬ s.Killed x.1) → s.committed.filter (· ≠ 4) = s.delivered ++ s.unread.filter (· ≠ 4)

theorem delivered_eq (h : ∀ x ∈ s.taken, ¬ s.Killed x.1) : s.delivered = (s.taken.map Prod.snd).filter (· ≠ 4) := by
  rw [St.delivered, List.filter_map]
  refine congrArg _ (List.filter_congr fun x hx => ?_)
  simp [h x hx]

/-- Whatever is typed and read, from counters with any value. -/
theorem console_correct {buf : Nat → UInt8} {c : BitVec 32} {l : List Action} (hrun : run step (.init buf c) l = some s) : Correct s := by
  have hinv : Inv s := run_inv (fun _ _ _ h hs => h.step hs) (inv_init buf c) hrun
  obtain ⟨q, p, hholds, hcommitted⟩ := hinv.ring
  have hunread : s.unread = q := hholds.between_r_w
  have horder : s.committed = s.taken.map Prod.snd ++ s.unread := by rw [hunread, hcommitted]
  refine ⟨⟨?_, ?_⟩, fun ch s' hs => ?_, horder, hinv.taken, hinv.reads, fun hkilled => ?_⟩
  · rw [hholds.committed.toNat_sub input_buf_lt, hholds.ring.toNat_sub input_buf_lt, List.length_append]
    exact Nat.le_add_right _ _
  · rw [hholds.ring.toNat_sub input_buf_lt]
    exact hholds.ring.le
  · cases hs
    obtain ⟨new, p', hholds', -⟩ := consoleintr_spec hholds ch
    refine ⟨?_, List.prefix_append _ _⟩
    rw [hunread, St.unread, hholds'.between_r_w]
    exact List.prefix_append q new
  · rw [horder, List.filter_append, delivered_eq hkilled]

/-- `"hix"`, a backspace, a newline and `^D`, with counters that wrap; then two reads. -/
theorem console_correct_hi : ∃ s, run step (.init (fun _ => 0) (BitVec.ofNat 32 (2 ^ 32 - 2)))
      [.type 104, .read 10 false, .type 105, .type 120, .type 8, .type 13, .type 4, .resume 0 false, .read 10 false] = some s ∧
    s.reads.map Read.copied = [[104, 105, 10], []] ∧ s.reads.map Read.result = [some 3, some 0] ∧ Correct s := by
  have hrun : ∃ s, run step (.init (fun _ => 0) (BitVec.ofNat 32 (2 ^ 32 - 2)))
      [.type 104, .read 10 false, .type 105, .type 120, .type 8, .type 13, .type 4, .resume 0 false, .read 10 false] = some s ∧
    s.reads.map Read.copied = [[104, 105, 10], []] ∧ s.reads.map Read.result = [some 3, some 0] := ⟨_, rfl, rfl, rfl⟩
  obtain ⟨s, hs, hcopied, hresult⟩ := hrun
  exact ⟨s, hs, hcopied, hresult, console_correct hs⟩

end Ostep.Xv6.Console
