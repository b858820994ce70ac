import Xv6.Console.Console

/-!
# Lines

The ring of the console as two lists: the bytes that can be read, and the line being edited. To these
a character does what `feed` does (`consoleintr_feed`).
-/

namespace Xv6

open Machines Function List

namespace Cons

variable {s : Cons}

def unread (s : Cons) : List UInt8 := Ring.contents s.buf INPUT_BUF s.r.toNat (s.w - s.r).toNat

def pending (s : Cons) : List UInt8 := Ring.contents s.buf INPUT_BUF s.w.toNat (s.e - s.w).toNat

/-- The three counters are in order and at most `INPUT_BUF` apart, and a ring that is full can be
read. -/
structure Ok (s : Cons) : Prop where
  room : (s.w - s.r).toNat + (s.e - s.w).toNat ≤ INPUT_BUF
  full : (s.w - s.r).toNat + (s.e - s.w).toNat = INPUT_BUF → s.e = s.w
  line : newline ∉ s.pending

theorem input_buf_dvd : INPUT_BUF ∣ 2 ^ 32 := by decide

theorem eq_iff_sub (a b : UInt32) : a = b ↔ (a - b).toNat = 0 := by
  have ha := a.toNat_lt
  have hb := b.toNat_lt
  rw [← UInt32.toNat_inj, UInt32.toNat_sub]
  omega

theorem toNat_pred_sub {a b : UInt32} (h : a ≠ b) : (a - 1 - b).toNat + 1 = (a - b).toNat := by
  have ha := a.toNat_lt
  have hb := b.toNat_lt
  rw [ne_eq, ← UInt32.toNat_inj] at h
  simp only [UInt32.toNat_sub, UInt32.reduceToNat]
  omega

theorem toNat_succ_sub {a b : UInt32} (h : (a - b).toNat < INPUT_BUF) :
    (a + 1 - b).toNat = (a - b).toNat + 1 := by
  have ha := a.toNat_lt
  have hb := b.toNat_lt
  simp only [INPUT_BUF, UInt32.toNat_sub, UInt32.toNat_add, UInt32.reduceToNat] at *
  omega

theorem toNat_sub_sub {r w e : UInt32} (h : (w - r).toNat + (e - w).toNat ≤ INPUT_BUF) :
    (e - r).toNat = (w - r).toNat + (e - w).toNat := by
  have hr := r.toNat_lt
  have hw := w.toNat_lt
  have he := e.toNat_lt
  simp only [INPUT_BUF, UInt32.toNat_sub] at *
  omega

theorem length_unread (s : Cons) : s.unread.length = (s.w - s.r).toNat := Ring.length_contents ..

theorem length_pending (s : Cons) : s.pending.length = (s.e - s.w).toNat := Ring.length_contents ..

theorem pending_snoc (hne : s.e ≠ s.w) : s.pending
    = { s with e := s.e - 1 }.pending ++ [s.buf ((s.e - 1).toNat % INPUT_BUF)] := by
  unfold pending
  rw [← toNat_pred_sub hne, Ring.contents_snoc, Ring.mod_add_sub input_buf_dvd]

theorem Ok.erase (h : s.Ok) (hne : s.e ≠ s.w) : { s with e := s.e - 1 }.Ok where
  room := by
    have hroom := h.room
    have hpred := toNat_pred_sub hne
    show (s.w - s.r).toNat + (s.e - 1 - s.w).toNat ≤ INPUT_BUF
    omega
  full := by
    have hroom := h.room
    have hpred := toNat_pred_sub hne
    intro hfull
    replace hfull : (s.w - s.r).toNat + (s.e - 1 - s.w).toNat = INPUT_BUF := hfull
    omega
  line := fun hmem => h.line (by
    rw [pending_snoc hne]
    exact mem_append_left _ hmem)

/-- There is no newline in the line being edited, so all of it goes. -/
theorem killLine_eq (h : s.Ok) {fuel : Nat} (hfuel : (s.e - s.w).toNat ≤ fuel) :
    killLine fuel s = { s with e := s.w } := by
  induction fuel generalizing s with
  | zero =>
    have heq : s.e = s.w := (eq_iff_sub s.e s.w).mpr (by omega)
    exact congrArg (fun e => { s with e := e }) heq
  | succ fuel ih =>
    unfold killLine
    by_cases hne : s.e = s.w
    · rw [if_neg fun hand => hand.1 hne]
      exact congrArg (fun e => { s with e := e }) hne
    · have hlast : s.buf ((s.e - 1).toNat % INPUT_BUF) ≠ newline := by
        intro hlast
        refine h.line ?_
        rw [pending_snoc hne, hlast]
        simp
      have hpred := toNat_pred_sub hne
      rw [if_pos ⟨hne, hlast⟩, ih (h.erase hne)]
      show (s.e - 1 - s.w).toNat ≤ fuel
      omega

theorem Ok.kill (h : s.Ok) : { s with e := s.w }.Ok where
  room := by
    have hroom := h.room
    show (s.w - s.r).toNat + (s.w - s.w).toNat ≤ INPUT_BUF
    rw [(eq_iff_sub s.w s.w).mp rfl]
    omega
  full := fun _ => rfl
  line := by
    unfold pending
    rw [(eq_iff_sub s.w s.w).mp rfl]
    exact not_mem_nil

theorem pending_kill : { s with e := s.w }.pending = [] := by
  unfold pending
  rw [(eq_iff_sub s.w s.w).mp rfl]
  rfl

/-! ### A byte is stored -/

section Store

variable (hroom : (s.w - s.r).toNat + (s.e - s.w).toNat < INPUT_BUF) (c : UInt8)

include hroom

theorem contents_store : Ring.contents (update s.buf (s.e.toNat % INPUT_BUF) c) INPUT_BUF
      s.r.toNat (s.w - s.r).toNat = s.unread ∧
    Ring.contents (update s.buf (s.e.toNat % INPUT_BUF) c) INPUT_BUF s.w.toNat
      (s.e + 1 - s.w).toNat = s.pending ++ [c] := by
  have hsum := toNat_sub_sub hroom.le
  have hpush := Ring.contents_push s.buf s.r.toNat
    (show (s.e - s.r).toNat < INPUT_BUF by omega) c
  rw [Ring.mod_add_sub input_buf_dvd, hsum, Nat.add_assoc,
    Ring.contents_add _ _ _ (s.w - s.r).toNat ((s.e - s.w).toNat + 1),
    Ring.contents_add _ _ _ (s.w - s.r).toNat (s.e - s.w).toNat, append_assoc] at hpush
  have hstart : ∀ data : Nat → UInt8, ∀ len,
      Ring.contents data INPUT_BUF (s.r.toNat + (s.w - s.r).toNat) len
        = Ring.contents data INPUT_BUF s.w.toNat len := fun data len =>
    Ring.contents_congr (Ring.mod_add_sub input_buf_dvd s.r s.w)
  rw [hstart, hstart] at hpush
  have hparts := append_inj hpush (by simp)
  rw [toNat_succ_sub (show (s.e - s.w).toNat < INPUT_BUF by omega)]
  exact hparts

theorem pending_step : (s.e + 1 - s.w).toNat = (s.e - s.w).toNat + 1 :=
  toNat_succ_sub (by omega)

theorem full_iff :
    s.e + 1 = s.r + UInt32.ofNat INPUT_BUF ↔ (s.w - s.r).toNat + ((s.e - s.w).toNat + 1) = INPUT_BUF := by
  have hsum := toNat_sub_sub hroom.le
  have hr := s.r.toNat_lt
  have he := s.e.toNat_lt
  rw [← Nat.add_assoc, ← hsum, ← UInt32.toNat_inj]
  simp only [INPUT_BUF, UInt32.toNat_sub, UInt32.toNat_add, UInt32.reduceToNat, UInt32.reduceOfNat] at *
  omega

theorem store_commit (hc : c = newline ∨ c = ctrl 'D' ∨
      (s.w - s.r).toNat + ((s.e - s.w).toNat + 1) = INPUT_BUF) :
    (storeChar c s).Ok ∧ (storeChar c s).unread = s.unread ++ (s.pending ++ [c]) ∧ (storeChar c s).pending = [] := by
  obtain ⟨hunread, hpending⟩ := contents_store hroom c
  have hstore : storeChar c s = { s with
      buf := update s.buf (s.e.toNat % INPUT_BUF) c, e := s.e + 1, w := s.e + 1 } := by
    unfold storeChar
    rw [if_pos]
    rw [full_iff hroom]
    exact hc
  have hstep := pending_step hroom
  have hempty : (s.e + 1 - (s.e + 1)).toNat = 0 := (eq_iff_sub _ _).mp rfl
  have hlen : (s.e + 1 - s.r).toNat = (s.w - s.r).toNat + (s.e + 1 - s.w).toNat :=
    toNat_sub_sub (by omega)
  rw [hstore]
  refine ⟨⟨?_, fun _ => rfl, ?_⟩, ?_, ?_⟩
  · show (s.e + 1 - s.r).toNat + (s.e + 1 - (s.e + 1)).toNat ≤ INPUT_BUF
    omega
  · unfold pending
    rw [hempty]
    exact not_mem_nil
  · show Ring.contents _ INPUT_BUF s.r.toNat (s.e + 1 - s.r).toNat = _
    rw [hlen, Ring.contents_add, hunread, ← hpending]
    exact congrArg (s.unread ++ ·) (Ring.contents_congr (Ring.mod_add_sub input_buf_dvd s.r s.w))
  · unfold pending
    rw [hempty]
    rfl

theorem store_edit (h : newline ∉ s.pending) (hc : ¬ (c = newline ∨ c = ctrl 'D' ∨
      (s.w - s.r).toNat + ((s.e - s.w).toNat + 1) = INPUT_BUF)) :
    (storeChar c s).Ok ∧ (storeChar c s).unread = s.unread ∧ (storeChar c s).pending = s.pending ++ [c] := by
  obtain ⟨hunread, hpending⟩ := contents_store hroom c
  have hstore : storeChar c s = { s with
      buf := update s.buf (s.e.toNat % INPUT_BUF) c, e := s.e + 1 } := by
    unfold storeChar
    rw [if_neg]
    rw [full_iff hroom]
    exact hc
  have hstep := pending_step hroom
  obtain ⟨hnl, -, hfull⟩ : c ≠ newline ∧ c ≠ ctrl 'D' ∧ _ := by simpa only [not_or] using hc
  rw [hstore]
  refine ⟨⟨?_, ?_, ?_⟩, hunread, hpending⟩
  · show (s.w - s.r).toNat + (s.e + 1 - s.w).toNat ≤ INPUT_BUF
    omega
  · intro hall
    replace hall : (s.w - s.r).toNat + (s.e + 1 - s.w).toNat = INPUT_BUF := hall
    omega
  · show newline ∉ Ring.contents _ INPUT_BUF s.w.toNat (s.e + 1 - s.w).toNat
    rw [hpending, mem_append, mem_singleton]
    rintro (hmem | heq)
    · exact h hmem
    · exact hnl heq.symm

end Store

theorem consoleintr_feed (h : s.Ok) (c : UInt8) (eaten : List UInt8) :
    (consoleintr c s).Ok ∧
      feed (s.w - s.r).toNat c (eaten ++ s.unread, s.pending)
        = (eaten ++ (consoleintr c s).unread, (consoleintr c s).pending) := by
  unfold consoleintr feed
  by_cases hP : c = ctrl 'P'
  · rw [if_pos hP, if_pos (.inr hP)]
    exact ⟨h, rfl⟩
  rw [if_neg hP]
  by_cases hU : c = ctrl 'U'
  · rw [if_pos hU, if_neg (by rw [hU]; decide), if_pos hU, killLine_eq h le_rfl]
    exact ⟨h.kill, by rw [pending_kill]; rfl⟩
  rw [if_neg hU]
  by_cases hH : c = ctrl 'H' ∨ c = delete
  · have hne0 : ¬ (c = 0 ∨ c = ctrl 'P') := by
      rintro (rfl | hP')
      · revert hH
        decide
      · exact hP hP'
    rw [if_pos hH, if_neg hne0, if_neg hU, if_pos hH]
    by_cases hne : s.e = s.w
    · rw [if_neg (not_not.mpr hne)]
      have hnil : s.pending = [] := by
        unfold pending
        rw [(eq_iff_sub s.e s.w).mp hne]
        rfl
      exact ⟨h, by rw [hnil]; rfl⟩
    · rw [if_pos hne]
      refine ⟨h.erase hne, ?_⟩
      rw [pending_snoc hne, dropLast_concat]
      rfl
  rw [if_neg hH]
  by_cases h0 : c = 0
  · rw [if_neg fun hand => hand.1 h0, if_pos (.inl h0)]
    exact ⟨h, rfl⟩
  rw [if_neg fun hor : c = 0 ∨ c = ctrl 'P' => hor.elim h0 hP, if_neg hU, if_neg hH]
  have hsum := toNat_sub_sub h.room
  have hroom := h.room
  by_cases hfull : (s.w - s.r).toNat + s.pending.length = INPUT_BUF
  · rw [if_pos hfull]
    rw [length_pending] at hfull
    rw [if_neg fun hand : c ≠ 0 ∧ _ => by omega]
    exact ⟨h, rfl⟩
  rw [if_neg hfull]
  rw [length_pending] at hfull ⊢
  have hlt : (s.w - s.r).toNat + (s.e - s.w).toNat < INPUT_BUF := by omega
  rw [if_pos ⟨h0, by omega⟩]
  generalize (if c = carriageReturn then newline else c) = d
  dsimp only
  split
  · rename_i hcommit
    obtain ⟨hok, hunread, hpending⟩ := store_commit hlt d hcommit
    rw [hunread, hpending, append_assoc]
    exact ⟨hok, rfl⟩
  · rename_i hedit
    obtain ⟨hok, hunread, hpending⟩ := store_edit hlt d h.line hedit
    rw [hunread, hpending]
    exact ⟨hok, rfl⟩

theorem unread_consoleintr (h : s.Ok) (c : UInt8) : s.unread <+: (consoleintr c s).unread := by
  have hfeed := feed_prefix (s.w - s.r).toNat c ([] ++ s.unread, s.pending)
  rw [(consoleintr_feed h c []).2] at hfeed
  exact hfeed

/-! ### A byte is read -/

theorem unread_eat (hsome : s.r ≠ s.w) :
    s.unread = s.buf (s.r.toNat % INPUT_BUF) :: { s with r := s.r + 1 }.unread := by
  have hlen : (s.w - (s.r + 1)).toNat + 1 = (s.w - s.r).toNat := by
    have hr := s.r.toNat_lt
    have hw := s.w.toNat_lt
    rw [ne_eq, ← UInt32.toNat_inj] at hsome
    simp only [UInt32.toNat_sub, UInt32.toNat_add, UInt32.reduceToNat]
    omega
  unfold unread
  rw [← hlen, Ring.contents_pop]
  exact congrArg (_ :: ·) (Ring.contents_congr (Ring.toNat_add_mod input_buf_dvd s.r 1).symm)

theorem Ok.eat (h : s.Ok) (hsome : s.r ≠ s.w) : { s with r := s.r + 1 }.Ok := by
  have hlen := congrArg List.length (unread_eat hsome)
  rw [length_cons, length_unread, length_unread] at hlen
  have hroom := h.room
  refine ⟨?_, fun hfull => ?_, h.line⟩
  · show (s.w - (s.r + 1)).toNat + (s.e - s.w).toNat ≤ INPUT_BUF
    replace hlen : (s.w - s.r).toNat = (s.w - (s.r + 1)).toNat + 1 := hlen
    omega
  · replace hlen : (s.w - s.r).toNat = (s.w - (s.r + 1)).toNat + 1 := hlen
    replace hfull : (s.w - (s.r + 1)).toNat + (s.e - s.w).toNat = INPUT_BUF := hfull
    omega

end Cons

/-! ## Runs -/

/-- Whole bytes of a line: neither a newline nor Control-D is among them. -/
structure Partial (target : Int) (got : List UInt8) : Prop where
  newline : newline ∉ got
  eof : ctrl 'D' ∉ got
  length : (got.length : Int) ≤ max target 0

/-- What `consoleread` returns, and what it has removed, by the way its loop ended. A Control-D that
comes after data is left to be read again; one that comes first is removed, and nothing is returned. -/
def Stopped (s : ConsSys) (p : Fin NPROC) (target : Int) (got : List UInt8) : ConsStop → Prop
  | .count => s.removed p = got ∧ Partial target got ∧ (got.length : Int) = max target 0
  | .newline => s.removed p = got ∧
      ∃ line, got = line ++ [newline] ∧ Partial target line ∧ (got.length : Int) ≤ target
  | .eof => Partial target got ∧ (got = [] → s.removed p = [ctrl 'D']) ∧
      (got ≠ [] → s.removed p = got ∧ s.cons.unread.head? = some (ctrl 'D'))
  | .fault => False

def MappedDst (dst : Nat → Bool) (target : Int) : Prop := ∀ j : Nat, (j : Int) < target → dst j = true

def ConsPc.Reads (s : ConsSys) (p : Fin NPROC) : ConsPc → Prop
  | .idle => True
  | .want dst target got => MappedDst dst target ∧ Partial target got ∧ s.removed p = got
  | .loop dst target got => MappedDst dst target ∧ Partial target got ∧ s.removed p = got
  | .stop target got how => Stopped s p target got how

def ConsPc.Inside : ConsPc → Prop
  | .loop _ _ _ | .stop _ _ _ => True
  | _ => False

/-- What was typed, edited, is what the readers have removed, then what they can read, then the line
that is not finished yet. -/
structure ConsInv (s : ConsSys) : Prop where
  ok : s.cons.Ok
  stream : edited s.typed = (s.eaten.map Prod.snd ++ s.cons.unread, s.cons.pending)
  since : ∀ p, s.since p ≤ s.eaten.length
  locked : ∀ p, (s.pc p).Inside → s.lock = some p
  reads : ∀ p, (s.pc p).Reads s p

variable {s s' : ConsSys} {l : ConsLabel}

@[simp] theorem ConsSys.setPc_self (s : ConsSys) (p : Fin NPROC) (pc : ConsPc) :
    (s.setPc p pc).pc p = pc := update_self ..

theorem ConsSys.setPc_of_ne (s : ConsSys) {p r : Fin NPROC} (hr : r ≠ p) (pc : ConsPc) :
    (s.setPc p pc).pc r = s.pc r := update_of_ne hr ..

theorem ConsSys.Fresh.inv (h : s.Fresh) : ConsInv s := by
  have hw : (s.cons.w - s.cons.r).toNat = 0 := (Cons.eq_iff_sub _ _).mp (h.w.trans h.r.symm)
  have he : (s.cons.e - s.cons.w).toNat = 0 := (Cons.eq_iff_sub _ _).mp (h.e.trans h.w.symm)
  have hpending : s.cons.pending = [] := by
    unfold Cons.pending
    rw [he]
    rfl
  refine ⟨⟨?_, fun _ => h.e.trans h.w.symm, ?_⟩, ?_, fun p => by simp [h.since], fun p hp => ?_,
    fun p => ?_⟩
  · rw [hw, he]
    decide
  · rw [hpending]
    exact not_mem_nil
  · rw [h.typed, h.eaten, hpending]
    unfold Cons.unread
    rw [hw]
    rfl
  · rw [h.pc p] at hp
    exact hp.elim
  · rw [h.pc p]
    trivial

def ConsLabel.actor : ConsLabel → Option (Fin NPROC)
  | .call p _ _ | .go p => some p
  | _ => none

theorem ConsStep.pc_other (hstep : ConsStep s l s') {r : Fin NPROC} (hr : l.actor ≠ some r) :
    s'.pc r = s.pc r := by
  have hne : ∀ {p}, l.actor = some p → r ≠ p := by
    rintro p hp rfl
    exact hr hp
  cases hstep with
  | intr | kill => rfl
  | _ => exact ConsSys.setPc_of_ne _ (hne rfl) _

theorem ConsStep.removed_other (hstep : ConsStep s l s') {r : Fin NPROC} (hr : l.actor ≠ some r) :
    s'.removed r = s.removed r := by
  have hne : ∀ {p}, l.actor = some p → p ≠ r := by
    rintro p hp rfl
    exact hr hp
  have heat : ∀ {p}, p ≠ r → (s.eat p).removed r = s.removed r := by
    intro p hp
    have hnone : ((([(p, s.next)] : List _).drop (s.since r - s.eaten.length)).filter (·.1 = r)) = [] :=
      filter_eq_nil_iff.mpr fun x hx => by simp [mem_singleton.mp (mem_of_mem_drop hx), hp]
    simp only [ConsSys.removed, ConsSys.eat, drop_append, filter_append, hnone, append_nil]
  cases hstep with
  | eof | fault | newline | byte => exact heat (hne rfl)
  | call =>
    simp only [ConsSys.removed, ConsSys.setPc]
    rw [update_of_ne (hne rfl).symm]
  | _ => rfl

theorem ConsInv.removed_eat (h : ConsInv s) (p : Fin NPROC) :
    (s.eat p).removed p = s.removed p ++ [s.next] := by
  simp [ConsSys.removed, ConsSys.eat, drop_append_of_le_length (h.since p)]

theorem ConsInv.since_step (h : ConsInv s) (hstep : ConsStep s l s') (p : Fin NPROC) :
    s'.since p ≤ s'.eaten.length := by
  cases hstep with
  | @call q dst n hp =>
    show update s.since q s.eaten.length p ≤ s.eaten.length
    by_cases hpq : p = q
    · rw [hpq, update_self]
    · rw [update_of_ne hpq]
      exact h.since p
  | eof | fault | newline | byte =>
    refine (h.since p).trans ?_
    show _ ≤ (s.eaten ++ [_]).length
    simp
  | _ => exact h.since p

theorem ConsStep.cons_other (h : ConsInv s) (hstep : ConsStep s l s') {r : Fin NPROC}
    (hr : s.lock = some r) (hl : l.actor ≠ some r) : s'.cons = s.cons := by
  have hout : ∀ {p dst target got}, l.actor = some p → s.pc p = .loop dst target got →
      s'.cons = s.cons := by
    intro p dst target got hp hpc
    have hlock := h.locked p (by rw [hpc]; trivial)
    rw [hr] at hlock
    exact absurd (hp.trans hlock.symm) hl
  cases hstep with
  | intr hfree =>
    rw [hfree] at hr
    cases hr
  | eof hp | eofAgain hp | fault hp | newline hp | byte hp => exact hout rfl hp
  | _ => rfl

theorem ConsSys.unread_eq (s : ConsSys) (p : Fin NPROC) (hsome : s.cons.r ≠ s.cons.w) :
    s.cons.unread = s.next :: (s.eat p).cons.unread := Cons.unread_eat hsome

theorem ConsInv.ring_step (h : ConsInv s) (hstep : ConsStep s l s') :
    s'.cons.Ok ∧
      edited s'.typed = (s'.eaten.map Prod.snd ++ s'.cons.unread, s'.cons.pending) := by
  have heat : ∀ p, s.cons.r ≠ s.cons.w → (s.eat p).cons.Ok ∧ edited (s.eat p).typed
      = ((s.eat p).eaten.map Prod.snd ++ (s.eat p).cons.unread, (s.eat p).cons.pending) := by
    intro p hsome
    refine ⟨h.ok.eat hsome, ?_⟩
    show edited s.typed = ((s.eaten ++ [(p, s.next)]).map _ ++ (s.eat p).cons.unread, s.cons.pending)
    rw [h.stream, s.unread_eq p hsome, map_append, append_assoc]
    rfl
  cases hstep with
  | @intr c hfree =>
    obtain ⟨hok, hfeed⟩ := Cons.consoleintr_feed h.ok c (s.eaten.map Prod.snd)
    refine ⟨hok, ?_⟩
    show edited (s.typed ++ [_]) = _
    rw [edited_concat, h.stream]
    exact hfeed
  | eof _ _ hsome | fault _ _ hsome | newline _ _ hsome | byte _ _ hsome => exact heat _ hsome
  | eofAgain =>
    show Cons.Ok { s.cons with r := s.cons.r + 1 - 1 } ∧
      edited s.typed
        = (s.eaten.map Prod.snd ++ Cons.unread { s.cons with r := s.cons.r + 1 - 1 }, s.cons.pending)
    rw [show s.cons.r + 1 - 1 = s.cons.r from UInt32.add_sub_cancel ..]
    exact ⟨h.ok, h.stream⟩
  | _ => exact ⟨h.ok, h.stream⟩

theorem ConsPc.Reads.other {pc : ConsPc} {p : Fin NPROC} (h : pc.Reads s p)
    (hremoved : s'.removed p = s.removed p) (hinside : pc.Inside → s'.cons = s.cons) :
    pc.Reads s' p := by
  cases pc with
  | idle => trivial
  | want | loop => exact ⟨h.1, h.2.1, hremoved.trans h.2.2⟩
  | stop target got how =>
    have hcons := hinside trivial
    cases how with
    | fault => exact h
    | count | newline => exact ⟨hremoved.trans h.1, h.2⟩
    | eof =>
      refine ⟨h.1, fun hnil => hremoved.trans (h.2.1 hnil), fun hne => ?_⟩
      rw [hremoved, hcons]
      exact h.2.2 hne

theorem Partial.snoc {target : Int} {got : List UInt8} {c : UInt8} (h : Partial target got)
    (hn : 0 < target - got.length) (hc : c ≠ ctrl 'D') (hline : c ≠ Xv6.newline) :
    Partial target (got ++ [c]) where
  newline := by
    rw [mem_append, mem_singleton]
    rintro (hmem | heq)
    · exact h.newline hmem
    · exact hline heq.symm
  eof := by
    rw [mem_append, mem_singleton]
    rintro (hmem | heq)
    · exact h.eof hmem
    · exact hc heq.symm
  length := by
    rw [length_append, length_singleton]
    omega

theorem ConsInv.reads_self (h : ConsInv s) (hstep : ConsStep s l s')
    (hmapped : ∀ p dst n, l = .call p dst n → MappedDst dst n) {p : Fin NPROC}
    (hl : l.actor = some p) : (s'.pc p).Reads s' p := by
  have hknown : ∀ {pc}, s.pc p = pc → pc.Reads s p := by
    rintro pc rfl
    exact h.reads p
  have hsnoc : ∀ {got : List UInt8}, s.removed p = got → (s.eat p).removed p = got ++ [s.next] :=
    fun hgot => hgot ▸ h.removed_eat p
  cases hstep
  case intr => cases hl
  case kill => cases hl
  all_goals
    obtain rfl := Option.some.inj hl
    rw [ConsSys.setPc_self]
  case call =>
    refine ⟨hmapped _ _ _ rfl, ⟨not_mem_nil, not_mem_nil, by simp⟩, ?_⟩
    simp [ConsSys.removed, ConsSys.setPc]
  case acquire hp _ => exact (hknown hp :)
  case count hp hn =>
    have hr := hknown hp
    have hlength := hr.2.1.length
    exact ⟨hr.2.2, hr.2.1, by omega⟩
  case sleep hp _ _ _ => exact (hknown hp :)
  case eof dst target got hp hn hsome hc hnone =>
    have hnil : got = [] := eq_nil_of_length_eq_zero (by omega)
    refine ⟨(hknown hp).2.1, fun _ => ?_, fun hne => absurd hnil hne⟩
    have hmore := hsnoc (hknown hp).2.2
    rw [hnil, hc] at hmore
    exact hmore
  case eofAgain dst target got hp hn hsome hc hdata =>
    have hr := hknown hp
    refine ⟨hr.2.1, fun hnil => ?_, fun _ => ⟨hr.2.2, ?_⟩⟩
    · rw [hnil] at hdata
      exact absurd hdata (by simp)
    · show (Cons.unread { s.cons with r := s.cons.r + 1 - 1 }).head? = _
      rw [show s.cons.r + 1 - 1 = s.cons.r from UInt32.add_sub_cancel ..]
      show s.cons.unread.head? = _
      rw [s.unread_eq 0 hsome, hc]
      rfl
  case fault hp hn hsome hc hdst =>
    rw [(hknown hp).1 _ (by omega)] at hdst
    cases hdst
  case newline hp hn hsome hc hdst =>
    have hr := hknown hp
    refine ⟨hsnoc hr.2.2, _, by rw [hc], hr.2.1, ?_⟩
    rw [length_append, length_singleton]
    omega
  case byte hp hn hsome hc hline hdst =>
    have hr := hknown hp
    exact ⟨hr.1, hr.2.1.snoc hn hc hline, hsnoc hr.2.2⟩
  all_goals trivial

theorem ConsInv.locked_step (h : ConsInv s) (hstep : ConsStep s l s') (p : Fin NPROC)
    (hin : (s'.pc p).Inside) : s'.lock = some p := by
  by_cases hl : l.actor = some p
  · have hkeep : ∀ {pc}, s.pc p = pc → pc.Inside → s.lock = some p := fun hp hpc =>
      h.locked p (by rw [hp]; exact hpc)
    cases hstep
    case intr => cases hl
    case kill => cases hl
    all_goals
      obtain rfl := Option.some.inj hl
      rw [ConsSys.setPc_self] at hin
    case acquire => rfl
    case call => exact hin.elim
    case sleep => exact hin.elim
    case fail => exact hin.elim
    case ret => exact hin.elim
    all_goals
      apply hkeep
      · assumption
      · trivial
  · rw [hstep.pc_other hl] at hin
    have hlock := h.locked p hin
    -- who is at the loop, or takes the lock, is `p`
    have hother : ∀ {q}, s.lock = some q → l.actor ≠ some q := by
      intro q hq hlq
      rw [hlock] at hq
      cases hq
      exact hl hlq
    cases hstep with
    | acquire hp hfree =>
      rw [hfree] at hlock
      cases hlock
    | sleep hp | fail hp | ret hp => exact absurd rfl (hother (h.locked _ (by rw [hp]; trivial)))
    | _ => exact hlock

theorem ConsInv.step (h : ConsInv s) (hstep : ConsStep s l s')
    (hmapped : ∀ p dst n, l = .call p dst n → MappedDst dst n) : ConsInv s' := by
  obtain ⟨hok, hstream⟩ := h.ring_step hstep
  refine ⟨hok, hstream, h.since_step hstep, h.locked_step hstep, fun p => ?_⟩
  by_cases hl : l.actor = some p
  · exact h.reads_self hstep hmapped hl
  · rw [hstep.pc_other hl]
    exact (h.reads p).other (hstep.removed_other hl) fun hin =>
      hstep.cons_other h (h.locked p hin) hl

def MappedReads (_ : ConsSys) : ConsLabel → Prop
  | .call _ dst n => MappedDst dst n
  | _ => True

/-- **The console is a line editor in front of a queue of bytes.** In every run of characters typed
and calls of `consoleread`:
* the counters are in order and at most `INPUT_BUF` apart, and a full ring can be read;
* no character typed changes a byte that can be read;
* what readers have removed, followed by what can be read, is what `edited` commits of the characters
  typed, and the line being edited is the rest of it;
* what a call has removed, from its start on, is what it has got; it stops as `Stopped` says, and has
  then removed what it returns, and a Control-D besides if it returns nothing because of it. -/
theorem console_discipline {s : ConsSys} (h : Reachable (consMachine.restrict MappedReads) s) :
    (s.cons.w - s.cons.r).toNat ≤ (s.cons.e - s.cons.r).toNat ∧
      (s.cons.e - s.cons.r).toNat ≤ INPUT_BUF ∧
      ((s.cons.e - s.cons.r).toNat = INPUT_BUF → s.cons.w = s.cons.e) ∧
      (∀ c, s.cons.unread <+: (consoleintr c s.cons).unread) ∧
      edited s.typed = (s.eaten.map Prod.snd ++ s.cons.unread, s.cons.pending) ∧
      (∀ p dst target got, s.pc p = .want dst target got ∨ s.pc p = .loop dst target got →
        s.removed p = got) ∧
      ∀ p target got how, s.pc p = .stop target got how → Stopped s p target got how := by
  have hinv : ConsInv s := by
    refine Reachable.invariant (I := ConsInv) ?_ ?_ h
    · intro s (hs : s.Fresh)
      exact hs.inv
    · rintro s l s' - hs ⟨hmapped, hstep⟩
      refine hs.step hstep ?_
      rintro p dst n rfl
      exact hmapped
  have hsum := Cons.toNat_sub_sub hinv.ok.room
  have hroom := hinv.ok.room
  refine ⟨by omega, by omega, fun hfull => ?_, Cons.unread_consoleintr hinv.ok, hinv.stream, ?_, ?_⟩
  · exact (hinv.ok.full (by omega)).symm
  · intro p dst target got hp
    have hreads := hinv.reads p
    rcases hp with hp | hp
    all_goals
      rw [hp] at hreads
      exact hreads.2.2
  · intro p target got how hp
    have hreads := hinv.reads p
    rw [hp] at hreads
    exact hreads

/-- A line with a mistake is typed, and read by a process that asks for five bytes. -/
theorem console_discipline_line : ∃ s : ConsSys, s.pc 0 = .stop 5 [97, newline] .newline ∧
    s.eaten.map Prod.snd ++ s.cons.unread = [97, newline] ∧
      Stopped s 0 5 [97, newline] .newline := by
  have hstart : Reachable (consMachine.restrict MappedReads) cons0 := .start cons0_fresh
  have ha := hstart.go (.intr 97) trivial (ConsStep.intr rfl)
  have hb := ha.go (.intr 98) trivial (ConsStep.intr rfl)
  have hdelete := hb.go (.intr delete) trivial (ConsStep.intr rfl)
  have hreturn := hdelete.go (.intr carriageReturn) trivial (ConsStep.intr rfl)
  have hcall := hreturn.go (.call 0 (fun _ => true) 5) (fun _ _ => rfl) (ConsStep.call rfl)
  have hlock := hcall.go (.go 0) trivial (ConsStep.acquire rfl rfl)
  have hbyte := hlock.go (.go 0) trivial
    (ConsStep.byte rfl (by decide) (by decide) (by decide) (by decide) rfl)
  have hline := hbyte.go (.go 0) trivial
    (ConsStep.newline rfl (by decide) (by decide) (by decide) rfl)
  obtain ⟨-, -, -, -, hstream, -, hreads⟩ := console_discipline hline
  exact ⟨_, rfl, (congrArg Prod.fst hstream).symm.trans (by decide), hreads 0 _ _ _ rfl⟩

end Xv6
