import Xv6.Pipe.Pipe

/-!
# Sleeping on a pipe

Nobody sleeps on a pipe that has something for them, unless a writer is killed at the wrong moment.
-/

namespace Xv6

open Machines

/-- What a process that sleeps on the channel waits for. -/
def Pipe.Ready (pi : Pipe) : PipeChan → Prop
  | .nread => pi.nread ≠ pi.nwrite ∨ pi.writeopen = false
  | .nwrite => ¬ pi.Full ∨ pi.readopen = false

def Rest.On (r : Rest) (chan : PipeChan) : Prop := r = .dozing chan ∨ r = .sleeping chan

/-- The process at this point will call `wakeup(chan)`, or has not come to `q` in it. -/
def PipePc.Owes (chan : PipeChan) (q : Fin NPROC) : PipePc → Prop
  | .writing _ _ i₀ i => chan = .nread ∧ i₀ < i
  | .reading .. => chan = .nwrite
  | .waking c j _ => c = chan ∧ j ≤ q
  | _ => False

def PipeProc.Fine (pi : Pipe) (p : PipeProc) : Prop :=
  match p.pc with
  | .writing _ _ i₀ i => i₀ ≤ i ∧ (i₀ < i → pi.readopen = true ∧ p.killed = false)
  | .waking _ _ (.sleep on _) => ¬ pi.Ready on
  | _ => True

/-- Whoever sleeps, or is about to, on a channel that is ready is owed a `wakeup` by the holder of
`pi->lock`. One exit of `pipewrite` breaks this: a process that is killed after it has stored a byte
leaves the loop without waking the readers. -/
structure Calm (s : PipeSys) : Prop where
  owed : ∀ q chan, (s.proc q).rest.On chan → s.pi.Ready chan →
    ∃ p, s.lock = some p ∧ (s.proc p).pc.Owes chan q
  fine : ∀ p, (s.proc p).Fine s.pi

/-- `kill` does not come to a process that has stored a byte since it took `pi->lock`. -/
def NoKillInWrite (s : PipeSys) : PipeLabel → Prop
  | .kill q => ∀ src n i₀ i, (s.proc q).pc = .writing src n i₀ i → i₀ = i
  | _ => True

variable {s s' : PipeSys} {l : PipeLabel}

theorem Rest.not_on_awake (chan : PipeChan) : ¬ Rest.On .awake chan := by
  rintro (h | h) <;> cases h

theorem PipeProc.on_of_wake {p : PipeProc} {f : PipeChan → Prop} [DecidablePred f] {chan : PipeChan}
    (hdoze : ∀ c, p.rest ≠ .dozing c) (h : (p.wake f).rest.On chan) : p.rest.On chan ∧ ¬ f chan := by
  unfold PipeProc.wake at h
  cases hr : p.rest with
  | awake =>
    rw [hr] at h
    exact absurd h (Rest.not_on_awake _)
  | dozing c => exact absurd hr (hdoze c)
  | sleeping c =>
    simp only [hr, Rest.wake] at h
    split at h
    · exact absurd h (Rest.not_on_awake _)
    · rename_i hne
      rcases h with heq | heq <;> cases heq
      exact ⟨.inr rfl, hne⟩

theorem PipeSys.setPc_rest (s : PipeSys) (p : Fin NPROC) (pc : PipePc) (q : Fin NPROC) :
    ((s.setPc p pc).proc q).rest = (s.proc q).rest := update_unseen rfl

theorem PipeSys.setPc_killed (s : PipeSys) (p : Fin NPROC) (pc : PipePc) (q : Fin NPROC) :
    ((s.setPc p pc).proc q).killed = (s.proc q).killed := update_unseen rfl

theorem PipeSys.Fresh.calm (h : s.Fresh) : Calm s where
  owed q chan hon := by
    rw [(h.proc q).2] at hon
    exact absurd hon (Rest.not_on_awake chan)
  fine p := by
    unfold PipeProc.Fine
    rw [(h.proc p).1]
    trivial

/-- Whoever sleeps on a channel that is ready is owed a `wakeup`. -/
def PipeSys.Owed (s : PipeSys) : Prop := ∀ q chan, (s.proc q).rest.On chan → s.pi.Ready chan →
  ∃ p, s.lock = some p ∧ (s.proc p).pc.Owes chan q

section Owed

variable (h : Calm s) (hlocked : s.Locked)

include h hlocked

variable {p : Fin NPROC} {pc : PipePc}

theorem Calm.owes (hp : s.At p pc) (hin : pc.Inside) {q : Fin NPROC} {chan : PipeChan}
    (hon : (s.proc q).rest.On chan) (hready : s.pi.Ready chan) : pc.Owes chan q := by
  obtain ⟨p', hlock, howes⟩ := h.owed q chan hon hready
  rw [← hp.pc, hlocked p, hlock] at hin
  cases hin
  rw [← hp.pc]
  exact howes

/-- The holder goes on to `pc'` and the pipe to `pi'`. What is new of what is ready, and what was
owed, is owed now. -/
theorem Calm.owed_move {pc' : PipePc} (hp : s.At p pc) (hin : pc.Inside) (hlock : s'.lock = s.lock)
    (hself : (s'.proc p).pc = pc')
    (hrest : ∀ q chan, (s'.proc q).rest.On chan → (s.proc q).rest.On chan)
    (howes : ∀ q chan, s'.pi.Ready chan → (s.pi.Ready chan → pc.Owes chan q) → pc'.Owes chan q) :
    s'.Owed := by
  intro q chan hon hready
  refine ⟨p, ?_, ?_⟩
  · rw [hlock, ← hlocked p, hp.pc]
    exact hin
  · rw [hself]
    exact howes q chan hready fun hbefore => h.owes hlocked hp hin (hrest q chan hon) hbefore

theorem Calm.owed_leave (hp : s.At p pc) (hin : pc.Inside) (hpi : s'.pi = s.pi)
    (hnone : ∀ q chan, ¬ pc.Owes chan q)
    (hrest : ∀ q chan, (s'.proc q).rest.On chan → (s.proc q).rest.On chan ∨ ¬ s.pi.Ready chan) :
    s'.Owed := by
  intro q chan hon hready
  rw [hpi] at hready
  rcases hrest q chan hon with hon | hnot
  · exact absurd (h.owes hlocked hp hin hon hready) (hnone q chan)
  · exact absurd hready hnot

theorem Calm.owed_outside (hp : s.At p pc) (hout : ¬ pc.Inside) (hpi : s'.pi = s.pi)
    (hlock : s'.lock = s.lock) (hother : ∀ r, r ≠ p → (s'.proc r).pc = (s.proc r).pc)
    (hrest : ∀ q, (s'.proc q).rest = (s.proc q).rest) :
    s'.Owed := by
  intro q chan hon hready
  rw [hrest] at hon
  rw [hpi] at hready
  obtain ⟨p', hl, howes⟩ := h.owed q chan hon hready
  have hne : p' ≠ p := by
    rintro rfl
    rw [← hp.pc, hlocked p'] at hout
    exact hout hl
  exact ⟨p', hlock.trans hl, by rw [hother p' hne]; exact howes⟩

omit hlocked in
/-- The lock is taken: nobody is owed anything, and nothing is ready that was not. -/
theorem Calm.owed_enter (hfree : s.lock = none) {pc' : PipePc} (hlock : s'.lock = some p)
    (hself : (s'.proc p).pc = pc') (hrest : ∀ q, (s'.proc q).rest = (s.proc q).rest)
    (hready : ∀ q chan, s'.pi.Ready chan → s.pi.Ready chan ∨ pc'.Owes chan q) :
    s'.Owed := by
  intro q chan hon hr
  rw [hrest] at hon
  rcases hready q chan hr with hbefore | howes
  · obtain ⟨p', hl, -⟩ := h.owed q chan hon hbefore
    rw [hfree] at hl
    cases hl
  · exact ⟨p, hlock, by rw [hself]; exact howes⟩

omit hlocked in
theorem Calm.owed_same (hlock : s'.lock = s.lock) (hpi : s'.pi = s.pi)
    (hpc : ∀ r, (s'.proc r).pc = (s.proc r).pc)
    (hrest : ∀ q chan, (s'.proc q).rest.On chan → (s.proc q).rest.On chan) : s'.Owed := by
  intro q chan hq hr
  obtain ⟨p, hl, howes⟩ := h.owed q chan (hrest q chan hq) (hpi ▸ hr)
  exact ⟨p, hlock.trans hl, by rw [hpc]; exact howes⟩

omit hlocked in
theorem Calm.fine_at (hp : s.At p pc) : PipeProc.Fine s.pi { s.proc p with pc := pc } := by
  rw [← hp.pc]
  exact h.fine p

end Owed

/-! ### What is ready after each change of the pipe -/

theorem Pipe.Ready.of_put {pi : Pipe} {ch : UInt8} (hroom : ¬ pi.Full) {chan : PipeChan}
    (h : (pi.put ch).Ready chan) : pi.Ready chan ∨ chan = .nread := by
  cases chan with
  | nread => exact .inr rfl
  | nwrite => exact .inl (.inl hroom)

theorem Pipe.Ready.of_take {pi : Pipe} (hsome : pi.nread ≠ pi.nwrite) {chan : PipeChan}
    (h : pi.take.Ready chan) : pi.Ready chan ∨ chan = .nwrite := by
  cases chan with
  | nread => exact .inl (.inl hsome)
  | nwrite => exact .inr rfl

theorem Pipe.Ready.of_close {pi : Pipe} {w : Bool} {chan : PipeChan} (h : (pi.close w).Ready chan) :
    pi.Ready chan ∨ (if w then PipeChan.nread else .nwrite) = chan := by
  cases w <;> cases chan
  · exact .inl h
  · exact .inr rfl
  · exact .inr rfl
  · exact .inl h

/-! ### One step -/

theorem Calm.owed_step (h : Calm s) (hlocked : s.Locked) (hstep : PipeStep s l s') :
    s'.Owed := by
  have hrest : ∀ {t : PipeSys} {p : Fin NPROC} {pc : PipePc}, t.proc = s.proc →
      ∀ q, ((t.setPc p pc).proc q).rest = (s.proc q).rest := by
    intro t p pc ht q
    rw [PipeSys.setPc_rest, ht]
  have hon : ∀ {t : PipeSys} {p : Fin NPROC} {pc : PipePc}, t.proc = s.proc →
      ∀ q chan, ((t.setPc p pc).proc q).rest.On chan → (s.proc q).rest.On chan := by
    intro t p pc ht q chan hq
    rw [hrest ht] at hq
    exact hq
  have hself : ∀ {t : PipeSys} {p : Fin NPROC} {pc : PipePc}, ((t.setPc p pc).proc p).pc = pc := by
    intro t p pc
    rw [PipeSys.setPc_self]
  have hdoze : ∀ {p : Fin NPROC} {on : PipeChan} {c : PipeCall}, ¬ s.pi.Ready on → ∀ q chan,
      ((s.doze p on c).proc q).rest.On chan → (s.proc q).rest.On chan ∨ ¬ s.pi.Ready chan := by
    intro p on c hnot q chan hq
    by_cases hqp : q = p
    · rw [hqp, PipeSys.doze_self] at hq
      rcases hq with heq | heq
      · cases heq
        exact .inr hnot
      · cases heq
    · rw [PipeSys.doze_of_ne _ hqp] at hq
      exact .inl hq
  have hstep' := hstep
  cases hstep with
  | call hp =>
    refine h.owed_outside hlocked hp id rfl rfl (fun r hr => ?_) (hrest rfl)
    rw [PipeSys.setPc_of_ne _ hr]
  | acquireWrite _ hfree | acquireRead _ hfree =>
    exact h.owed_enter hfree rfl hself (hrest rfl) fun _ _ hr => .inl hr
  | acquireClose hp hfree =>
    refine h.owed_enter hfree rfl hself (hrest rfl) fun q chan hr => ?_
    exact hr.of_close.imp_right fun heq => ⟨heq, Nat.zero_le _⟩
  | @writeFail p _ _ _ _ hp hi hstop =>
    refine h.owed_move hlocked hp trivial rfl hself (hon rfl) fun q chan hr howes => ?_
    -- a process that has stored a byte is neither killed nor without readers
    obtain ⟨hopen, hkilled⟩ := (h.fine_at hp).2 (howes hr).2
    rw [hopen, hkilled] at hstop
    rcases hstop with hstop | hstop <;> cases hstop
  | writeFull hp | writeFault hp | writeEnd hp =>
    exact h.owed_move hlocked hp trivial rfl hself (hon rfl) fun q chan hr howes =>
      ⟨(howes hr).1.symm, Nat.zero_le _⟩
  | @writeByte p _ _ _ _ _ hp hi hopen hkilled hroom =>
    refine h.owed_move hlocked hp trivial rfl hself (hon rfl) fun q chan hr howes => ?_
    refine ⟨?_, Nat.lt_succ_of_le (h.fine_at hp).1⟩
    rcases Pipe.Ready.of_put hroom hr with hbefore | hchan
    · exact (howes hbefore).1
    · exact hchan
  | readFail hp =>
    exact h.owed_move hlocked hp trivial rfl hself (hon rfl) fun q chan hr howes => howes hr
  | readSleep hp hempty hopen =>
    refine h.owed_leave hlocked hp trivial rfl (fun _ _ => id) (hdoze ?_)
    rintro (hne | hclosed)
    · exact hne hempty
    · rw [hopen] at hclosed
      cases hclosed
  | readStart hp =>
    exact h.owed_move hlocked hp trivial rfl hself (hon rfl) fun q chan hr howes => (howes hr).elim
  | readByte hp hi hsome =>
    exact h.owed_move hlocked hp trivial rfl hself (hon rfl) fun q chan hr howes =>
      (Pipe.Ready.of_take hsome hr).elim howes id
  | readFault hp hi hsome =>
    exact h.owed_move hlocked hp trivial rfl hself (hon rfl) fun q chan hr howes =>
      ⟨((Pipe.Ready.of_take hsome hr).elim howes id).symm, Nat.zero_le _⟩
  | readEnd hp =>
    exact h.owed_move hlocked hp trivial rfl hself (hon rfl) fun q chan hr howes =>
      ⟨(howes hr).symm, Nat.zero_le _⟩
  | @wake p c k q0 hp hq0 =>
    intro q chan hq hr
    rw [PipeSys.setPc_rest] at hq
    have hlock : s.lock = some p := by
      rw [← hlocked p, hp.pc]
      trivial
    refine ⟨p, hlock, ?_⟩
    rw [hself]
    by_cases hqq : q = q0
    · -- `q0` is not on its way to sleep, and does not sleep on `c` any more
      subst hqq
      rw [PipeSys.setProc_self] at hq
      obtain ⟨hbefore, hne⟩ := PipeProc.on_of_wake hq0 hq
      exact absurd (h.owes hlocked hp trivial hbefore hr).1.symm hne
    · rw [PipeSys.setProc_of_ne _ hqq] at hq
      obtain ⟨hc, hle⟩ := h.owes hlocked hp trivial hq hr
      have hne : q.val ≠ q0.val := fun heq => hqq (Fin.ext heq)
      exact ⟨hc, by omega⟩
  | @wakeSleep p _ _ _ hp =>
    refine h.owed_leave hlocked hp trivial rfl (fun q _ howes => ?_) (hdoze (h.fine_at hp))
    exact absurd howes.2 (Nat.not_le_of_lt q.isLt)
  | wakeReturn hp =>
    refine h.owed_leave hlocked hp trivial rfl (fun q _ howes => ?_) fun q chan hq => .inl ?_
    · exact absurd howes.2 (Nat.not_le_of_lt q.isLt)
    · exact hon (t := { s with lock := none }) rfl q chan hq
  | failReturn hp =>
    refine h.owed_leave hlocked hp trivial rfl (fun _ _ => id) fun q chan hq => .inl ?_
    exact hon (t := { s with lock := none }) rfl q chan hq
  | @fallAsleep p c hp =>
    refine h.owed_same rfl rfl (PipeSys.setProc_pc s rfl) fun q chan hq => ?_
    by_cases hqp : q = p
    · rw [hqp, PipeSys.setProc_self] at hq
      rcases hq with heq | heq <;> cases heq
      rw [hqp]
      exact .inl hp
    · rwa [PipeSys.setProc_of_ne _ hqp] at hq
  | @kill q0 hq0 =>
    refine h.owed_same rfl rfl (PipeSys.setProc_pc s rfl) fun q chan hq => ?_
    by_cases hqq : q = q0
    · subst hqq
      rw [PipeSys.setProc_self] at hq
      exact (PipeProc.on_of_wake hq0 hq).1
    · rwa [PipeSys.setProc_of_ne _ hqq] at hq

theorem PipeProc.fine_of_outside {p : PipeProc} (hout : ¬ p.pc.Inside) (pi : Pipe) : p.Fine pi := by
  unfold PipeProc.Fine
  cases hpc : p.pc with
  | idle | want => trivial
  | _ =>
    rw [hpc] at hout
    exact absurd trivial hout

theorem PipeStep.killed_other (hstep : PipeStep s l s') {r : Fin NPROC} (hr : l ≠ .kill r) :
    (s'.proc r).killed = (s.proc r).killed := by
  cases hstep with
  | wake q =>
    rw [PipeSys.setPc_killed]
    exact update_unseen rfl
  | wakeSleep | readSleep | fallAsleep => exact update_unseen rfl
  | @kill q =>
    have hrq : r ≠ q := by
      rintro rfl
      exact hr rfl
    rw [PipeSys.setProc_of_ne _ hrq]
  | _ => exact PipeSys.setPc_killed ..

theorem Calm.fine_step (h : Calm s) (hlocked : s.Locked) (hstep : PipeStep s l s')
    (hkill : NoKillInWrite s l) (p : Fin NPROC) : (s'.proc p).Fine s'.pi := by
  by_cases hactor : l.actor = some p
  swap
  · -- somebody else's step, or a `kill`
    by_cases hin : (s.proc p).pc.Inside
    swap
    · refine PipeProc.fine_of_outside ?_ _
      rw [hstep.pc_other hactor]
      exact hin
    have hfine := h.fine p
    unfold PipeProc.Fine at hfine ⊢
    rw [hstep.pi_other hlocked hin hactor, hstep.pc_other hactor]
    split
    · rename_i src n i₀ i hpc
      rw [hpc] at hfine
      refine ⟨hfine.1, fun hlt => ⟨(hfine.2 hlt).1, ?_⟩⟩
      rw [hstep.killed_other]
      · exact (hfine.2 hlt).2
      · rintro rfl
        exact absurd (hkill src n i₀ i hpc) hlt.ne
    · rename_i hpc
      rw [hpc] at hfine
      exact hfine
    · trivial
  cases hstep
  case kill => cases hactor
  all_goals
    obtain rfl := Option.some.inj hactor
    simp only [PipeSys.setPc_self, PipeSys.doze_self, PipeSys.leave_self, PipeSys.setProc_self]
  case acquireWrite => exact ⟨le_rfl, fun hlt => absurd hlt (Nat.lt_irrefl _)⟩
  case writeFull hp hi hopen hkilled hfull =>
    rintro (hroom | hclosed)
    · exact hroom hfull
    · cases hopen.symm.trans hclosed
  case writeByte hp hi hopen hkilled hroom hsrc =>
    exact ⟨(h.fine_at hp).1.trans (Nat.le_succ _), fun _ => ⟨hopen, hkilled⟩⟩
  case wake c k q hp hq =>
    cases k with
    | sleep on c' => exact (h.fine_at hp :)
    | _ => trivial
  case fallAsleep => exact h.fine _
  all_goals trivial

theorem calm_of_reachable {s : PipeSys} (h : Reachable (pipeMachine.restrict NoKillInWrite) s) :
    s.Locked ∧ Calm s := by
  refine Reachable.invariant (I := fun s => s.Locked ∧ Calm s) ?_ ?_ h
  · intro s (hs : s.Fresh)
    exact ⟨hs.locked, hs.calm⟩
  · rintro s l s' - ⟨hlocked, hcalm⟩ ⟨hkill, hstep⟩
    exact ⟨hlocked.step hstep, hcalm.owed_step hlocked hstep, hcalm.fine_step hlocked hstep hkill⟩

/-- **No wakeup is lost** in a run in which no process is killed after it has stored a byte in
`pipewrite` and before it gives up `pi->lock`: whenever the lock is free, nobody sleeps on
`&pi->nread` while there are bytes or no writer, and nobody on `&pi->nwrite` while there is room or no
reader. -/
theorem pipe_no_lost_wakeup {s : PipeSys} (h : Reachable (pipeMachine.restrict NoKillInWrite) s)
    (hfree : s.lock = none) (q : Fin NPROC) :
    ((s.proc q).rest = .sleeping .nread → s.pi.nread = s.pi.nwrite ∧ s.pi.writeopen = true) ∧
      ((s.proc q).rest = .sleeping .nwrite → s.pi.nwrite = s.pi.nread + UInt32.ofNat PIPESIZE ∧
        s.pi.readopen = true) := by
  obtain ⟨-, hcalm⟩ := calm_of_reachable h
  have hnot : ∀ chan, (s.proc q).rest = .sleeping chan → ¬ s.pi.Ready chan := by
    intro chan hq hready
    obtain ⟨p, hlock, -⟩ := hcalm.owed q chan (.inr hq) hready
    rw [hfree] at hlock
    cases hlock
  refine ⟨fun hq => ?_, fun hq => ?_⟩
  · obtain ⟨hempty, hopen⟩ := not_or.mp (hnot _ hq)
    exact ⟨not_not.mp hempty, Bool.eq_true_of_not_eq_false hopen⟩
  · obtain ⟨hfull, hopen⟩ := not_or.mp (hnot _ hq)
    exact ⟨not_not.mp hfull, Bool.eq_true_of_not_eq_false hopen⟩

/-- The first steps of a run in which process 0 reads from an empty pipe and goes to sleep. -/
theorem pipe_no_lost_wakeup_reader : ∃ s : PipeSys, (s.proc 0).rest = .sleeping .nread ∧
    s.pi.nread = s.pi.nwrite ∧ s.pi.writeopen = true := by
  have hstart : Reachable (pipeMachine.restrict NoKillInWrite) pipe0 := .start pipe0_fresh
  have hcall := hstart.go (.call 0 (.piperead (fun _ => true) 1)) trivial
    (PipeStep.call ⟨rfl, rfl⟩ trivial)
  have hlock := hcall.go (.go 0) trivial (PipeStep.acquireRead ⟨rfl, rfl⟩ rfl)
  have hdoze := hlock.go (.go 0) trivial (PipeStep.readSleep ⟨rfl, rfl⟩ rfl rfl rfl)
  have hsleep := hdoze.go (.go 0) trivial (PipeStep.fallAsleep rfl)
  exact ⟨_, rfl, (pipe_no_lost_wakeup hsleep rfl 0).1 rfl⟩

/-- Process 0 sleeps on an empty pipe. Process 1 is killed after it has stored the first of its two
bytes: it returns, and process 0 sleeps on although there is a byte for it. -/
theorem pipe_killed_writer_loses_wakeup : ∃ s, Reachable pipeMachine s ∧ s.lock = none ∧
    (s.proc 0).rest = .sleeping .nread ∧ s.pi.nread ≠ s.pi.nwrite := by
  have hstart : Reachable pipeMachine pipe0 := .start pipe0_fresh
  have hcall := hstart.next (PipeStep.call (p := 0) (c := .piperead (fun _ => true) 1) ⟨rfl, rfl⟩ trivial)
  have hlock := hcall.next (PipeStep.acquireRead (p := 0) ⟨rfl, rfl⟩ rfl)
  have hdoze := hlock.next (PipeStep.readSleep (p := 0) ⟨rfl, rfl⟩ rfl rfl rfl)
  have hsleep := hdoze.next (PipeStep.fallAsleep (p := 0) rfl)
  have hwrite := hsleep.next (PipeStep.call (p := 1) (c := .pipewrite (fun _ => some 7) 2 0)
    ⟨rfl, rfl⟩ rfl)
  have htaken := hwrite.next (PipeStep.acquireWrite (p := 1) ⟨rfl, rfl⟩ rfl)
  have hbyte := htaken.next (PipeStep.writeByte (p := 1) ⟨rfl, rfl⟩ (by decide) rfl rfl (by decide) rfl)
  have hkill := hbyte.next (PipeStep.kill (q := 1) fun _ => nofun)
  have hfail := hkill.next (PipeStep.writeFail (p := 1) ⟨rfl, rfl⟩ (by decide) (.inr rfl))
  have hreturn := hfail.next (PipeStep.failReturn (p := 1) ⟨rfl, rfl⟩)
  exact ⟨_, hreturn, rfl, rfl, by decide⟩

end Xv6
