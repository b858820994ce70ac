import Xv6.Proc.HartState

/-!
# The order of `tickslock` and the locks of the processes

`clockintr` calls `wakeup` with `tickslock` held, so `p->lock` is taken under `tickslock`;
`wakeup` calls `sys_uptime` for every sleeper it finds, so `tickslock` is taken under `p->lock`.
-/

namespace Xv6

open Machines Function

/-! ## What other CPUs notice of a step -/

def KLabel.hart : KLabel → Hart
  | .sleep c _ _ | .wakeup c _ | .woken c _ | .release c _ | .awake c _ _ | .tau c => c

/-- CPU `d` runs the same code in both states, at the same point. -/
structure SameCode (s s' : Kernel) (d : Hart) : Prop where
  irq : s'.irq d = s.irq d
  stack : s'.stack d = s.stack d
  thread : ∀ p, s.stack d = some p → s'.thread p = s.thread p

section Frame

variable {s s' : Kernel} {c d : Hart}

theorem SameCode.job (h : SameCode s s' d) : s'.job d = s.job d := by
  unfold Kernel.job
  rw [h.irq, h.stack]
  cases hs : s.stack d with
  | none => rfl
  | some p => simp only [h.thread p hs]

theorem SameCode.of_thread {p : Fin NPROC} {t : Thread} (hc : Ctl s) (hp : s.stack c = some p)
    (hdc : d ≠ c) (hirq : s'.irq = s.irq) (hstack : s'.stack d = s.stack d)
    (hthread : s'.thread = update s.thread p t) : SameCode s s' d := by
  refine ⟨by rw [hirq], hstack, fun q hq => ?_⟩
  have hqp : q ≠ p := by
    rintro rfl
    exact hdc (hc.unique d c q hq hp)
  rw [hthread, update_of_ne hqp]

theorem SameCode.of_out {p : Fin NPROC} {t : Thread} (hc : Ctl s)
    (hp : (s.thread p).mode.out = true) (hirq : s'.irq = s.irq) (hstack : s'.stack d = s.stack d)
    (hthread : s'.thread = update s.thread p t) : SameCode s s' d := by
  refine ⟨by rw [hirq], hstack, fun q hq => ?_⟩
  have hqp : q ≠ p := by
    rintro rfl
    exact hc.stack_ne hp d hq
  rw [hthread, update_of_ne hqp]

theorem SameCode.of_job {b b' : Job} (hc : Ctl s) (hb : s.job c = some b) (hdc : d ≠ c)
    (hirq : s'.irq = (s.setJob c b').irq) (hstack : s'.stack = s.stack)
    (hthread : s'.thread = (s.setJob c b').thread) : SameCode s s' d := by
  rcases Kernel.job_cases hb with hi | ⟨p, hp, -⟩
  · refine ⟨?_, by rw [hstack], fun q _ => ?_⟩
    · rw [hirq]
      simp only [Kernel.setJob, hi, update_of_ne hdc]
    · rw [hthread]
      simp only [Kernel.setJob, hi]
  · exact .of_thread hc hp.stack hdc (by rw [hirq, hp.setJob_irq]) (by rw [hstack])
      (by rw [hthread, hp.setJob_thread])

theorem SameCode.trans {s'' : Kernel} (h : SameCode s s' d) (h' : SameCode s' s'' d) :
    SameCode s s'' d where
  irq := h'.irq.trans h.irq
  stack := h'.stack.trans h.stack
  thread p hp := (h'.thread p (h.stack ▸ hp)).trans (h.thread p hp)

/-- The other CPUs go on as if nothing had happened. -/
theorem KStep.frame {l : KLabel} (h : HartInv s) (hstep : KStep s l s') (hd : d ≠ l.hart) :
    SameCode s s' d := by
  have hc := h.ctl
  have hsame : s'.irq = s.irq → s'.stack = s.stack → s'.thread = s.thread → SameCode s s' d :=
    fun hi hs ht => ⟨by rw [hi], by rw [hs], fun _ _ => by rw [ht]⟩
  cases hstep with
  | switch c i r hpc hctx =>
    exact .of_out hc (p := i) (by rw [hctx]; rfl) rfl (update_of_ne hd ..) rfl
  | leave c p r hp =>
    exact .of_thread hc hp.stack hd rfl (update_of_ne hd ..) rfl
  | allocFound c j hj hu =>
    have hout := h.tab.out_of_unused hu
    have hfresh : SameCode s ((s.setProc j { s.proc j with pid := s.nextpid, state := .USED }).setThread
        j { job := .at .idle, mode := .away .fork }) d := .of_out hc hout rfl rfl rfl
    exact hfresh.trans (.of_job (hc.fresh hout) ((hc.job_setOut hout).trans hj) hd rfl rfl rfl)
  | interrupt | endInterrupt => exact ⟨update_of_ne hd .., rfl, fun _ _ => rfl⟩
  | _ =>
    -- the scheduler, a process or a job of `c` goes on
    first
    | exact hsame rfl rfl rfl
    | exact .of_thread hc ‹s.InMode _ _ _›.stack hd rfl rfl rfl
    | exact .of_thread hc ‹s.Idle _ _›.stack hd rfl rfl rfl
    | exact .of_job hc ‹s.job _ = _› hd rfl rfl rfl
    | exact .of_job hc ‹s.Idle _ _›.job_eq hd rfl rfl rfl
    | exact .of_job hc ‹s.InMode _ _ _›.job_eq hd rfl rfl rfl

end Frame

/-! ## Who holds the other spin locks -/

def Job.MayHold (b : Job) (l : Spin) : Prop :=
  match b with
  | .at (.acq l') | .drop _ (.acq l') => l ≠ l'
  | .at (.relock _) | .drop _ (.relock _) => False
  | _ => True

def Thread.MayHold (t : Thread) (l : Spin) : Prop :=
  match t.mode with
  | .job => t.job.MayHold l
  | .want (.sleep _ l') | .own (.sleep _ l') | .want (.exit l') | .own (.exit l') | .zombie l' =>
    l = l'
  | _ => False

def Kernel.MayHold (s : Kernel) (c : Hart) (l : Spin) : Prop :=
  match s.irq c with
  | some b => b.MayHold l
  | none =>
    match s.stack c with
    | some p => (s.thread p).MayHold l
    | none => False

/-- Which of the other spin locks a CPU can hold where it is. -/
def SpinInv (s : Kernel) : Prop := ∀ c l, s.lock l = some c → s.MayHold c l

theorem spinInv_boot : SpinInv bootKernel := by
  intro c l h
  cases h

section Changes

variable {s s' : Kernel} {c d : Hart} {l : Spin} {b b' : Job} {p : Fin NPROC} {m : Mode}

theorem Kernel.mayHold_irq (hirq : s.irq c = some b) : s.MayHold c l ↔ b.MayHold l := by
  unfold Kernel.MayHold
  rw [hirq]

theorem Kernel.mayHold_proc (hirq : s.irq c = none) (hstack : s.stack c = some p) :
    s.MayHold c l ↔ (s.thread p).MayHold l := by
  unfold Kernel.MayHold
  rw [hirq, hstack]

theorem Kernel.InMode.mayHold (h : s.InMode c p m) :
    s.MayHold c l ↔ (⟨(s.thread p).job, m⟩ : Thread).MayHold l := by
  rw [Kernel.mayHold_proc h.irq h.stack, ← h.mode]

theorem Kernel.InMode.mayHold_moved {t : Thread} (h : s.InMode c p m) (hirq : s'.irq = s.irq)
    (hstack : s'.stack = s.stack) (hthread : s'.thread = update s.thread p t) (ht : t.MayHold l) :
    s'.MayHold c l := by
  rwa [Kernel.mayHold_proc (by rw [hirq, h.irq]) (by rw [hstack, h.stack]), hthread, update_self]

theorem Kernel.mayHold_job (hb : s.job c = some b) : s.MayHold c l ↔ b.MayHold l := by
  rcases Kernel.job_cases hb with hi | ⟨p, hp, hjob⟩
  · exact Kernel.mayHold_irq hi
  · rw [hp.mayHold, hjob]
    rfl

theorem Kernel.mayHold_setJob (b' : Job) (hb : s.job c = some b) (hb' : b'.MayHold l) :
    (s.setJob c b').MayHold c l := by
  rcases Kernel.job_cases hb with hi | ⟨p, hp, -⟩
  · refine (Kernel.mayHold_irq ?_).2 hb'
    simp only [Kernel.setJob, hi, update_self]
  · refine hp.mayHold_moved hp.setJob_irq rfl hp.setJob_thread ?_
    unfold Thread.MayHold
    simp only [hp.mode]
    exact hb'

theorem Kernel.InSched.not_mayHold {pc : Sched} (h : s.InSched c pc) : ¬ s.MayHold c l := by
  unfold Kernel.MayHold
  rw [h.irq, h.stack]
  exact id

theorem SameCode.mayHold (h : SameCode s s' d) : s'.MayHold d l ↔ s.MayHold d l := by
  unfold Kernel.MayHold
  rw [h.irq, h.stack]
  cases hs : s.stack d with
  | none => rfl
  | some p => simp only [h.thread p hs]

theorem lock_released {lock : Spin → Option Hart} {l' : Spin} (h : update lock l none l' = some c) :
    l' ≠ l ∧ lock l' = some c := by
  have hne : l' ≠ l := by
    rintro rfl
    rw [update_self] at h
    cases h
  rw [update_of_ne hne] at h
  exact ⟨hne, h⟩

theorem lock_acquired {lock : Spin → Option Hart} {l' : Spin} (hdc : d ≠ c)
    (h : update lock l (some c) l' = some d) : lock l' = some d := by
  have hne : l' ≠ l := by
    rintro rfl
    rw [update_self] at h
    exact hdc (Option.some.inj h).symm
  rwa [update_of_ne hne] at h

theorem KStep.lock_frame {a : KLabel} (hstep : KStep s a s') (hd : d ≠ a.hart)
    (hl : s'.lock l = some d) : s.lock l = some d := by
  cases hstep with
  | sleepRelease | exitRelease | release | tickRelease => exact (lock_released hl).2
  | sleepDone | acquire | tickAcquire => exact lock_acquired hd hl
  | _ => exact hl

end Changes

theorem SpinInv.step {s s' : Kernel} {a : KLabel} (h : SpinInv s) (hinv : HartInv s)
    (hstep : KStep s a s') : SpinInv s' := by
  intro d l hd
  by_cases hda : d = a.hart
  swap
  · exact (hstep.frame hinv hda).mayHold.2 (h d l (hstep.lock_frame hda hd))
  subst hda
  cases hstep with
  | scan c i hpc | wrap c hpc | pick c i hpc | pass c i hpc | switch c i r hpc | back c i hpc
  | rel c i hpc => exact absurd (h c l hd) hpc.not_mayHold
  | yield _ _ _ _ _ hfree | interrupt _ _ hfree | endInterrupt _ _ hfree =>
    exact absurd hd (hfree.lock l)
  | sleep c p chan l' hp hl | exit c p l' hp hl =>
    refine hp.mayHold_moved rfl rfl rfl ?_
    by_contra hne
    exact hl.only l hne hd
  | own c p r hp =>
    have hold := hp.mayHold.1 (h c l hd)
    refine hp.mayHold_moved rfl rfl rfl ?_
    cases r <;> exact hold
  | sleepRelease c p chan l' hp | exitRelease c p l' hp =>
    -- it can have held no other lock
    obtain ⟨hne, hold⟩ := lock_released hd
    exact absurd (hp.mayHold.1 (h c l hold)) hne
  | exitSet c p l' status hp => exact hp.mayHold_moved rfl rfl rfl (hp.mayHold.1 (h c l hd))
  | yieldSet c p hp | sleepSet c p chan l' hp | leave c p r hp | resume c p r hp
  | sleepTidy c p chan l' hp | sleepUnlock c p l' hp => exact (hp.mayHold.1 (h c l hd)).elim
  | sleepDone c p l' hp => exact Kernel.mayHold_setJob (.at .idle) hp.job_eq trivial
  | toAcquire c l' hj hl =>
    refine Kernel.mayHold_setJob _ hj fun heq => ?_
    exact hl (heq ▸ hd)
  | release c l' hj => exact h c l (lock_released hd).2
  | kill c p pid hp | fork c p hp | wait c p hp =>
    exact Kernel.mayHold_setJob _ hp.job_eq trivial
  | allocFound c j hj hu =>
    have hjob := (hinv.ctl.job_setOut (x := { s.proc j with pid := s.nextpid, state := .USED })
      (t := ⟨.at .idle, .away .fork⟩) (hinv.tab.out_of_unused hu)).trans hj
    exact Kernel.mayHold_setJob (.drop j (.want .start j)) hjob trivial
  | dropped c j pt hj =>
    have hold := (Kernel.mayHold_job hj).1 (h c l hd)
    refine Kernel.mayHold_setJob (.at pt) hj ?_
    cases pt <;> exact hold
  | tick => exact h 0 l hd
  | _ => exact Kernel.mayHold_setJob _ ‹s.job _ = _› trivial

theorem spinInv_of_reachable {s : Kernel} (h : Reachable kernelMachine s) : SpinInv s :=
  h.invariant (fun _ hinit => hinit ▸ spinInv_boot) fun _ _ _ hs hi hstep =>
    hi.step (hartInv_of_reachable hs) hstep

/-- The CPU is about to `swtch`, from its scheduler to process `p` or from `sched` back. -/
def Kernel.Switches (s : Kernel) (c : Hart) (p : Fin NPROC) : Prop :=
  s.InSched c (.switch p) ∨ ∃ r, s.InMode c p (.leaving r)

/-- **`swtch` is made with `p->lock` held and no other spin lock**, in both directions: to a process
that is `RUNNING` and whose context has been saved, and away from one that is not `RUNNING` any more.
So none of the checks in `sched` fails. -/
theorem swtch_holds_plock {s : Kernel} (h : Reachable kernelMachine s) {c : Hart} {p : Fin NPROC}
    (hsw : s.Switches c p) :
    (∀ j, s.plock j = some c ↔ j = p) ∧ (∀ l, s.lock l ≠ some c) ∧
      ((s.proc p).state = .RUNNING ↔ s.stack c = none) ∧ (s.stack c = none → s.saved p = true) := by
  have hi := hartInv_of_reachable h
  have honly (hentry : s.entry c = some p) (j : Fin NPROC) : s.plock j = some c ↔ j = p := by
    rw [hi.ctl.lock, hentry, Option.some.injEq, eq_comm]
  rcases hsw with hsched | ⟨r, hmode⟩
  · -- from the scheduler to a process it has made `RUNNING`
    obtain ⟨hrun, hout⟩ := hi.tab.switch c p hsched.sched
    refine ⟨honly hsched.entry, fun l hl => hsched.not_mayHold (spinInv_of_reachable h c l hl),
      iff_of_true hrun hsched.stack, fun _ => hi.tab.saved p hout ?_⟩
    rw [hrun]
    decide
  · -- from a process to the scheduler
    have hentry : s.entry c = some p := by
      rw [Kernel.entry_of_stack hmode.irq hmode.stack]
      simp [Thread.entry, hmode.mode, Mode.isOwn]
    have hstack : s.stack c ≠ none := by simp [hmode.stack]
    refine ⟨honly hentry, fun l hl => hmode.mayHold.1 (spinInv_of_reachable h c l hl),
      iff_of_false ?_ hstack, fun hnone => absurd hnone hstack⟩
    rw [show (s.proc p).state = r.left from (hi.tab.running hi.ctl hmode).1]
    cases r <;> simp [Away.left]

/-- CPU 1 is about to run the first process. -/
theorem swtch_holds_plock_init : ∃ s : Kernel, s.Switches 1 initproc ∧
    (∀ j, s.plock j = some 1 ↔ j = initproc) ∧ s.saved initproc = true := by
  have h : Reachable kernelMachine bootKernel := .start rfl
  have h := h.next (KStep.scan 1 initproc ⟨rfl, rfl, rfl⟩ rfl)
  have h := h.next (KStep.pick 1 initproc ⟨rfl, rfl, rfl⟩ rfl)
  have hpost := swtch_holds_plock h (c := 1) (p := initproc) (.inl ⟨rfl, rfl, rfl⟩)
  exact ⟨_, .inl ⟨rfl, rfl, rfl⟩, hpost.1, hpost.2.2.2 rfl⟩

/-! ## The order of the locks -/

inductive Lock where
  | proc (i : Fin NPROC)
  | spin (l : Spin)
  deriving DecidableEq, Repr

def Lock.tick : Lock := .spin .tick

namespace Kernel

def Held (s : Kernel) (c : Hart) : Lock → Prop
  | .proc i => s.plock i = some c
  | .spin l => s.lock l = some c

/-- The next thing the CPU does is `acquire` of that lock. -/
def Waits (s : Kernel) (c : Hart) : Lock → Prop
  | .proc i => s.InSched c (.scan i) ∨ (∃ r, s.InMode c i (.want r)) ∨
      ∃ v, s.job c = some (.at (.want v i)) ∧ ∀ chan, v = .wakeup chan → s.cproc c ≠ some i
  | .spin l => s.job c = some (.at (.acq l)) ∨ s.job c = some (.at (.relock l)) ∨
      l = .tick ∧ ∃ chan j, s.job c = some (.wantTick chan j)

end Kernel

/-- Some CPU comes to wait for `B` with `A` in its hands, both among `tickslock` and the locks of
the processes. -/
structure TakenUnder (m : Machine Kernel KLabel) (A B : Lock) : Prop where
  left : A = .tick ∨ ∃ i, A = .proc i
  right : B = .tick ∨ ∃ i, B = .proc i
  run : ∃ s c, Reachable m s ∧ s.Held c A ∧ s.Waits c B

/-- `wakeup` finds nobody asleep on its channel. -/
def NoneWoken (_ : Kernel) : KLabel → Prop
  | .woken _ _ => False
  | _ => True

/-- The job is inside `sys_uptime`, called by `wakeup`. -/
def Job.ticks : Job → Bool
  | .wantTick _ _ | .holdTick _ _ => true
  | _ => false

structure NoTicks (s : Kernel) : Prop where
  thread : ∀ p, (s.thread p).job.ticks = false
  irq : ∀ c b, s.irq c = some b → b.ticks = false

section Order

variable {s s' : Kernel} {c : Hart}

theorem NoTicks.of_job {b : Job} (h : NoTicks s) (hb : s.job c = some b) : b.ticks = false := by
  rcases Kernel.job_cases hb with hi | ⟨p, -, hjob⟩
  · exact h.irq c b hi
  · exact hjob ▸ h.thread p

theorem NoTicks.same (h : NoTicks s) (hthread : ∀ p, (s'.thread p).job = (s.thread p).job)
    (hirq : s'.irq = s.irq) : NoTicks s' :=
  ⟨fun p => by rw [hthread]; exact h.thread p, by rw [hirq]; exact h.irq⟩

theorem NoTicks.jobMove {b : Job} (b' : Job) (h : NoTicks s) (hb : s.job c = some b)
    (hthread : s'.thread = (s.setJob c b').thread) (hirq : s'.irq = (s.setJob c b').irq)
    (hb' : b'.ticks = false) : NoTicks s' := by
  refine ⟨fun p => ?_, fun d x hx => ?_⟩
  · rw [hthread]
    rcases Kernel.setJob_job (x := b') hb p with hsame | ⟨-, -, hnew⟩
    · rw [hsame]
      exact h.thread p
    · rw [hnew]
      exact hb'
  · rw [hirq] at hx
    rcases Kernel.job_cases hb with hi | ⟨q, hq, -⟩
    · simp only [Kernel.setJob, hi] at hx
      by_cases hdc : d = c
      · rw [hdc, update_self] at hx
        cases hx
        exact hb'
      · rw [update_of_ne hdc] at hx
        exact h.irq d x hx
    · rw [hq.setJob_irq] at hx
      exact h.irq d x hx

theorem NoTicks.setThread {p : Fin NPROC} {t : Thread} (h : NoTicks s)
    (hthread : s'.thread = update s.thread p t) (hirq : s'.irq = s.irq)
    (ht : t.job.ticks = false) : NoTicks s' := by
  refine ⟨fun q => ?_, by rw [hirq]; exact h.irq⟩
  rw [hthread]
  by_cases hqp : q = p
  · rw [hqp, update_self]
    exact ht
  · rw [update_of_ne hqp]
    exact h.thread q

theorem NoTicks.setIrq {o : Option Job} (h : NoTicks s) (ho : ∀ b, o = some b → b.ticks = false) :
    NoTicks { s with irq := update s.irq c o } := by
  refine ⟨h.thread, fun d b hb => ?_⟩
  dsimp only at hb
  by_cases hdc : d = c
  · rw [hdc, update_self] at hb
    exact ho b hb
  · rw [update_of_ne hdc] at hb
    exact h.irq d b hb

theorem NoTicks.step {l : KLabel} (h : NoTicks s) (hc : Ctl s) (ht : Tab s) (hl : NoneWoken s l)
    (hstep : KStep s l s') : NoTicks s' := by
  cases hstep with
  | switch | yield | sleep | exit | own | yieldSet | sleepRelease | sleepSet | exitSet | exitRelease
  | leave | resume | sleepTidy => exact h.same job_update rfl
  | sleepUnlock c p l hp => exact h.setThread rfl rfl rfl
  | sleepDone c p l hp hjob _ => exact h.jobMove (.at .idle) hp.job_eq rfl rfl rfl
  | toAcquire _ _ hj | wakeup _ _ hj | finish _ _ hj | skipSelf _ _ _ hj | skipOther _ _ hj
  | notWoken _ _ _ hj | notKilled _ _ _ hj | allocUsed _ _ hj | waitOther _ _ hj
  | waitFail _ _ hj => exact h.jobMove _ hj rfl rfl rfl
  | acquire c l hj _ => exact h.jobMove (.at .idle) hj rfl rfl rfl
  | kill _ _ _ hp | fork _ _ hp | wait _ _ hp => exact h.jobMove _ hp.job_eq rfl rfl rfl
  | visit c v j hj _ hfree => exact h.jobMove (.hold v j) hj rfl rfl rfl
  -- the only step into `sys_uptime`
  | woken c chan j hj hsleep => exact hl.elim
  | tickAcquire _ _ _ hj | tickRelease _ _ _ hj => cases h.of_job hj
  | killed _ _ j hj | allocFail _ j hj | started _ j hj | reaped _ j hj =>
    exact h.jobMove (.drop j .idle) hj rfl rfl rfl
  | cleared c j hj => exact h.jobMove (.at (.want .alloc (j + 1))) hj rfl rfl rfl
  | allocFound c j hj hu =>
    have hout := ht.out_of_unused hu
    have hfresh : NoTicks ((s.setProc j { s.proc j with pid := s.nextpid, state := .USED }).setThread
        j { job := .at .idle, mode := .away .fork }) := h.setThread rfl rfl rfl
    exact hfresh.jobMove (.drop j (.want .start j)) ((hc.job_setOut hout).trans hj) rfl rfl rfl
  | dropped c j pt hj => exact h.jobMove (.at pt) hj rfl rfl rfl
  | interrupt c hi hfree => exact h.setIrq (o := some (.at .idle)) (by rintro b ⟨⟩; rfl)
  | endInterrupt c hi hfree => exact h.setIrq (o := none) (by simp)
  | _ => exact h.same (fun _ => rfl) rfl

theorem noTicks_of_reachable (h : Reachable (kernelMachine.restrict NoneWoken) s) : NoTicks s := by
  refine h.invariant (fun _ hinit => hinit ▸ ⟨fun _ => rfl, by simp [bootKernel]⟩)
    fun _ _ _ hs hi hstep => ?_
  have hinv := hartInv_of_reachable hs.of_restrict
  exact hi.step hinv.ctl hinv.tab hstep.1 hstep.2

theorem Ctl.waits_proc {i j : Fin NPROC} (h : Ctl s) (hw : s.Waits c (.proc i)) :
    ¬ s.Held c (.proc j) := by
  intro hheld
  have hentry := (h.lock c j).mp hheld
  rcases hw with hsched | ⟨r, hmode⟩ | ⟨v, hjob, -⟩
  · rw [hsched.entry] at hentry
    cases hentry
  · rw [Kernel.entry_of_stack hmode.irq hmode.stack] at hentry
    simp [Thread.entry, hmode.mode, Mode.isOwn] at hentry
  · rw [Kernel.entry_of_job hjob] at hentry
    cases hentry

/-- Only `wakeup` waits for another lock with the lock of a process in its hands. -/
theorem NoTicks.waits_spin {l : Spin} {j : Fin NPROC} (h : NoTicks s) (hc : Ctl s)
    (hw : s.Waits c (.spin l)) : ¬ s.Held c (.proc j) := by
  intro hheld
  have hentry := (hc.lock c j).mp hheld
  rcases hw with hjob | hjob | ⟨-, chan, k, hjob⟩
  · rw [Kernel.entry_of_job hjob] at hentry
    cases hentry
  · rw [Kernel.entry_of_job hjob] at hentry
    cases hentry
  · cases h.of_job hjob

theorem SpinInv.waits_held {l : Spin} (h : SpinInv s) (hn : NoTicks s)
    (hw : s.Waits c (.spin l)) : ¬ s.Held c (.spin l) := by
  intro hheld
  rcases hw with hjob | hjob | ⟨-, chan, k, hjob⟩
  · exact (Kernel.mayHold_job hjob).1 (h c l hheld) rfl
  · exact (Kernel.mayHold_job hjob).1 (h c l hheld)
  · cases hn.of_job hjob

/-- Process 1 sleeps, and CPU 0, in `clockintr`, comes to it in its `wakeup(&ticks)` when CPU 1 has
found it in another `wakeup`. -/
theorem reachable_crossed :
    ∃ s, Reachable kernelMachine s ∧
      s.Held 0 .tick ∧ s.Waits 0 (.proc 1) ∧ s.Held 1 (.proc 1) ∧ s.Waits 1 .tick := by
  -- the first process forks on CPU 1
  have h := reachable_initRunning
  have h := h.next (KStep.fork 1 initproc ⟨⟨rfl, rfl, rfl⟩, rfl⟩)
  have h := h.next (KStep.visit 1 .alloc 0 rfl (by simp) rfl)
  have h := h.next (KStep.allocUsed 1 0 rfl (by decide))
  have h := h.next (KStep.dropped 1 0 _ rfl)
  have h := h.next (KStep.cleared 1 0 rfl)
  have h := h.next (KStep.visit 1 .alloc 1 rfl (by simp) rfl)
  have h := h.next (KStep.allocFound 1 1 rfl rfl)
  have h := h.next (KStep.dropped 1 1 _ rfl)
  have h := h.next (KStep.visit 1 .start 1 rfl (by simp) rfl)
  have h := h.next (KStep.started 1 1 rfl)
  have h := h.next (KStep.dropped 1 1 _ rfl)
  -- the child runs on CPU 2 and goes to sleep
  have h := h.next (KStep.scan 2 0 ⟨rfl, rfl, rfl⟩ rfl)
  have h := h.next (KStep.pass 2 0 ⟨rfl, rfl, rfl⟩ (by decide))
  have h := h.next (KStep.rel 2 0 ⟨rfl, rfl, rfl⟩)
  have h := h.next (KStep.scan 2 1 ⟨rfl, rfl, rfl⟩ rfl)
  have h := h.next (KStep.pick 2 1 ⟨rfl, rfl, rfl⟩ rfl)
  have h := h.next (KStep.switch 2 1 .fork ⟨rfl, rfl, rfl⟩ rfl)
  have h := h.next (KStep.resume 2 1 .fork ⟨rfl, rfl, rfl⟩ (.inr rfl))
  have h := h.next (KStep.toAcquire 2 (.other 0) rfl (by decide))
  have h := h.next (KStep.acquire 2 (.other 0) rfl rfl)
  have h := h.next (KStep.sleep 2 1 (.other 7) (.other 0) ⟨⟨rfl, rfl, rfl⟩, rfl⟩
    ⟨rfl, fun l hl heq => by cases (update_of_ne hl _ _).symm.trans heq⟩)
  have h := h.next (KStep.own 2 1 _ ⟨rfl, rfl, rfl⟩ rfl)
  have h := h.next (KStep.sleepRelease 2 1 (.other 7) (.other 0) ⟨rfl, rfl, rfl⟩)
  have h := h.next (KStep.sleepSet 2 1 (.other 7) (.other 0) ⟨rfl, rfl, rfl⟩)
  have h := h.next (KStep.leave 2 1 _ ⟨rfl, rfl, rfl⟩)
  have h := h.next (KStep.back 2 1 ⟨rfl, rfl, rfl⟩)
  have h := h.next (KStep.rel 2 1 ⟨rfl, rfl, rfl⟩)
  -- CPU 0 takes a clock interrupt
  have h := h.next (KStep.interrupt 0 rfl ⟨fun l heq => (by
    by_cases hl : l = .other 0
    · subst hl
      cases heq
    · have hlast := (update_of_ne hl _ _).symm.trans heq
      cases (update_of_ne hl _ _).symm.trans hlast), by decide⟩)
  have h := h.next (KStep.toAcquire 0 .tick rfl (by decide))
  have h := h.next (KStep.acquire 0 .tick rfl rfl)
  have h := h.next (KStep.tick rfl rfl)
  have h := h.next (KStep.wakeup 0 .ticks rfl)
  have h := h.next (KStep.visit 0 (.wakeup .ticks) 0 rfl (fun _ _ => by decide) rfl)
  have h := h.next (KStep.notWoken 0 .ticks 0 rfl (by decide))
  have h := h.next (KStep.dropped 0 0 _ rfl)
  -- the first process wakes its child up
  have h := h.next (KStep.wakeup 1 (.other 7) rfl)
  have h := h.next (KStep.skipSelf 1 (.other 7) 0 rfl rfl)
  have h := h.next (KStep.visit 1 (.wakeup (.other 7)) 1 rfl (fun _ _ => by decide) rfl)
  have h := h.next (KStep.woken 1 (.other 7) 1 rfl ⟨rfl, rfl⟩)
  exact ⟨_, h, rfl, .inr (.inr ⟨.wakeup .ticks, rfl, fun _ _ => by decide⟩), rfl,
    .inr (.inr ⟨rfl, .other 7, 1, rfl⟩)⟩

/-- **Nobody waits for a `p->lock` with a `p->lock` in hand**, so these locks alone cannot deadlock.
Every loop over the process table releases the lock of an entry before it takes the next, and
`sched` is entered with the caller's own lock only. -/
theorem plocks_not_nested (h : Reachable kernelMachine s) {i j : Fin NPROC}
    (hw : s.Waits c (.proc i)) : s.plock j ≠ some c :=
  (hartInv_of_reachable h).ctl.waits_proc hw

/-- CPU 0 waits for the lock of process 1, which CPU 1 holds, and has none itself. -/
theorem plocks_not_nested_crossed :
    ∃ s : Kernel, s.plock 1 = some 1 ∧ s.Waits 0 (.proc 1) ∧ ∀ j, s.plock j ≠ some 0 := by
  obtain ⟨s, hs, -, hwaits, hheld, -⟩ := reachable_crossed
  exact ⟨s, hheld, hwaits, fun j => plocks_not_nested hs hwaits⟩

end Order

/-- **The order of `tickslock` and the locks of the processes.** In the runs in which no `wakeup`
finds a process asleep on its channel, no CPU waits for a `p->lock` with `tickslock` held while
the holder of that `p->lock` waits for `tickslock`, and the relation "is taken under" between
these locks has no cycle. -/
theorem tick_lock_order (A : Lock) :
    (∀ s, Reachable (kernelMachine.restrict NoneWoken) s → ∀ c d i,
      ¬ (s.Held c .tick ∧ s.Waits c (.proc i) ∧ s.Held d (.proc i) ∧ s.Waits d .tick)) ∧
    ¬ Relation.TransGen (TakenUnder (kernelMachine.restrict NoneWoken)) A A := by
  have hproc : ∀ {i B}, ¬ TakenUnder (kernelMachine.restrict NoneWoken) (.proc i) B := by
    rintro i B ⟨-, hB, s, c, hs, hheld, hwaits⟩
    have hctl := (hartInv_of_reachable hs.of_restrict).ctl
    rcases hB with rfl | ⟨j, rfl⟩
    · exact (noTicks_of_reachable hs).waits_spin hctl hwaits hheld
    · exact hctl.waits_proc hwaits hheld
  refine ⟨fun s hs c d i ⟨_, _, hheld, hwaits⟩ => ?_, fun hA => ?_⟩
  · exact hproc ⟨.inr ⟨i, rfl⟩, .inl rfl, s, d, hs, hheld, hwaits⟩
  · -- a cycle would leave `tickslock` for itself or for a lock that nothing is taken under
    obtain ⟨B, hAB, hBA⟩ := Relation.TransGen.head'_iff.mp hA
    rcases hAB.left with rfl | ⟨i, rfl⟩
    · rcases hAB.right with rfl | ⟨j, rfl⟩
      · obtain ⟨-, -, s, c, hs, hheld, hwaits⟩ := hAB
        exact (spinInv_of_reachable hs.of_restrict).waits_held (noTicks_of_reachable hs) hwaits hheld
      · rcases Relation.ReflTransGen.cases_head hBA with heq | ⟨D, hD, -⟩
        · cases heq
        · exact hproc hD
    · exact hproc hAB

/-- CPU 0 in `clockintr` and CPU 1 in `wakeup` wait for each other. -/
theorem tick_lock_deadlock :
    ∃ s, Reachable kernelMachine s ∧ ∃ c d i,
      s.Held c .tick ∧ s.Waits c (.proc i) ∧ s.Held d (.proc i) ∧ s.Waits d .tick := by
  obtain ⟨s, hs, hcross⟩ := reachable_crossed
  exact ⟨s, hs, 0, 1, 1, hcross⟩

end Xv6
