import Xv6.Proc.Order

/-!
# `sleep` and `wakeup`

A condition that is tested and made true with `lk` held, as the callers of `sleep(chan, lk)` and
`wakeup(chan)` do. The invariant: with the condition true, whoever sleeps or is about to is still ahead
of the `wakeup` of the CPU that holds `lk`.
-/

namespace Xv6

open Machines Function

/-! ## Locks stay where they are -/

/-- The lock that the process holds, besides its own, on its way into `sched`. -/
def Mode.keeps : Mode → Option Spin
  | .want (.sleep _ l) | .own (.sleep _ l) | .want (.exit l) | .own (.exit l) | .zombie l => some l
  | _ => none

/-- A CPU gives up only locks it holds, and takes only locks that are free, so a lock stays with a
CPU through the steps of the others. -/
structure KeepInv (s : Kernel) : Prop where
  mode : ∀ c p l, s.stack c = some p → (s.thread p).mode.keeps = some l →
    s.irq c = none ∧ s.lock l = some c
  tick : ∀ c chan j, s.job c = some (.holdTick chan j) → s.lock .tick = some c

theorem keepInv_boot : KeepInv bootKernel where
  mode c p l h := by cases h
  tick c chan j h := by cases h

section Keep

variable {s s' : Kernel} {c d : Hart}

variable {a : KLabel}

theorem KStep.lock_keep {l : Spin} (h : KeepInv s) (hstep : KStep s a s') (ha : a ≠ .release d l)
    (hl : s.lock l = some d) : s'.lock l = some d := by
  -- a lock that the step takes was free, one that it gives up was in the hands of its CPU
  have htake : ∀ {l' : Spin} {c : Hart}, s.lock l' = none →
      update s.lock l' (some c) l = some d := by
    intro l' c hfree
    have hne : l ≠ l' := by
      rintro rfl
      rw [hfree] at hl
      cases hl
    rw [update_of_ne hne]
    exact hl
  have hgive : ∀ {l' : Spin} {c : Hart}, a = .release c l' → s.lock l' = some c →
      update s.lock l' none l = some d := by
    intro l' c hlabel hheld
    have hne : l ≠ l' := by
      rintro rfl
      rw [hheld] at hl
      cases hl
      exact ha hlabel
    rw [update_of_ne hne]
    exact hl
  cases hstep with
  | sleepRelease c p _ l' hp | exitRelease c p l' hp =>
    exact hgive rfl (h.mode c p l' hp.stack (by rw [hp.mode]; rfl)).2
  | sleepDone _ _ _ _ _ hfree | acquire _ _ _ hfree | tickAcquire _ _ _ _ hfree => exact htake hfree
  | release c l' _ hheld => exact hgive rfl hheld
  | tickRelease c chan j hj => exact hgive rfl (h.tick c chan j hj)
  | _ => exact hl

theorem Kernel.job_setJob {b : Job} (b' : Job) (hb : s.job c = some b)
    (hirq : s'.irq = (s.setJob c b').irq) (hthread : s'.thread = (s.setJob c b').thread)
    (hstack : s'.stack = s.stack) : s'.job c = some b' := by
  rcases Kernel.job_cases hb with hi | ⟨p, hp, -⟩
  · have hself : s'.irq c = some b' := by
      rw [hirq]
      simp only [Kernel.setJob, hi, update_self]
    unfold Kernel.job
    rw [hself]
  · have hself : s'.thread p = { s.thread p with job := b' } := by
      rw [hthread, hp.setJob_thread, update_self]
    unfold Kernel.job
    rw [hirq, hp.setJob_irq, hp.irq, hstack, hp.stack]
    simp [hself, hp.mode]

variable {p : Fin NPROC}

theorem KeepInv.keeps_none {b : Job} (h : KeepInv s) (hb : s.job c = some b)
    (hp : s.stack c = some p) : (s.thread p).mode.keeps = none := by
  rcases Kernel.job_cases hb with hi | ⟨q, hq, -⟩
  · cases hk : (s.thread p).mode.keeps with
    | none => rfl
    | some l =>
      rw [(h.mode c p l hp hk).1] at hi
      cases hi
  · rw [hq.stack] at hp
    cases hp
    rw [hq.mode]
    rfl

theorem KeepInv.of_self (h : KeepInv s) (hi : HartInv s) (hstep : KStep s a s')
    (hmode : ∀ p l, s'.stack a.hart = some p → (s'.thread p).mode.keeps = some l →
      s'.irq a.hart = none ∧ s'.lock l = some a.hart)
    (htick : ∀ chan j, s'.job a.hart = some (.holdTick chan j) → s'.lock .tick = some a.hart) :
    KeepInv s' := by
  have hother : ∀ {d : Hart} {l : Spin}, d ≠ a.hart → a ≠ .release d l := by
    rintro d l hd rfl
    exact hd rfl
  refine ⟨fun d p l hp hl => ?_, fun d chan j hj => ?_⟩
  · -- the other CPUs stay where they are and keep their locks
    by_cases hd : d = a.hart
    · rw [hd] at hp ⊢
      exact hmode p l hp hl
    · have hframe := hstep.frame hi hd
      rw [hframe.stack] at hp
      rw [hframe.thread p hp] at hl
      obtain ⟨hirq, hlock⟩ := h.mode d p l hp hl
      exact ⟨hframe.irq.trans hirq, hstep.lock_keep h (hother hd) hlock⟩
  · by_cases hd : d = a.hart
    · rw [hd] at hj ⊢
      exact htick chan j hj
    · rw [(hstep.frame hi hd).job] at hj
      exact hstep.lock_keep h (hother hd) (h.tick d chan j hj)

theorem KeepInv.jobMove {b : Job} (b' : Job) (h : KeepInv s) (hi : HartInv s) (hstep : KStep s a s')
    (hb : s.job a.hart = some b) (hirq : s'.irq = (s.setJob a.hart b').irq)
    (hthread : s'.thread = (s.setJob a.hart b').thread) (hstack : s'.stack = s.stack)
    (htick : ∀ chan j, b' = .holdTick chan j → s'.lock .tick = some a.hart) : KeepInv s' := by
  refine h.of_self hi hstep (fun p l hp hl => ?_) fun chan j hj => ?_
  · rw [hstack] at hp
    rw [hthread, (Kernel.setJob_place hb p).mode, h.keeps_none hb hp] at hl
    cases hl
  · rw [Kernel.job_setJob b' hb hirq hthread hstack] at hj
    exact htick chan j (Option.some.inj hj)

theorem KeepInv.threadMove {t : Thread} (h : KeepInv s) (hi : HartInv s) (hstep : KStep s a s')
    (hp : s.stack a.hart = some p) (hirq : s.irq a.hart = none) (hirq' : s'.irq = s.irq)
    (hstack' : s'.stack = s.stack) (hthread : s'.thread = update s.thread p t)
    (hjob : t.job.entry = none) (hkeeps : ∀ l, t.mode.keeps = some l → s'.lock l = some a.hart) :
    KeepInv s' := by
  have hself : s'.thread p = t := by rw [hthread, update_self]
  refine h.of_self hi hstep (fun q l hq hl => ?_) fun chan j hj => ?_
  · rw [hstack', hp] at hq
    cases hq
    rw [hself] at hl
    exact ⟨by rw [hirq', hirq], hkeeps l hl⟩
  · rcases Kernel.job_cases hj with hirqj | ⟨q, hq, hqjob⟩
    · rw [hirq', hirq] at hirqj
      cases hirqj
    · have := hq.stack
      rw [hstack', hp] at this
      cases this
      rw [hself] at hqjob
      rw [hqjob] at hjob
      cases hjob

theorem KeepInv.modeMove {m m' : Mode} (h : KeepInv s) (hi : HartInv s) (hstep : KStep s a s')
    (hp : s.InMode a.hart p m) (hm : m ≠ .job) (hirq' : s'.irq = s.irq)
    (hstack' : s'.stack = s.stack)
    (hthread : s'.thread = update s.thread p { s.thread p with mode := m' })
    (hm' : m'.keeps = none) : KeepInv s' :=
  h.threadMove hi hstep hp.stack hp.irq hirq' hstack' hthread
    (hi.tab.point p (by rw [hp.mode]; exact hm)) (by simp [hm'])

theorem KeepInv.schedMove (h : KeepInv s) (hi : HartInv s) (hstep : KStep s a s')
    (hirq : s'.irq a.hart = none) (hstack : s'.stack a.hart = none) : KeepInv s' := by
  refine h.of_self hi hstep (fun q l hq _ => ?_) fun chan j hj => ?_
  · rw [hstack] at hq
    cases hq
  · rcases Kernel.job_cases hj with hirqj | ⟨q, hq, -⟩
    · rw [hirq] at hirqj
      cases hirqj
    · have := hq.stack
      rw [hstack] at this
      cases this

end Keep

variable {a : KLabel}

theorem KeepInv.step {s s' : Kernel} (h : KeepInv s) (hi : HartInv s) (hstep : KStep s a s') :
    KeepInv s' := by
  have hstep' := hstep
  cases hstep with
  | switch c i r hpc hctx =>
    refine h.of_self hi hstep' (fun q l hq hl => ?_) fun chan j hj => ?_
    · cases (update_self (f := s.stack) ..).symm.trans hq
      simp [Kernel.setMode, Kernel.setThread, Kernel.setSched, Mode.keeps] at hl
    · simp [Kernel.job, Kernel.setMode, Kernel.setThread, Kernel.setSched, KLabel.hart, hpc.irq]
        at hj
  | yield c p pt hp hpt _ =>
    exact h.threadMove hi hstep' hp.stack hp.irq rfl rfl rfl (by rw [hpt]; rfl) (by simp [Mode.keeps])
  | sleep _ _ _ _ hp hl | exit _ _ _ hp hl =>
    refine h.threadMove hi hstep' hp.stack hp.irq rfl rfl rfl (by rw [hp.job]; rfl) fun l' hl' => ?_
    cases hl'
    exact hl.held
  | own c p r hp _ =>
    refine h.threadMove hi hstep' hp.stack hp.irq rfl rfl rfl
      (hi.tab.point p (by rw [hp.mode]; simp)) fun l' hl' => ?_
    refine (h.mode c p l' hp.stack ?_).2
    rw [hp.mode]
    cases r <;> exact hl'
  | exitSet c p l status hp =>
    refine h.threadMove hi hstep' hp.stack hp.irq rfl rfl rfl
      (hi.tab.point p (by rw [hp.mode]; simp)) fun l' hl' => ?_
    refine (h.mode c p l' hp.stack ?_).2
    rw [hp.mode]
    exact hl'
  | leave c p r hp => exact h.schedMove hi hstep' hp.irq (update_self ..)
  | sleepUnlock c p l hp =>
    exact h.threadMove hi hstep' hp.stack hp.irq rfl rfl rfl rfl (by simp [Mode.keeps])
  | sleepDone c p l hp _ _ =>
    exact h.jobMove (.at .idle) hi hstep' hp.job_eq rfl rfl rfl (by simp)
  | acquire c l hj _ => exact h.jobMove (.at .idle) hi hstep' hj rfl rfl rfl (by simp)
  | release c l hj _ =>
    refine h.of_self hi hstep' (fun p l' hp hl => ?_) fun chan j hj' => ?_
    · rw [show (s.setLock l none).thread p = s.thread p from rfl, h.keeps_none hj hp] at hl
      cases hl
    · cases hj.symm.trans hj'
  | visit c v j hj _ _ => exact h.jobMove (.hold v j) hi hstep' hj rfl rfl rfl (by simp)
  | woken c chan j hj _ => exact h.jobMove (.wantTick chan j) hi hstep' hj rfl rfl rfl (by simp)
  | tickAcquire c chan j hj _ =>
    exact h.jobMove (.holdTick chan j) hi hstep' hj rfl rfl rfl fun _ _ _ => by
      simp only [Kernel.setJob, Kernel.setLock, update_self, KLabel.hart]
  | tickRelease c chan j hj =>
    exact h.jobMove (.drop j (.want (.wakeup chan) (j + 1))) hi hstep' hj rfl rfl rfl (by simp)
  | killed _ _ j hj | allocFail _ j hj | started _ j hj | reaped _ j hj =>
    exact h.jobMove (.drop j .idle) hi hstep' hj rfl rfl rfl (by simp)
  | cleared c j hj =>
    exact h.jobMove (.at (.want .alloc (j + 1))) hi hstep' hj rfl rfl rfl (by simp)
  | allocFound c j hj hu =>
    have hout := hi.tab.out_of_unused hu
    have hj' := (hi.ctl.job_setOut (x := { s.proc j with pid := s.nextpid, state := .USED })
      (t := { job := .at .idle, mode := .away .fork }) hout).trans hj
    refine h.of_self hi hstep' (fun p l hp hl => ?_) fun chan i hi' => ?_
    · have hpj : p ≠ j := by
        rintro rfl
        exact hi.ctl.stack_ne hout _ hp
      have hmode := (Kernel.setJob_place (x := .drop j (.want .start j)) hj' p).mode
      rw [show ((s.setProc j _).setThread j _).thread p = s.thread p from
        update_of_ne hpj ..] at hmode
      rw [show (KLabel.tau c).hart = c from rfl] at hp
      cases ((congrArg Mode.keeps hmode).trans (h.keeps_none hj hp)).symm.trans hl
    · cases (Kernel.job_setJob _ hj' rfl rfl rfl).symm.trans hi'
  | dropped c j pt hj => exact h.jobMove (.at pt) hi hstep' hj rfl rfl rfl (by simp)
  | interrupt c _ hfree =>
    refine h.of_self hi hstep' (fun p l hp hl => ?_) fun chan j hj => ?_
    · exact absurd (h.mode c p l hp hl).2 (hfree.lock l)
    · simp [Kernel.job, KLabel.hart] at hj
  | tick _ _ => exact ⟨h.mode, h.tick⟩
  | endInterrupt c hirq hfree =>
    refine h.of_self hi hstep' (fun p l hp hl => ?_) fun chan j hj => ?_
    · exact absurd (h.mode c p l hp hl).2 (hfree.lock l)
    · -- the process that the interrupt came upon holds no lock of an entry
      rcases Kernel.job_cases hj with hirqj | ⟨p, hp, hpjob⟩
      · cases (update_self (f := s.irq) ..).symm.trans hirqj
      · have hstack : s.stack c = some p := hp.stack
        have hmode : (s.thread p).mode = .job := hp.mode
        have hjob : (s.thread p).job = .holdTick chan j := hpjob
        have hbase := hi.ctl.irq c (by rw [hirq]; simp)
        unfold Kernel.base at hbase
        rw [hstack] at hbase
        simp [Thread.entry, hmode, hjob, Job.entry] at hbase
  | _ => first
    | exact h.schedMove hi hstep' ‹s.InSched _ _›.irq ‹s.InSched _ _›.stack
    | have hp := ‹s.InMode _ _ _›
      exact h.modeMove hi hstep' hp (by simp) rfl rfl rfl rfl
    | have hj := ‹s.job _ = some _›
      exact h.jobMove _ hi hstep' hj rfl rfl rfl (by simp)
    | have hp := ‹s.Idle _ _›
      exact h.jobMove _ hi hstep' hp.job_eq rfl rfl rfl (by simp)

theorem keepInv_of_reachable {s : Kernel} (h : Reachable kernelMachine s) : KeepInv s :=
  h.invariant (fun _ hinit => hinit ▸ keepInv_boot) fun _ _ _ hs hk hstep =>
    hk.step (hartInv_of_reachable hs) hstep

/-! ## On the way to sleep -/

/-- How a step takes a process from one mode to another. -/
inductive Mode.Next (a : KLabel) : Mode → Mode → Prop where
  | stay (m : Mode) : Next a m m
  | call (r : Away) (h : ∀ chan l, r = .sleep chan l → ∃ c, a = .sleep c chan l) :
      Next a .job (.want r)
  | own (r : Away) : Next a (.want r) (.own r)
  | doze (chan : Chan) (l : Spin) : Next a (.own (.sleep chan l)) (.dozed chan l)
  | exit (l : Spin) : Next a (.own (.exit l)) (.zombie l)
  | sched (m : Mode) (r : Away) : Next a m (.leaving r)
  | leave (r : Away) : Next a (.leaving r) (.away r)
  | resume (m : Mode) (r : Away) : Next a m (.resumed r)
  | tidy (m : Mode) (l : Spin) : Next a m (.tidied l)
  | back (m : Mode) : Next a m .job
  | fresh (m : Mode) : Next a m (.away .fork)

section Sleepers

variable {s s' : Kernel} {c : Hart} {p : Fin NPROC}

theorem KStep.mode (h : HartInv s) (hstep : KStep s a s') (p : Fin NPROC) :
    Mode.Next a (s.thread p).mode (s'.thread p).mode := by
  -- a step changes the mode of one process at most
  have hset : ∀ {q : Fin NPROC} {m : Mode} {t : Thread}, (s.thread q).mode = m →
      Mode.Next a m t.mode → s'.thread = update s.thread q t →
      Mode.Next a (s.thread p).mode (s'.thread p).mode := by
    intro q m t hm hnext hthread
    rw [hthread]
    by_cases hpq : p = q
    · rw [hpq, update_self, hm]
      exact hnext
    · rw [update_of_ne hpq]
      exact .stay _
  have hjob : ∀ {c : Hart} {b : Job} (b' : Job), s.job c = some b →
      s'.thread = (s.setJob c b').thread → Mode.Next a (s.thread p).mode (s'.thread p).mode := by
    intro c b b' hb hthread
    rw [hthread, (Kernel.setJob_place hb p).mode]
    exact .stay _
  have hcall : ∀ {r : Away}, (∀ chan l, r ≠ .sleep chan l) →
      Mode.Next a .job (.want r) := fun hr => .call _ fun chan l h => absurd h (hr chan l)
  cases hstep with
  | switch c i r _ hctx => exact hset hctx (.resume _ r) rfl
  | yield _ _ _ hq | exit _ _ _ hq => exact hset hq.mode (hcall (by simp)) rfl
  | sleep c q chan l hq _ =>
    refine hset hq.mode (.call (.sleep chan l) fun _ _ heq => ?_) rfl
    cases heq
    exact ⟨c, rfl⟩
  | own c q r hq _ => exact hset hq.mode (.own r) rfl
  | yieldSet _ _ hq | sleepSet _ _ _ _ hq | exitRelease _ _ _ hq =>
    exact hset hq.mode (.sched _ _) rfl
  | sleepRelease c q chan l hq => exact hset hq.mode (.doze chan l) rfl
  | exitSet c q l status hq => exact hset hq.mode (.exit l) rfl
  | leave c q r hq => exact hset hq.mode (.leave r) rfl
  | resume _ _ _ hq | sleepUnlock _ _ _ hq => exact hset hq.mode (.back _) rfl
  | sleepTidy c q chan l hq => exact hset hq.mode (.tidy _ l) rfl
  | allocFound c j hj hu =>
    have hj' := (h.ctl.job_setOut (x := { s.proc j with pid := s.nextpid, state := .USED })
      (t := { job := .at .idle, mode := .away .fork }) (h.tab.out_of_unused hu)).trans hj
    have hmode := (Kernel.setJob_place (x := .drop j (.want .start j)) hj' p).mode
    refine (congrArg (Mode.Next _ _) hmode).mpr ?_
    by_cases hpj : p = j
    · rw [hpj]
      simp only [Kernel.setThread, Kernel.setProc, update_self]
      exact .fresh _
    · simp only [Kernel.setThread, Kernel.setProc, update_of_ne hpj]
      exact .stay _
  | _ => first
    | exact .stay _
    | exact hjob _ ‹s.job _ = _› rfl
    | exact hjob _ ‹s.Idle _ _›.job_eq rfl
    | exact hjob _ ‹s.InMode _ _ _›.job_eq rfl

/-- `sleep(chan, l)` has been called and `l` not yet released. -/
def Mode.entering : Mode → Option (Chan × Spin)
  | .want (.sleep chan l) | .own (.sleep chan l) => some (chan, l)
  | _ => none

variable {chan : Chan} {l : Spin}

theorem Mode.entering_cases {m : Mode} (h : m.entering = some (chan, l)) :
    m = .want (.sleep chan l) ∨ m = .own (.sleep chan l) := by
  cases m with
  | want r =>
    cases r with
    | sleep _ _ =>
      cases h
      exact .inl rfl
    | _ => cases h
  | own r =>
    cases r with
    | sleep _ _ =>
      cases h
      exact .inr rfl
    | _ => cases h
  | _ => cases h

theorem KStep.entering (h : HartInv s) (hstep : KStep s a s')
    (hp : (s'.thread p).mode.entering = some (chan, l)) :
    (s.thread p).mode.entering = some (chan, l) ∨ ∃ c, a = .sleep c chan l := by
  have hnext := hstep.mode h p
  generalize (s.thread p).mode = m at hnext ⊢
  generalize (s'.thread p).mode = m' at hnext hp
  cases hnext with
  | stay _ => exact .inl hp
  | call r hr =>
    cases r with
    | sleep chan' l' =>
      cases hp
      exact .inr (hr chan l rfl)
    | _ => cases hp
  | own r =>
    cases r with
    | sleep chan' l' => exact .inl hp
    | _ => cases hp
  | _ => cases hp

/-- Asleep on `chan`, or in `sleep` and past the release of the condition lock. -/
def Kernel.Dozing (s : Kernel) (chan : Chan) (p : Fin NPROC) : Prop :=
  (∃ l, (s.thread p).mode = .dozed chan l) ∨ (s.proc p).SleepsOn chan

theorem KStep.dozed (h : HartInv s) (hstep : KStep s a s')
    (hp : (s'.thread p).mode = .dozed chan l) :
    (s.thread p).mode = .dozed chan l ∨ (s.thread p).mode.entering = some (chan, l) := by
  have hnext := hstep.mode h p
  rw [hp] at hnext
  generalize (s.thread p).mode = m at hnext ⊢
  cases hnext with
  | stay _ => exact .inl rfl
  | doze _ _ => exact .inr rfl

/-- Nobody falls asleep but in `sleep`. -/
theorem KStep.sleepsOn (h : HartInv s) (hstep : KStep s a s') (hp : (s'.proc p).SleepsOn chan) :
    s.Dozing chan p := by
  have hset : ∀ {j : Fin NPROC} {x : Proc}, s'.proc = update s.proc j x →
      (x.SleepsOn chan → s.Dozing chan j) → s.Dozing chan p := by
    intro j x hproc hx
    rw [hproc] at hp
    by_cases hpj : p = j
    · rw [hpj, update_self] at hp
      exact hpj ▸ hx hp
    · rw [update_of_ne hpj] at hp
      exact .inr hp
  -- the entries that a step writes without a change of `state` and `chan`, or awake
  have hkeep : ∀ {j : Fin NPROC} {x : Proc}, s'.proc = update s.proc j x →
      x.state = (s.proc j).state → x.chan = (s.proc j).chan → s.Dozing chan p :=
    fun hproc hstate hchan => hset hproc fun hx => .inr ⟨hstate ▸ hx.1, hchan ▸ hx.2⟩
  have hawake : ∀ {j : Fin NPROC} {x : Proc}, s'.proc = update s.proc j x →
      x.state ≠ .SLEEPING → s.Dozing chan p :=
    fun hproc hx => hset hproc fun hsleep => absurd hsleep.1 hx
  cases hstep with
  | pick | yieldSet | exitSet | woken | allocFound | started => exact hawake rfl (by simp)
  | sleepSet c q ch l hq =>
    refine hset rfl fun hx => .inl ⟨l, ?_⟩
    rw [hq.mode, ← hx.2]
  | sleepTidy c q ch l hq =>
    obtain ⟨hrun, -⟩ := h.tab.running h.ctl hq
    refine hawake rfl ?_
    rw [show (s.proc q).state = .RUNNING from hrun]
    simp
  | tickRelease | cleared => exact hkeep rfl rfl rfl
  | killed c pid j _ _ =>
    refine hawake rfl ?_
    unfold killProc
    dsimp only
    split
    · simp
    · assumption
  | allocFail | reaped => exact hawake rfl (by simp [freeproc])
  | _ => exact .inr hp

/-! ## Ahead of a `wakeup` -/

/-- `wakeup(chan)` has not yet come past entry `p`. -/
def Job.ahead (chan : Chan) (p : Fin NPROC) : Job → Prop
  | .at (.want (.wakeup ch) j) | .drop _ (.want (.wakeup ch) j) => ch = chan ∧ j ≤ p.val
  | .hold (.wakeup ch) j => ch = chan ∧ j ≤ p
  | .wantTick ch j | .holdTick ch j => ch = chan ∧ j < p
  | _ => False

theorem Tab.dozing_own (h : Tab s) (hp : s.Dozing chan p) (hon : (s.thread p).mode.out = false) :
    (s.thread p).mode.isOwn = true := by
  rcases hp with ⟨l, hl⟩ | ⟨hsleep, -⟩
  · rw [hl]
    rfl
  · rcases h.state p with hallows | ⟨d, hd⟩
    · rw [hsleep] at hallows
      cases hm : (s.thread p).mode with
      | leaving r => rfl
      | away r =>
        rw [hm] at hon
        cases hon
      | _ => rw [hm] at hallows; cases hallows
    · rw [(h.switch d p hd).2] at hon
      cases hon

theorem HartInv.dozing_ne {b : Job} (h : HartInv s) (hb : s.job c = some b) (hp : s.Dozing chan p) :
    s.cproc c ≠ some p := by
  intro hc
  rcases Kernel.job_cases hb with hirq | ⟨q, hq, -⟩
  · -- in an interrupt handler: then nothing below it holds a lock
    have hbase := h.ctl.irq c (by rw [hirq]; simp)
    rcases h.cproc_cases hc with hstack | ⟨hbase', -⟩
    · obtain ⟨d, hd, hbase'⟩ := h.ctl.base_of_own (h.tab.dozing_own hp (h.ctl.on c p hstack))
      cases h.ctl.unique d c p hd hstack
      cases hbase.symm.trans hbase'
    · cases hbase.symm.trans hbase'
  · rw [h.ctl.cproc, (h.ctl.stack c q).mp hq.stack] at hc
    cases hc
    have hown := h.tab.dozing_own hp (h.ctl.on c p hq.stack)
    rw [hq.mode] at hown
    cases hown

theorem Kernel.InSched.no_job {pc : Sched} (h : s.InSched c pc) : s.job c = none := by
  unfold Kernel.job
  rw [h.irq, h.stack]

theorem Kernel.InMode.no_job {m : Mode} (h : s.InMode c p m) (hm : m ≠ .job) : s.job c = none := by
  unfold Kernel.job
  rw [h.irq, h.stack]
  dsimp only
  rw [h.mode, if_neg hm]

/-- The `wakeup` goes on, and does not come past who dozes. -/
theorem KStep.ahead {b : Job} (h : HartInv s) (hstep : KStep s a s') (hl : s.lock l = some a.hart)
    (hb : s.job a.hart = some b) (hahead : b.ahead chan p) (hp : s.Dozing chan p)
    (hp' : s'.Dozing chan p) : ∃ b', s'.job a.hart = some b' ∧ b'.ahead chan p := by
  have hnone : s.job a.hart = none → ∃ b', s'.job a.hart = some b' ∧ b'.ahead chan p := by
    intro hnone
    cases hnone.symm.trans hb
  have hother : ∀ {b0 : Job}, s.job a.hart = some b0 → ¬ b0.ahead chan p →
      ∃ b', s'.job a.hart = some b' ∧ b'.ahead chan p := by
    intro b0 hb0 hnot
    cases hb.symm.trans hb0
    exact absurd hahead hnot
  have hgo : ∀ {b0 : Job} (b' : Job), s.job a.hart = some b0 → (b0.ahead chan p → b'.ahead chan p) →
      s'.irq = (s.setJob a.hart b').irq → s'.thread = (s.setJob a.hart b').thread →
      s'.stack = s.stack → ∃ b', s'.job a.hart = some b' ∧ b'.ahead chan p := by
    intro b0 b' hb0 hnext hirq hthread hstack
    cases hb.symm.trans hb0
    exact ⟨b', Kernel.job_setJob b' hb0 hirq hthread hstack, hnext hahead⟩
  -- an entry whose lock the `wakeup` holds is not one that dozes, unless it sleeps
  have hheld : ∀ {b0 : Job} {j : Fin NPROC}, s.job a.hart = some b0 → b0.entry = some j →
      (s.thread j).mode.isOwn = false := fun hb0 hj => (h.ctl.visited hb0 hj).1
  cases hstep with
  | yield _ _ _ _ _ hfree | interrupt _ _ hfree | endInterrupt _ _ hfree =>
    exact absurd hl (hfree.lock l)
  | sleepDone c q l' hq hjob _ =>
    have hj := hq.job_eq
    rw [hjob] at hj
    exact hother hj id
  | finish c v hj _ =>
    refine hother hj fun hv => ?_
    cases v with
    | wakeup ch => exact absurd hv.2 (Nat.not_le_of_lt p.isLt)
    | _ => exact hv
  | skipSelf c ch j hj hself =>
    refine hgo (.at (.want (.wakeup ch) (j + 1))) hj (fun hb => ⟨hb.1, ?_⟩) rfl rfl rfl
    have hne : j ≠ p := by
      rintro rfl
      exact h.dozing_ne hj hp hself
    exact Nat.lt_of_le_of_ne hb.2 (Fin.val_ne_of_ne hne)
  | visit c v j hj _ _ =>
    refine hgo (.hold v j) hj (fun hv => ?_) rfl rfl rfl
    cases v with
    | _ => exact hv
  | woken c ch j hj hsleep =>
    refine hgo (.wantTick ch j) hj (fun hb => ⟨hb.1, lt_of_le_of_ne hb.2 ?_⟩) rfl rfl rfl
    rintro rfl
    rcases hp' with ⟨l', hl'⟩ | ⟨hstate, -⟩
    · have hmode : (s.thread j).mode = .dozed chan l' :=
        (Kernel.setJob_place (x := .wantTick ch j) hj j).mode.symm.trans hl'
      have hown := hheld hj rfl
      rw [hmode] at hown
      cases hown
    · simp [Kernel.setJob, Kernel.setProc] at hstate
  | notWoken c ch j hj hsleep =>
    refine hgo (.drop j (.want (.wakeup ch) (j + 1))) hj (fun hb => ⟨hb.1, ?_⟩) rfl rfl rfl
    have hne : j ≠ p := by
      rintro rfl
      rcases hp with ⟨l', hl'⟩ | hp
      · have hown := hheld hj rfl
        rw [hl'] at hown
        cases hown
      · exact hsleep (hb.1 ▸ hp)
    exact Nat.lt_of_le_of_ne hb.2 (Fin.val_ne_of_ne hne)
  | tickAcquire c ch j hj _ => exact hgo (.holdTick ch j) hj id rfl rfl rfl
  | tickRelease c ch j hj =>
    exact hgo (.drop j (.want (.wakeup ch) (j + 1))) hj (fun hb => ⟨hb.1, hb.2⟩) rfl rfl rfl
  | dropped c j pt hj =>
    refine hgo (.at pt) hj (fun hpt => ?_) rfl rfl rfl
    cases pt with
    | want v k =>
      cases v with
      | wakeup ch => exact hpt
      | _ => exact hpt
    | _ => exact hpt
  | tick hirq _ => exact ⟨b, hb, hahead⟩
  | _ => first
    | exact hnone ‹s.InSched _ _›.no_job
    | exact hnone (‹s.InMode _ _ _›.no_job (by simp))
    | exact hother ‹s.Idle _ _›.job_eq id
    | clear hb
      have hj := ‹s.job _ = some _›
      exact hother hj id

theorem KStep.release_job (hstep : KStep s (.release c l) s') (hl : l ≠ .tick) :
    s.job c = none ∨ s.job c = some (.at .idle) := by
  cases hstep with
  | sleepRelease _ _ _ _ hq | exitRelease _ _ _ hq => exact .inl (hq.no_job (by simp))
  | release _ _ hj _ => exact .inr hj
  | tickRelease _ ch j hj => exact absurd rfl hl

end Sleepers

/-! ## A condition and its lock -/

/-- The kernel, a condition that is tested with a lock held, and whether that lock may not be
released before a call of `wakeup`. -/
structure Waiting where
  kernel : Kernel
  cond : Bool
  owes : Bool

inductive WaitLabel where
  | kernel (a : KLabel)
  -- Makes the condition true.
  | raise (c : Hart)
  | lower
  deriving DecidableEq, Repr

section Waiting

variable (chan : Chan) (lk : Spin)

/-- A call of `wakeup(chan)` with `lk` held is what was owed. -/
def Waiting.owesAfter (w : Waiting) : KLabel → Bool
  | .wakeup c ch => if ch = chan ∧ w.kernel.lock lk = some c then false else w.owes
  | _ => w.owes

inductive WaitStep (w : Waiting) : WaitLabel → Waiting → Prop where
  | kernel (a : KLabel) (s' : Kernel) (h : KStep w.kernel a s') :
      WaitStep w (.kernel a) { w with kernel := s', owes := w.owesAfter chan lk a }
  | raise (c : Hart) (h : w.kernel.job c = some (.at .idle)) (hl : w.kernel.lock lk = some c) :
      WaitStep w (.raise c) { w with cond := true, owes := true }
  | lower : WaitStep w .lower { w with cond := false }

/-- How `sleep` and `wakeup` are used: `sleep(chan, lk)` with the condition false, and `wakeup(chan)`
before `lk` is released. -/
def WaitRules (w : Waiting) : WaitLabel → Prop
  | .kernel (.sleep _ ch l) => ch = chan → l = lk ∧ w.cond = false
  | .kernel (.release _ l) => l = lk → w.owes = false
  | _ => True

def waitMachine : Machine Waiting WaitLabel where
  init w := w.kernel = bootKernel
  step w a w' := WaitRules chan lk w a ∧ WaitStep chan lk w a w'

/-- With the condition true, whoever dozes is still to be woken by the CPU that holds `lk`. -/
structure WakeInv (w : Waiting) : Prop where
  entering : ∀ p l, (w.kernel.thread p).mode.entering = some (chan, l) → l = lk ∧ w.cond = false
  woken : w.cond = true → ∀ p, w.kernel.Dozing chan p → ∃ c, w.kernel.lock lk = some c ∧
    (w.owes = true ∨ ∃ b, w.kernel.job c = some b ∧ b.ahead chan p)

end Waiting

section WaitSteps

variable {chan : Chan} {lk : Spin} {w w' : Waiting}

theorem WaitStep.reachable {a : WaitLabel} (h : Reachable kernelMachine w.kernel)
    (hstep : WaitStep chan lk w a w') : Reachable kernelMachine w'.kernel := by
  cases hstep with
  | kernel a s' hs => exact h.next hs
  | raise | lower => exact h

theorem reachable_kernel (h : Reachable (waitMachine chan lk) w) :
    Reachable kernelMachine w.kernel := by
  induction h with
  | start hinit => exact .start hinit
  | next _ hstep ih => exact hstep.2.reachable ih

/-- While a process is on its way to `sleep(chan, lk)`, nobody else holds `lk`. -/
theorem WakeInv.raise {c : Hart} (h : WakeInv chan lk w) (hi : HartInv w.kernel)
    (hk : KeepInv w.kernel) (hc : w.kernel.job c = some (.at .idle))
    (hl : w.kernel.lock lk = some c) : WakeInv chan lk { w with cond := true, owes := true } := by
  refine ⟨fun p l hp => ?_, fun _ p _ => ⟨c, hl, .inl rfl⟩⟩
  -- such a process would run on the CPU that holds `lk`, which is at a job
  obtain ⟨rfl, -⟩ := h.entering p l hp
  have hmode := Mode.entering_cases hp
  obtain ⟨d, hd⟩ := hi.ctl.off p (by rcases hmode with hm | hm <;> rw [hm] <;> rfl)
  obtain ⟨hirq, hlock⟩ := hk.mode d p l hd (by rcases hmode with hm | hm <;> rw [hm] <;> rfl)
  cases hlock.symm.trans hl
  have hnone := Kernel.InMode.no_job ⟨hirq, hd, rfl⟩ (by rcases hmode with hm | hm <;> rw [hm] <;> simp)
  cases hnone.symm.trans hc

/-- What was owed is still owed, or `wakeup` starts. -/
theorem Waiting.owed {s' : Kernel} {c : Hart} (p : Fin NPROC) (howes : w.owes = true)
    (hl : w.kernel.lock lk = some c) (hstep : KStep w.kernel a s') :
    w.owesAfter chan lk a = true ∨ ∃ b, s'.job c = some b ∧ b.ahead chan p := by
  cases a with
  | wakeup d ch =>
    by_cases hpaid : ch = chan ∧ w.kernel.lock lk = some d
    · refine .inr ⟨.at (.want (.wakeup chan) 0), ?_, rfl, Nat.zero_le _⟩
      cases hpaid.2.symm.trans hl
      rw [← hpaid.1]
      cases hstep with
      | wakeup _ _ hj => exact Kernel.job_setJob _ hj rfl rfl rfl
    · exact .inl ((if_neg hpaid).trans howes)
  | _ => exact .inl howes

theorem WakeInv.kernel {s' : Kernel} (h : WakeInv chan lk w) (hlk : lk ≠ .tick)
    (hi : HartInv w.kernel) (hk : KeepInv w.kernel) (hrules : WaitRules chan lk w (.kernel a))
    (hstep : KStep w.kernel a s') :
    WakeInv chan lk { w with kernel := s', owes := w.owesAfter chan lk a } := by
  refine ⟨fun p l hp => ?_, fun hcond p hp => ?_⟩
  · rcases hstep.entering hi hp with hold | ⟨c, rfl⟩
    · exact h.entering p l hold
    · exact hrules rfl
  · have hold : w.kernel.Dozing chan p := by
      rcases hp with ⟨l, hl⟩ | hsleep
      · rcases hstep.dozed hi hl with hdozed | hentering
        · exact .inl ⟨l, hdozed⟩
        · cases hcond.symm.trans (h.entering p l hentering).2
      · exact hstep.sleepsOn hi hsleep
    obtain ⟨c, hl, hwoken⟩ := h.woken hcond p hold
    -- the holder of `lk` keeps it until it has called `wakeup` and `wakeup` has returned
    have hkeep : a ≠ .release c lk := by
      rintro rfl
      rcases hwoken with howes | ⟨b, hb, hahead⟩
      · cases howes.symm.trans (hrules rfl)
      · rcases hstep.release_job hlk with hnone | hidle
        · cases hnone.symm.trans hb
        · cases hidle.symm.trans hb
          exact hahead
    refine ⟨c, hstep.lock_keep hk hkeep hl, ?_⟩
    rcases hwoken with howes | ⟨b, hb, hahead⟩
    · exact w.owed p howes hl hstep
    · refine .inr ?_
      by_cases hc : c = a.hart
      · rw [hc] at hl hb ⊢
        exact hstep.ahead hi hl hb hahead hold hp
      · exact ⟨b, (hstep.frame hi hc).job.trans hb, hahead⟩

theorem wakeInv_boot {b o : Bool} : WakeInv chan lk ⟨bootKernel, b, o⟩ where
  entering p l hp := by
    have hmode : (bootKernel.thread p).mode.entering = none := by
      unfold bootKernel
      dsimp only
      split <;> rfl
    cases hmode.symm.trans hp
  woken _ p hp := by
    rcases hp with ⟨l, hl⟩ | ⟨hsleep, -⟩
    · unfold bootKernel at hl
      dsimp only at hl
      split at hl <;> cases hl
    · unfold bootKernel bootProcs at hsleep
      dsimp only at hsleep
      split at hsleep <;> cases hsleep

theorem wakeInv_of_reachable (hlk : lk ≠ .tick) (h : Reachable (waitMachine chan lk) w) :
    WakeInv chan lk w := by
  refine h.invariant (fun w hinit => ?_) fun w a w' hw hinv hstep => ?_
  · obtain ⟨s, b, o⟩ := w
    cases hinit
    exact wakeInv_boot
  · have hs := reachable_kernel hw
    have hi := hartInv_of_reachable hs
    have hk := keepInv_of_reachable hs
    obtain ⟨hrules, hstep⟩ := hstep
    cases hstep with
    | kernel a s' hs' => exact hinv.kernel hlk hi hk hrules hs'
    | raise c hc hl => exact hinv.raise hi hk hc hl
    | lower => exact ⟨fun p l hp => ⟨(hinv.entering p l hp).1, rfl⟩, by simp⟩

end WaitSteps

/-- **No wakeup is lost.** Whenever a condition is tested and made true with `lk` held, `sleep` is
called with the condition false and `wakeup` before `lk` is released, nobody is asleep on `chan`
while `lk` is free and the condition true, and `sleep` returns with `lk` held and `p->lock` not. -/
theorem no_lost_wakeup (chan : Chan) (n : Nat) {w : Waiting}
    (h : Reachable (waitMachine chan (.other n)) w) :
    ¬ (w.kernel.lock (.other n) = none ∧ w.cond = true ∧ ∃ p, (w.kernel.proc p).SleepsOn chan) ∧
    ∀ c p l w', (waitMachine chan (.other n)).step w (.kernel (.awake c p l)) w' →
      w'.kernel.cproc c = some p ∧ w'.kernel.lock l = some c ∧ w'.kernel.plock p ≠ some c := by
  refine ⟨?_, ?_⟩
  · rintro ⟨hfree, hcond, p, hp⟩
    obtain ⟨c, hl, -⟩ := (wakeInv_of_reachable (by simp) h).woken hcond p (.inr hp)
    cases hfree.symm.trans hl
  · rintro c p l w' ⟨-, hstep⟩
    have hi := hartInv_of_reachable (reachable_kernel h)
    cases hstep with
    | kernel _ s' hs =>
      cases hs with
      | sleepDone _ _ _ hp hjob _ =>
        refine ⟨?_, update_self .., fun hlock => ?_⟩
        · show w.kernel.cproc c = some p
          rw [hi.ctl.cproc, (hi.ctl.stack c p).mp hp.stack]
          rfl
        · -- at the end of `sleep` a process holds the lock of no entry
          have hentry := (hi.ctl.lock c p).mp hlock
          rw [Kernel.entry_of_job hp.job_eq, hjob] at hentry
          cases hentry

abbrev WaitRun (chan : Chan) (lk : Spin) (s : Kernel) (cond owes : Bool) : Prop :=
  Reachable (waitMachine chan lk) ⟨s, cond, owes⟩

namespace WaitRun

variable {chan : Chan} {lk : Spin} {s s' : Kernel} {cond owes : Bool} {c : Hart}

theorem tau (h : WaitRun chan lk s cond owes) (hstep : KStep s (.tau c) s') :
    WaitRun chan lk s' cond owes :=
  h.next (l := .kernel (.tau c)) ⟨trivial, .kernel (.tau c) s' hstep⟩

theorem sleep (h : WaitRun chan lk s false owes) (hstep : KStep s (.sleep c chan lk) s') :
    WaitRun chan lk s' false owes := by
  have hrules : WaitRules chan lk ⟨s, false, owes⟩ (.kernel (.sleep c chan lk)) :=
    fun _ => ⟨rfl, rfl⟩
  exact h.next (l := .kernel (.sleep c chan lk)) ⟨hrules, .kernel _ s' hstep⟩

theorem release (h : WaitRun chan lk s cond false) (hstep : KStep s (.release c lk) s') :
    WaitRun chan lk s' cond false := by
  have hrules : WaitRules chan lk ⟨s, cond, false⟩ (.kernel (.release c lk)) := fun _ => rfl
  exact h.next (l := .kernel (.release c lk)) ⟨hrules, .kernel _ s' hstep⟩

theorem raise (h : WaitRun chan lk s cond owes) (hjob : s.job c = some (.at .idle))
    (hl : s.lock lk = some c) : WaitRun chan lk s true true :=
  h.next (l := .raise c) ⟨trivial, .raise c hjob hl⟩

end WaitRun

/-- The first process sleeps and an interrupt handler on CPU 2 has just made the condition true. -/
theorem no_lost_wakeup_init :
    ∃ w, Reachable (waitMachine (.other 7) (.other 0)) w ∧ w.cond = true ∧
      (w.kernel.proc initproc).SleepsOn (.other 7) ∧ w.kernel.lock (.other 0) ≠ none := by
  have h : WaitRun (.other 7) (.other 0) bootKernel false false := .start rfl
  have h := h.tau (.scan 1 initproc ⟨rfl, rfl, rfl⟩ rfl)
  have h := h.tau (.pick 1 initproc ⟨rfl, rfl, rfl⟩ rfl)
  have h := h.tau (.switch 1 initproc .fork ⟨rfl, rfl, rfl⟩ rfl)
  have h := h.tau (.resume 1 initproc .fork ⟨rfl, rfl, rfl⟩ (.inr rfl))
  have h := h.tau (.toAcquire 1 (.other 0) rfl (by decide))
  have h := h.tau (.acquire 1 (.other 0) rfl rfl)
  have h := h.sleep (.sleep 1 initproc (.other 7) (.other 0) ⟨⟨rfl, rfl, rfl⟩, rfl⟩
    ⟨rfl, fun l hl heq => by cases (update_of_ne hl _ _).symm.trans heq⟩)
  have h := h.tau (.own 1 initproc (.sleep (.other 7) (.other 0)) ⟨rfl, rfl, rfl⟩ rfl)
  have h := h.release (.sleepRelease 1 initproc (.other 7) (.other 0) ⟨rfl, rfl, rfl⟩)
  have h := h.tau (.sleepSet 1 initproc (.other 7) (.other 0) ⟨rfl, rfl, rfl⟩)
  have h := h.tau (.interrupt 2 rfl ⟨fun l heq => (by
    by_cases hl : l = .other 0
    · subst hl
      cases heq
    · have hlast := (update_of_ne hl _ _).symm.trans heq
      cases (update_of_ne hl _ _).symm.trans hlast), by decide⟩)
  have h := h.tau (.toAcquire 2 (.other 0) rfl (by decide))
  have h := h.tau (.acquire 2 (.other 0) rfl rfl)
  have h := h.raise (c := 2) rfl rfl
  exact ⟨_, h, rfl, ⟨rfl, rfl⟩, fun hfree =>
    (no_lost_wakeup (.other 7) 0 h).1 ⟨hfree, rfl, initproc, rfl, rfl⟩⟩

end Xv6
