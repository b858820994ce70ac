import Xv6.Proc.HartInv

/-!
# A process runs on at most one CPU

While `p->lock` is free, a `RUNNING` process is `c->proc` of one CPU and a process that waits is
`c->proc` of none and has its context saved (`one_hart`).
-/

namespace Xv6

open Machines Function

namespace Away

/-- The state in which the process leaves its CPU; a new process has never been on one. -/
def left : Away → ProcState
  | .yield => .RUNNABLE
  | .sleep _ _ => .SLEEPING
  | .exit _ => .ZOMBIE
  | .fork => .USED

def after : Away → ProcState
  | .yield | .sleep _ _ | .fork => .RUNNABLE
  | .exit _ => .UNUSED

end Away

/-- The states in which a process can be while it is there. -/
def Mode.Allows : Mode → ProcState → Prop
  | .job, st | .want _, st | .own _, st | .dozed _ _, st | .resumed _, st | .tidied _, st =>
    st = .RUNNING
  | .zombie _, st => st = .ZOMBIE
  | .leaving r, st => st = r.left
  | .away r, st => st = r.left ∨ st = r.after

namespace Point

def starts : Point → Option Nat
  | .want .start j => some j
  | _ => none

def wakes : Point → Bool
  | .idle | .acq _ | .want (.wakeup _) _ => true
  | _ => false

end Point

namespace Job

def starts : Job → Option Nat
  | .at pt | .drop _ pt => pt.starts
  | .hold .start j => some j
  | .hold _ _ | .wantTick _ _ | .holdTick _ _ => none

def wakes : Job → Bool
  | .at pt | .drop _ pt => pt.wakes
  | .hold (.wakeup _) _ | .wantTick _ _ | .holdTick _ _ => true
  | .hold _ _ => false

end Job

/-- The state of a process agrees with where it is: `RUNNING` on a CPU, and what it left the CPU in,
or what it was made after that, off it. `fork` starts only what it has allocated. -/
structure Tab (s : Kernel) : Prop where
  -- Inside `sched` a process holds no lock of another.
  point : ∀ p, (s.thread p).mode ≠ .job → (s.thread p).job.entry = none
  state : ∀ p, (s.thread p).mode.Allows (s.proc p).state ∨ ∃ c, s.sched c = .switch p
  switch : ∀ c p, s.sched c = .switch p →
    (s.proc p).state = .RUNNING ∧ (s.thread p).mode.out = true
  saved : ∀ p, (s.thread p).mode.out = true → (s.proc p).state ≠ .UNUSED → s.saved p = true

/-- What `fork` starts, it has allocated, and nobody else starts it. -/
structure Born (s : Kernel) : Prop where
  used : ∀ p (j : Fin NPROC), (s.thread p).job.starts = some j.val → (s.proc j).state = .USED
  starter : ∀ p q (j : Fin NPROC), (s.thread p).job.starts = some j.val →
    (s.thread q).job.starts = some j.val → p = q
  -- Interrupt handlers call nothing but `wakeup`.
  handler : ∀ c b, s.irq c = some b → b.wakes = true

theorem tab_boot : Tab bootKernel where
  point _ _ := rfl
  state p := by
    refine .inl ?_
    by_cases hp : p = initproc
    · subst hp
      exact .inr rfl
    · simp [bootKernel, bootProcs, hp, Mode.Allows, Away.after]
  switch := by simp [bootKernel]
  saved p _ hp := by
    by_cases hi : p = initproc <;> simp [bootKernel, bootProcs, hi] at hp ⊢

theorem born_boot : Born bootKernel where
  used p j hj := by cases hj
  starter p q j hj := by cases hj
  handler c b hb := by cases hb

section Changes

variable {s s' : Kernel} {c : Hart}

/-- The thread is at the same place as far as `sched` is concerned. -/
structure SamePlace (t t' : Thread) : Prop where
  mode : t'.mode = t.mode
  job : t.mode ≠ .job → t'.job = t.job

theorem SamePlace.refl (t : Thread) : SamePlace t t := ⟨rfl, fun _ => rfl⟩

theorem Kernel.setJob_place {b x : Job} (hb : s.job c = some b) (p : Fin NPROC) :
    SamePlace (s.thread p) ((s.setJob c x).thread p) := by
  rcases Kernel.job_cases hb with hirq | ⟨q, hq, hjob⟩
  · have hthread : (s.setJob c x).thread = s.thread := by simp only [Kernel.setJob, hirq]
    rw [hthread]
    exact .refl _
  · rw [hq.setJob_thread]
    by_cases hpq : p = q
    · subst hpq
      rw [update_self]
      exact ⟨rfl, fun hne => absurd hq.mode hne⟩
    · rw [update_of_ne hpq]
      exact .refl _

theorem Tab.change (i : Fin NPROC) (h : Tab s)
    (hplace : ∀ p, p ≠ i → SamePlace (s.thread p) (s'.thread p))
    (hstate : ∀ p, p ≠ i → (s'.proc p).state = (s.proc p).state)
    (hsaved : ∀ p, p ≠ i → s'.saved p = s.saved p)
    (hsched : ∀ d p, p ≠ i → (s'.sched d = .switch p ↔ s.sched d = .switch p))
    (hpointi : (s'.thread i).mode ≠ .job → (s'.thread i).job.entry = none)
    (hstatei : (s'.thread i).mode.Allows (s'.proc i).state ∨ ∃ d, s'.sched d = .switch i)
    (hswitchi : ∀ d, s'.sched d = .switch i →
      (s'.proc i).state = .RUNNING ∧ (s'.thread i).mode.out = true)
    (hsavedi : (s'.thread i).mode.out = true → (s'.proc i).state ≠ .UNUSED → s'.saved i = true) :
    Tab s' where
  point p hp := by
    by_cases hpi : p = i
    · subst hpi
      exact hpointi hp
    · have hsame := hplace p hpi
      rw [hsame.mode] at hp
      rw [hsame.job hp]
      exact h.point p hp
  state p := by
    by_cases hpi : p = i
    · subst hpi
      exact hstatei
    · rw [(hplace p hpi).mode, hstate p hpi]
      exact (h.state p).imp_right fun ⟨d, hd⟩ => ⟨d, (hsched d p hpi).mpr hd⟩
  switch d p hd := by
    by_cases hpi : p = i
    · subst hpi
      exact hswitchi d hd
    · rw [hstate p hpi, (hplace p hpi).mode]
      exact h.switch d p ((hsched d p hpi).mp hd)
  saved p hout hp := by
    by_cases hpi : p = i
    · subst hpi
      exact hsavedi hout hp
    · rw [(hplace p hpi).mode] at hout
      rw [hstate p hpi] at hp
      rw [hsaved p hpi]
      exact h.saved p hout hp

theorem Tab.same (h : Tab s) (hplace : ∀ p, SamePlace (s.thread p) (s'.thread p))
    (hstate : ∀ p, (s'.proc p).state = (s.proc p).state) (hsaved : s'.saved = s.saved)
    (hsched : ∀ d p, s'.sched d = .switch p ↔ s.sched d = .switch p) : Tab s' := by
  refine h.change 0 (fun p _ => hplace p) (fun p _ => hstate p) (fun p _ => by rw [hsaved])
    (fun d p _ => hsched d p) (fun hp => ?_) ?_ (fun d hd => ?_) (fun hout hp => ?_)
  · rw [(hplace 0).mode] at hp
    rw [(hplace 0).job hp]
    exact h.point 0 hp
  · rw [(hplace 0).mode, hstate]
    exact (h.state 0).imp_right fun ⟨d, hd⟩ => ⟨d, (hsched d 0).mpr hd⟩
  · rw [hstate, (hplace 0).mode]
    exact h.switch d 0 ((hsched d 0).mp hd)
  · rw [(hplace 0).mode] at hout
    rw [hstate] at hp
    rw [hsaved]
    exact h.saved 0 hout hp

/-! ### What others do to a process that is off its CPU -/

namespace Mode.Allows

variable {m : Mode}

theorem woken (h : m.Allows .SLEEPING) (hm : m.isOwn = false) : m.Allows .RUNNABLE := by
  cases m with
  | away r => cases r <;> simp [Mode.Allows, Away.left, Away.after] at h ⊢
  | leaving r => cases hm
  | _ => cases h

theorem reaped (h : m.Allows .ZOMBIE) (hm : m.isOwn = false) : m.Allows .UNUSED := by
  cases m with
  | away r => cases r <;> simp [Mode.Allows, Away.left, Away.after] at h ⊢
  | leaving | zombie => cases hm
  | _ => cases h

theorem started (h : m.Allows .USED) (hm : m.isOwn = false) : m.Allows .RUNNABLE := by
  cases m with
  | away r => cases r <;> simp [Mode.Allows, Away.left, Away.after] at h ⊢
  | leaving r => cases hm
  | _ => cases h

theorem picked (h : m.Allows .RUNNABLE) (hm : m.isOwn = false) : m.out = true := by
  cases m with
  | away r => rfl
  | leaving r => cases hm
  | _ => cases h

theorem unused (h : m.Allows .UNUSED) : m.out = true := by
  cases m with
  | away r => rfl
  | leaving r => cases r <;> cases h
  | _ => cases h

end Mode.Allows

variable {j : Fin NPROC}

theorem Tab.out_of_unused (h : Tab s) (hj : (s.proc j).state = .UNUSED) :
    (s.thread j).mode.out = true := by
  rcases h.state j with hallows | ⟨d, hd⟩
  · rw [hj] at hallows
    exact hallows.unused
  · exact (h.switch d j hd).2

theorem Tab.visited {b : Job} (h : Tab s) (hc : Ctl s) (hb : s.job c = some b)
    (hj : b.entry = some j) :
    (s.thread j).mode.Allows (s.proc j).state ∧ (s.thread j).mode.isOwn = false := by
  obtain ⟨hown, hswitch⟩ := hc.visited hb hj
  refine ⟨?_, hown⟩
  rcases h.state j with hallows | ⟨d, hd⟩
  · exact hallows
  · exact absurd hd (hswitch d)

theorem Tab.jobMove {b : Job} (b' : Job) (h : Tab s) (hb : s.job c = some b)
    (hthread : s'.thread = (s.setJob c b').thread)
    (hstate : ∀ p, (s'.proc p).state = (s.proc p).state) (hsaved : s'.saved = s.saved)
    (hsched : s'.sched = s.sched) : Tab s' := by
  refine h.same (fun p => ?_) hstate hsaved fun d p => by rw [hsched]
  rw [hthread]
  exact Kernel.setJob_place hb p

theorem Tab.visitMove {b : Job} (b' : Job) (h : Tab s) (hc : Ctl s) (hb : s.job c = some b)
    (hj : b.entry = some j) (hthread : s'.thread = (s.setJob c b').thread)
    (hstate : ∀ p, p ≠ j → (s'.proc p).state = (s.proc p).state) (hsaved : s'.saved = s.saved)
    (hsched : s'.sched = s.sched) (hused : (s.proc j).state ≠ .UNUSED)
    (hallows : (s.thread j).mode.Allows (s.proc j).state → (s.thread j).mode.isOwn = false →
      (s.thread j).mode.Allows (s'.proc j).state) : Tab s' := by
  obtain ⟨-, hswitch⟩ := hc.visited hb hj
  obtain ⟨hold, hown⟩ := h.visited hc hb hj
  have hplace : ∀ p, SamePlace (s.thread p) (s'.thread p) := by
    intro p
    rw [hthread]
    exact Kernel.setJob_place hb p
  refine h.change j (fun p _ => hplace p) hstate (fun p _ => by rw [hsaved])
    (fun d p _ => by rw [hsched]) (fun hp => ?_) ?_ (fun d hd => ?_) (fun hout _ => ?_)
  · rw [(hplace j).mode] at hp
    rw [(hplace j).job hp]
    exact h.point j hp
  · rw [(hplace j).mode]
    exact .inl (hallows hold hown)
  · rw [hsched] at hd
    exact absurd hd (hswitch d)
  · rw [(hplace j).mode] at hout
    rw [hsaved]
    exact h.saved j hout hused

variable {p : Fin NPROC}

theorem Tab.running {m : Mode} (h : Tab s) (hc : Ctl s) (hp : s.InMode c p m) :
    m.Allows (s.proc p).state ∧ ∀ d, s.sched d ≠ .switch p := by
  have hswitch : ∀ d, s.sched d ≠ .switch p := by
    intro d hd
    have hout := (h.switch d p hd).2
    rw [hc.on c p hp.stack] at hout
    cases hout
  refine ⟨?_, hswitch⟩
  rcases h.state p with hallows | ⟨d, hd⟩
  · rw [hp.mode] at hallows
    exact hallows
  · exact absurd hd (hswitch d)

theorem Tab.threadMove {m : Mode} {t : Thread} (h : Tab s) (hc : Ctl s) (hp : s.InMode c p m)
    (hthread : s'.thread = update s.thread p t) (hpoint : t.mode ≠ .job → t.job.entry = none)
    (ht : t.mode.out = false) (hstate : ∀ q, q ≠ p → (s'.proc q).state = (s.proc q).state)
    (hsaved : s'.saved = s.saved) (hsched : s'.sched = s.sched)
    (hallows : m.Allows (s.proc p).state → t.mode.Allows (s'.proc p).state) : Tab s' := by
  have hself : s'.thread p = t := by rw [hthread, update_self]
  obtain ⟨hold, hswitch⟩ := h.running hc hp
  refine h.change p (fun q hqp => ?_) hstate (fun q _ => by rw [hsaved])
    (fun d q _ => by rw [hsched]) (fun hne => ?_) ?_ (fun d hd => ?_) (fun hout' => ?_)
  · rw [hthread, update_of_ne hqp]
    exact .refl _
  · rw [hself] at hne ⊢
    exact hpoint hne
  · rw [hself]
    exact .inl (hallows hold)
  · rw [hsched] at hd
    exact absurd hd (hswitch d)
  · rw [hself, ht] at hout'
    cases hout'

theorem Tab.leave {r : Away} (h : Tab s) (hc : Ctl s) (hp : s.InMode c p (.leaving r))
    (hthread : s'.thread = update s.thread p { s.thread p with mode := .away r })
    (hproc : s'.proc = s.proc) (hsaved : s'.saved = update s.saved p true)
    (hsched : s'.sched = update s.sched c (.back p)) : Tab s' := by
  obtain ⟨hold, hswitch⟩ := h.running hc hp
  have hself : s'.thread p = { s.thread p with mode := .away r } := by
    rw [hthread, update_self]
  have hsame : ∀ d q, s'.sched d = .switch q ↔ s.sched d = .switch q := by
    intro d q
    rw [hsched]
    by_cases hdc : d = c
    · rw [hdc, update_self, (hc.stack c p).mp hp.stack]
      simp
    · rw [update_of_ne hdc]
  refine h.change p (fun q hqp => ?_) (fun q _ => by rw [hproc]) (fun q hqp => ?_)
    (fun d q _ => hsame d q) (fun _ => ?_) ?_ (fun d hd => ?_) (fun _ _ => ?_)
  · rw [hthread, update_of_ne hqp]
    exact .refl _
  · rw [hsaved, update_of_ne hqp]
  · rw [hself]
    exact h.point p (by rw [hp.mode]; simp)
  · rw [hself, hproc]
    exact .inl (.inl hold)
  · exact absurd ((hsame d p).mp hd) (hswitch d)
  · rw [hsaved, update_self]

theorem Tab.switchTo {i : Fin NPROC} {r : Away} (h : Tab s) (hc : Ctl s)
    (hpc : s.InSched c (.switch i)) (hctx : (s.thread i).mode = .away r)
    (hthread : s'.thread = update s.thread i { s.thread i with mode := .resumed r })
    (hproc : s'.proc = s.proc) (hsaved : s'.saved = update s.saved i false)
    (hsched : s'.sched = update s.sched c (.away i)) : Tab s' := by
  have hself : s'.thread i = { s.thread i with mode := .resumed r } := by
    rw [hthread, update_self]
  -- the lock keeps other schedulers from running it too
  have hsole : ∀ d, s.sched d = .switch i → d = c := fun d hd =>
    (hc.sole hpc.entry (hc.base_of_switch hd).2).1
  refine h.change i (fun q hqi => ?_) (fun q _ => by rw [hproc]) (fun q hqi => ?_)
    (fun d q hqi => ?_) (fun _ => ?_) ?_ (fun d hd => ?_) (fun hout => ?_)
  · rw [hthread, update_of_ne hqi]
    exact .refl _
  · rw [hsaved, update_of_ne hqi]
  · rw [hsched]
    by_cases hdc : d = c
    · rw [hdc, update_self, hpc.sched]
      simp [Ne.symm hqi]
    · rw [update_of_ne hdc]
  · rw [hself]
    exact h.point i (by rw [hctx]; simp)
  · rw [hself, hproc]
    exact .inl (h.switch c i hpc.sched).1
  · rw [hsched] at hd
    by_cases hdc : d = c
    · rw [hdc, update_self] at hd
      cases hd
    · rw [update_of_ne hdc] at hd
      exact absurd (hsole d hd) hdc
  · rw [hself] at hout
    cases hout

theorem Tab.pick {i : Fin NPROC} (h : Tab s) (hc : Ctl s) (hpc : s.InSched c (.check i))
    (hi : (s.proc i).state = .RUNNABLE) (hthread : s'.thread = s.thread)
    (hproc : s'.proc = update s.proc i { s.proc i with state := .RUNNING })
    (hsaved : s'.saved = s.saved) (hsched : s'.sched = update s.sched c (.switch i)) : Tab s' := by
  obtain ⟨hown, hswitch⟩ := hc.checked hpc
  -- a `RUNNABLE` process whose lock is free for the scheduler waits inside `swtch`
  have hout : (s.thread i).mode.out = true := by
    rcases h.state i with hallows | ⟨d, hd⟩
    · rw [hi] at hallows
      exact hallows.picked hown
    · exact absurd hd (hswitch d)
  have hrun : (s'.proc i).state = .RUNNING := by rw [hproc, update_self]
  refine h.change i (fun q _ => by rw [hthread]; exact .refl _) (fun q hqi => ?_)
    (fun q _ => by rw [hsaved]) (fun d q hqi => ?_) (fun hne => ?_) ?_ (fun d hd => ?_)
    (fun _ _ => ?_)
  · rw [hproc, update_of_ne hqi]
  · rw [hsched]
    by_cases hdc : d = c
    · rw [hdc, update_self, hpc.sched]
      simp [Ne.symm hqi]
    · rw [update_of_ne hdc]
  · rw [hthread] at hne ⊢
    exact h.point i hne
  · exact .inr ⟨c, by rw [hsched, update_self]⟩
  · exact ⟨hrun, by rw [hthread]; exact hout⟩
  · rw [hsaved]
    exact h.saved i hout (by rw [hi]; simp)

theorem Tab.schedMove {pc pc' : Sched} (h : Tab s) (hpc : s.InSched c pc)
    (hne : ∀ i, pc ≠ .switch i) (hne' : ∀ i, pc' ≠ .switch i) (hthread : s'.thread = s.thread)
    (hproc : s'.proc = s.proc) (hsaved : s'.saved = s.saved)
    (hsched : s'.sched = update s.sched c pc') : Tab s' := by
  refine h.same (fun p => by rw [hthread]; exact .refl _) (fun p => by rw [hproc]) hsaved
    fun d p => ?_
  rw [hsched]
  by_cases hdc : d = c
  · rw [hdc, update_self, hpc.sched]
    simp [hne, hne']
  · rw [update_of_ne hdc]

variable {proc : Fin NPROC → Proc}

theorem state_update {x : Proc} (hx : x.state = (proc j).state) (p : Fin NPROC) :
    (update proc j x p).state = (proc p).state := by
  by_cases hpj : p = j
  · rw [hpj, update_self, hx]
  · rw [update_of_ne hpj]

theorem state_update_self {x : Proc} : (update proc j x j).state = x.state := by
  rw [update_self]

theorem state_update_ne {x : Proc} (p : Fin NPROC) (hpj : p ≠ j) :
    (update proc j x p).state = (proc p).state := by
  rw [update_of_ne hpj]

theorem Tab.alloc (h : Tab s) (hc : Ctl s) (hj : s.job c = some (.hold .alloc j))
    (hu : (s.proc j).state = .UNUSED) :
    Tab { ((s.setProc j { s.proc j with pid := s.nextpid, state := .USED }).setThread
        j { job := .at .idle, mode := .away .fork }).setJob c (.drop j (.want .start j)) with
      nextpid := s.nextpid + 1
      saved := update s.saved j true } := by
  set s1 := (s.setProc j { s.proc j with pid := s.nextpid, state := .USED }).setThread
    j { job := .at .idle, mode := .away .fork } with hs1
  have hout := h.out_of_unused hu
  have hself : s1.thread j = { job := .at .idle, mode := .away .fork } := update_self ..
  have hother : ∀ p, p ≠ j → s1.thread p = s.thread p := fun p hp => update_of_ne hp ..
  have hplace : ∀ p, SamePlace (s1.thread p) ((s1.setJob c (.drop j (.want .start j))).thread p) :=
    Kernel.setJob_place ((hc.job_setOut hout).trans hj)
  have hmode := (hplace j).mode
  have hjob := (hplace j).job (by rw [hself]; simp)
  rw [hself] at hmode hjob
  refine h.change j (fun p hp => ?_) state_update_ne
    (fun p hp => update_of_ne hp ..) (fun _ _ _ => Iff.rfl) (fun _ => ?_) ?_
    (fun d hd => absurd hd ((hc.visited hj rfl).2 d)) (fun _ _ => update_self ..)
  · have := hplace p
    rw [hother p hp] at this
    exact this
  · exact congrArg Job.entry hjob
  · refine .inl ?_
    show Mode.Allows ((s1.setJob c (.drop j (.want .start j))).thread j).mode _
    rw [hmode]
    exact .inl state_update_self

theorem Born.used_of_job (h : Born s) (hj : s.job c = some (.hold .start j)) :
    (s.proc j).state = .USED := by
  rcases Kernel.job_cases hj with hirq | ⟨p, hp, hjob⟩
  · have := h.handler c _ hirq
    cases this
  · exact h.used p j (by rw [hjob]; rfl)

end Changes

theorem Tab.step {s s' : Kernel} {l : KLabel} (h : Tab s) (hc : Ctl s) (hborn : Born s)
    (hstep : KStep s l s') : Tab s' := by
  -- most steps leave the states alone; a visitor changes that of the entry it has locked
  cases hstep with
  | scan _ _ hpc | wrap _ hpc | pass _ _ hpc | back _ _ hpc | rel _ _ hpc =>
    exact h.schedMove hpc (by simp) (by simp) rfl rfl rfl rfl
  | pick c i hpc hi => exact h.pick hc hpc hi rfl rfl rfl rfl
  | switch c i r hpc hctx => exact h.switchTo hc hpc hctx rfl rfl rfl rfl
  | yield c p pt hp hpt _ =>
    exact h.threadMove hc hp rfl (fun _ => by rw [hpt]; rfl) rfl (fun _ _ => rfl) rfl rfl id
  | sleep _ _ _ _ hp | exit _ _ _ hp =>
    exact h.threadMove hc hp.toInMode rfl (fun _ => by rw [hp.job]; rfl) rfl (fun _ _ => rfl) rfl
      rfl id
  | own _ p _ hp | sleepRelease _ p _ _ hp | exitRelease _ p _ hp =>
    exact h.threadMove hc hp rfl (fun _ => h.point p (by rw [hp.mode]; simp)) rfl
      (fun _ _ => rfl) rfl rfl id
  | yieldSet _ p hp | sleepSet _ p _ _ hp | exitSet _ p _ _ hp =>
    exact h.threadMove hc hp rfl (fun _ => h.point p (by rw [hp.mode]; simp)) rfl
      state_update_ne rfl rfl fun _ => state_update_self
  | leave c p r hp => exact h.leave hc hp rfl rfl rfl rfl
  | resume _ _ _ hp | sleepUnlock _ _ _ hp =>
    exact h.threadMove hc hp rfl (fun hne => absurd rfl hne) rfl (fun _ _ => rfl) rfl rfl id
  | sleepTidy c p chan l hp =>
    exact h.threadMove hc hp rfl (fun _ => h.point p (by rw [hp.mode]; simp)) rfl
      state_update_ne rfl rfl fun hold => state_update_self.trans hold
  | sleepDone c p l hp hjob _ => exact h.jobMove (.at .idle) hp.job_eq rfl (fun _ => rfl) rfl rfl
  | acquire c l hj _ => exact h.jobMove (.at .idle) hj rfl (fun _ => rfl) rfl rfl
  | visit c v j hj _ hfree => exact h.jobMove (.hold v j) hj rfl (fun _ => rfl) rfl rfl
  | woken c chan j hj hsleep =>
    refine h.visitMove (.wantTick chan j) hc hj rfl rfl state_update_ne rfl rfl
      (by rw [hsleep.1]; simp) fun hold hown => ?_
    rw [hsleep.1] at hold
    simp only [Kernel.setJob, Kernel.setProc, update_self]
    exact hold.woken hown
  | tickAcquire c chan j hj _ => exact h.jobMove (.holdTick chan j) hj rfl (fun _ => rfl) rfl rfl
  | tickRelease c chan j hj =>
    exact h.jobMove (.drop j (.want (.wakeup chan) (j + 1))) hj rfl (state_update rfl) rfl rfl
  | killed c pid j hj _ =>
    by_cases hsleep : (s.proc j).state = .SLEEPING
    · refine h.visitMove (.drop j .idle) hc hj rfl rfl state_update_ne rfl rfl
        (by rw [hsleep]; simp) fun hold hown => ?_
      have hstate : (killProc (s.proc j)).state = .RUNNABLE := if_pos hsleep
      simp only [Kernel.setJob, Kernel.setProc, update_self, hstate]
      exact (hsleep ▸ hold).woken hown
    · exact h.jobMove (.drop j .idle) hj rfl (state_update (if_neg hsleep)) rfl rfl
  | cleared c j hj =>
    exact h.jobMove (.at (.want .alloc (j + 1))) hj rfl (state_update rfl) rfl rfl
  | allocFail c j hj hu =>
    exact h.jobMove (.drop j .idle) hj rfl (state_update (by rw [hu]; rfl)) rfl rfl
  | allocFound c j hj hu => exact h.alloc hc hj hu
  -- what `fork` starts is what it has allocated
  | started c j hj =>
    have hused := hborn.used_of_job hj
    refine h.visitMove (.drop j .idle) hc hj rfl rfl state_update_ne rfl rfl
      (by rw [hused]; simp) fun hold hown => ?_
    rw [hused] at hold
    simp only [Kernel.setJob, Kernel.setProc, update_self]
    exact hold.started hown
  | reaped c j hj hz =>
    refine h.visitMove (.drop j .idle) hc hj rfl rfl state_update_ne rfl rfl
      (by rw [hz]; simp) fun hold hown => ?_
    rw [hz] at hold
    simp only [Kernel.setJob, Kernel.setProc, update_self]
    exact hold.reaped hown
  | dropped c j pt hj => exact h.jobMove (.at pt) hj rfl (fun _ => rfl) rfl rfl
  | _ => first
    | exact h.same (fun p => .refl _) (fun _ => rfl) rfl fun _ _ => Iff.rfl
    | exact h.jobMove _ ‹s.job _ = _› rfl (fun _ => rfl) rfl rfl
    | exact h.jobMove _ ‹s.Idle _ _›.job_eq rfl (fun _ => rfl) rfl rfl

section Births

variable {s s' : Kernel} {c : Hart}

theorem Born.same (h : Born s) (hstarts : ∀ p, (s'.thread p).job.starts = (s.thread p).job.starts ∨
      (s'.thread p).job.starts = none)
    (hused : ∀ j, (s.proc j).state = .USED → (s'.proc j).state = .USED)
    (hirq : ∀ d b, s'.irq d = some b → b.wakes = true) : Born s' := by
  have hold : ∀ p (j : Fin NPROC), (s'.thread p).job.starts = some j.val →
      (s.thread p).job.starts = some j.val := by
    intro p j hj
    rcases hstarts p with heq | hnone
    · exact heq ▸ hj
    · rw [hnone] at hj
      cases hj
  exact ⟨fun p j hj => hused j (h.used p j (hold p j hj)),
    fun p q j hp hq => h.starter p q j (hold p j hp) (hold q j hq), hirq⟩

theorem Kernel.setJob_job {b x : Job} (hb : s.job c = some b) (p : Fin NPROC) :
    ((s.setJob c x).thread p).job = (s.thread p).job ∨
      s.InMode c p .job ∧ (s.thread p).job = b ∧ ((s.setJob c x).thread p).job = x := by
  rcases Kernel.job_cases hb with hirq | ⟨q, hq, hjob⟩
  · refine .inl ?_
    simp only [Kernel.setJob, hirq]
  · rw [hq.setJob_thread]
    by_cases hpq : p = q
    · subst hpq
      exact .inr ⟨hq, hjob, by rw [update_self]⟩
    · exact .inl (by rw [update_of_ne hpq])

theorem Born.wakes_setJob {b b' : Job} (h : Born s) (hb : s.job c = some b)
    (hwakes : b.wakes = true → b'.wakes = true) (d : Hart) (x : Job)
    (hx : (s.setJob c b').irq d = some x) : x.wakes = true := by
  rcases Kernel.job_cases hb with hirq | ⟨q, hq, -⟩
  · simp only [Kernel.setJob, hirq] at hx
    by_cases hdc : d = c
    · rw [hdc, update_self] at hx
      cases hx
      exact hwakes (h.handler c b hirq)
    · rw [update_of_ne hdc] at hx
      exact h.handler d x hx
  · rw [hq.setJob_irq] at hx
    exact h.handler d x hx

theorem Born.jobMove {b : Job} (b' : Job) (h : Born s) (hb : s.job c = some b)
    (hthread : s'.thread = (s.setJob c b').thread) (hirq : s'.irq = (s.setJob c b').irq)
    (hstarts : b'.starts = b.starts ∨ b'.starts = none) (hwakes : b.wakes = true → b'.wakes = true)
    (hused : ∀ j, (s.proc j).state = .USED → (s'.proc j).state = .USED) : Born s' := by
  refine h.same (fun p => ?_) hused fun d x hx => ?_
  · rw [hthread]
    rcases Kernel.setJob_job (x := b') hb p with hsame | ⟨-, hold, hnew⟩
    · exact .inl (by rw [hsame])
    · rw [hnew, hold]
      exact hstarts
  · rw [hirq] at hx
    exact h.wakes_setJob hb hwakes d x hx

theorem Born.procMove {p : Fin NPROC} (b' : Job) (h : Born s) (hp : s.InMode c p .job)
    (hthread : s'.thread = (s.setJob c b').thread) (hirq : s'.irq = (s.setJob c b').irq)
    (hstarts : b'.starts = none)
    (hused : ∀ q (j : Fin NPROC), q ≠ p → (s.thread q).job.starts = some j.val →
      (s'.proc j).state = .USED) : Born s' := by
  have hself : (s'.thread p).job.starts = none := by
    rw [hthread, hp.setJob_thread, update_self]
    exact hstarts
  have hold : ∀ q (j : Fin NPROC), (s'.thread q).job.starts = some j.val →
      q ≠ p ∧ (s.thread q).job.starts = some j.val := by
    intro q j hj
    have hqp : q ≠ p := by
      rintro rfl
      rw [hself] at hj
      cases hj
    rw [hthread, hp.setJob_thread, update_of_ne hqp] at hj
    exact ⟨hqp, hj⟩
  refine ⟨fun q j hj => hused q j (hold q j hj).1 (hold q j hj).2,
    fun q r j hq hr => h.starter q r j (hold q j hq).2 (hold r j hr).2, fun d b hb => ?_⟩
  rw [hirq, hp.setJob_irq] at hb
  exact h.handler d b hb

theorem Born.alloc {j : Fin NPROC} (h : Born s) (hc : Ctl s) (ht : Tab s)
    (hj : s.job c = some (.hold .alloc j)) (hu : (s.proc j).state = .UNUSED) :
    Born { ((s.setProc j { s.proc j with pid := s.nextpid, state := .USED }).setThread
        j { job := .at .idle, mode := .away .fork }).setJob c (.drop j (.want .start j)) with
      nextpid := s.nextpid + 1
      saved := update s.saved j true } := by
  -- the caller is a process, and another one than the new one
  obtain ⟨p, hp, hjob⟩ : ∃ p, s.InMode c p .job ∧ (s.thread p).job = .hold .alloc j := by
    rcases Kernel.job_cases hj with hirq | hproc
    · have := h.handler c _ hirq
      cases this
    · exact hproc
  have hpj : p ≠ j := by
    rintro rfl
    have := hc.on c p hp.stack
    rw [ht.out_of_unused hu] at this
    cases this
  have hfresh : ∀ q, (s.thread q).job.starts ≠ some j.val := by
    intro q hq
    have := h.used q j hq
    rw [hu] at this
    cases this
  set s1 := (s.setProc j { s.proc j with pid := s.nextpid, state := .USED }).setThread
    j { job := .at .idle, mode := .away .fork } with hs1
  have hp1 : s1.InMode c p .job :=
    ⟨hp.irq, hp.stack, by rw [← hp.mode]; exact congrArg _ (update_of_ne hpj ..)⟩
  have hself : ((s1.setJob c (.drop j (.want .start j))).thread p).job.starts = some j.val := by
    rw [hp1.setJob_thread, update_self]
    rfl
  have hold : ∀ q (k : Fin NPROC), q ≠ p →
      ((s1.setJob c (.drop j (.want .start j))).thread q).job.starts = some k.val →
      (s.thread q).job.starts = some k.val := by
    intro q k hqp hk
    rw [hp1.setJob_thread, update_of_ne hqp] at hk
    by_cases hqj : q = j
    · rw [hqj, hs1] at hk
      simp only [Kernel.setThread, update_self] at hk
      cases hk
    · simp only [hs1, Kernel.setThread, update_of_ne hqj] at hk
      exact hk
  have hown : ∀ k : Fin NPROC,
      ((s1.setJob c (.drop j (.want .start j))).thread p).job.starts = some k.val → k = j := by
    intro k hk
    rw [hself] at hk
    exact (Fin.ext (Option.some.inj hk)).symm
  refine ⟨fun q k hk => ?_, fun q r k hq hr => ?_, fun d b hb => ?_⟩
  · by_cases hqp : q = p
    · rw [hown k (hqp ▸ hk)]
      exact state_update_self
    · have := hold q k hqp hk
      have hkj : k ≠ j := by
        rintro rfl
        exact hfresh q this
      exact (state_update_ne k hkj).trans (h.used q k this)
  · by_cases hqp : q = p <;> by_cases hrp : r = p
    · rw [hqp, hrp]
    · have hk := hown k (hqp ▸ hq)
      exact absurd (hk ▸ hold r k hrp hr) (hfresh r)
    · have hk := hown k (hrp ▸ hr)
      exact absurd (hk ▸ hold q k hqp hq) (hfresh q)
    · exact h.starter q r k (hold q k hqp hq) (hold r k hrp hr)
  · have hirq : (s1.setJob c (.drop j (.want .start j))).irq = s.irq := hp1.setJob_irq
    have hb' : s.irq d = some b := hirq ▸ hb
    exact h.handler d b hb'

theorem Born.started {j : Fin NPROC} (h : Born s) (hj : s.job c = some (.hold .start j)) :
    Born ((s.setProc j { s.proc j with state := .RUNNABLE }).setJob c (.drop j .idle)) := by
  rcases Kernel.job_cases hj with hirq | ⟨p, hp, hjob⟩
  · have := h.handler c _ hirq
    cases this
  · refine h.procMove (.drop j .idle) hp rfl rfl rfl fun q k hqp hk => ?_
    have hkj : k ≠ j := by
      rintro rfl
      exact hqp (h.starter q p k hk (by rw [hjob]; rfl))
    exact (state_update_ne k hkj).trans (h.used q k hk)

theorem Born.modeMove (h : Born s) (hjob : ∀ p, (s'.thread p).job = (s.thread p).job)
    (hirq : s'.irq = s.irq)
    (hused : ∀ j, (s.proc j).state = .USED → (s'.proc j).state = .USED) : Born s' := by
  refine h.same (fun p => .inl (by rw [hjob])) hused fun d b hb => ?_
  rw [hirq] at hb
  exact h.handler d b hb

theorem Born.setIrq {o : Option Job} (h : Born s) (ho : ∀ b, o = some b → b.wakes = true) :
    Born { s with irq := update s.irq c o } := by
  refine ⟨h.used, h.starter, fun d b hb => ?_⟩
  dsimp only at hb
  by_cases hdc : d = c
  · rw [hdc, update_self] at hb
    exact ho b hb
  · rw [update_of_ne hdc] at hb
    exact h.handler d b hb

theorem used_update {proc : Fin NPROC → Proc} {j : Fin NPROC} {x : Proc}
    (hx : (proc j).state = .USED → x.state = .USED) (k : Fin NPROC)
    (hk : (proc k).state = .USED) : (update proc j x k).state = .USED := by
  by_cases hkj : k = j
  · subst hkj
    rw [update_self]
    exact hx hk
  · rw [update_of_ne hkj]
    exact hk

theorem job_update {thread : Fin NPROC → Thread} {p : Fin NPROC} {m : Mode} (q : Fin NPROC) :
    (update thread p { thread p with mode := m } q).job = (thread q).job := by
  by_cases hqp : q = p
  · rw [hqp, update_self]
  · rw [update_of_ne hqp]

theorem not_used {x : Proc} {st : ProcState} {P : Prop} (h : x.state = st) (hst : st ≠ .USED)
    (hx : x.state = .USED) : P :=
  absurd (h.symm.trans hx) hst

end Births

theorem Born.step {s s' : Kernel} {l : KLabel} (h : Born s) (hc : Ctl s) (ht : Tab s)
    (hstep : KStep s l s') : Born s' := by
  have hself : ∀ {c p m}, s.InMode c p m → m.Allows (s.proc p).state := fun hp =>
    (ht.running hc hp).1
  -- only `allocproc` makes an entry `USED`, and only `fork` goes on from there
  cases hstep with
  | pick c i _ hi =>
    exact h.modeMove (fun _ => rfl) rfl (used_update (not_used hi (by simp)))
  | yieldSet _ _ hp | sleepSet _ _ _ _ hp | exitSet _ _ _ _ hp =>
    exact h.modeMove job_update rfl (used_update (not_used (hself hp) (by simp)))
  | sleepTidy c p chan l _ => exact h.modeMove job_update rfl (used_update id)
  | sleepUnlock c p l hp =>
    refine h.same (fun q => ?_) (fun _ hj => hj) h.handler
    by_cases hqp : q = p
    · refine .inr ?_
      simp only [hqp, Kernel.setThread, update_self]
      rfl
    · refine .inl ?_
      simp only [Kernel.setThread, Kernel.setPlock, update_of_ne hqp]
  | sleepDone c p l hp hjob _ =>
    exact h.jobMove (.at .idle) hp.job_eq rfl rfl (.inr rfl) (fun _ => rfl) fun _ hj => hj
  | acquire c l hj _ =>
    exact h.jobMove (.at .idle) hj rfl rfl (.inr rfl) (fun _ => rfl) fun _ hj => hj
  | kill c p pid hp =>
    exact h.procMove (.at (.want (.kill pid) 0)) hp.toInMode rfl rfl rfl fun q j _ hj => h.used q j hj
  | fork c p hp =>
    exact h.procMove (.at (.want .alloc 0)) hp.toInMode rfl rfl rfl fun q j _ hj => h.used q j hj
  | wait c p hp =>
    exact h.procMove (.at (.want .wait 0)) hp.toInMode rfl rfl rfl fun q j _ hj => h.used q j hj
  | visit c v j hj _ hfree =>
    refine h.jobMove (.hold v j) hj rfl rfl (.inl ?_) (fun hwakes => ?_) fun _ hj => hj
    · cases v <;> rfl
    · cases v <;> first | rfl | cases hwakes
  | woken c chan j hj hsleep =>
    exact h.jobMove (.wantTick chan j) hj rfl rfl (.inr rfl) (fun _ => rfl)
      (used_update (not_used hsleep.1 (by simp)))
  | tickAcquire c chan j hj _ =>
    exact h.jobMove (.holdTick chan j) hj rfl rfl (.inr rfl) (fun _ => rfl) fun _ hj => hj
  | tickRelease c chan j hj =>
    exact h.jobMove (.drop j (.want (.wakeup chan) (j + 1))) hj rfl rfl (.inr rfl) (fun _ => rfl)
      (used_update id)
  | killed c pid j hj _ =>
    refine h.jobMove (.drop j .idle) hj rfl rfl (.inr rfl) (fun _ => rfl)
      (used_update fun hu => ?_)
    exact (if_neg (by rw [hu]; simp)).trans hu
  | cleared c j hj =>
    exact h.jobMove (.at (.want .alloc (j + 1))) hj rfl rfl (.inr rfl) id (used_update id)
  | allocFail c j hj hu =>
    exact h.jobMove (.drop j .idle) hj rfl rfl (.inr rfl) (fun _ => rfl)
      (used_update (not_used hu (by simp)))
  | allocFound c j hj hu => exact h.alloc hc ht hj hu
  | started c j hj => exact h.started hj
  | reaped c j hj hz =>
    exact h.jobMove (.drop j .idle) hj rfl rfl (.inr rfl) (fun _ => rfl)
      (used_update (not_used hz (by simp)))
  | dropped c j pt hj => exact h.jobMove (.at pt) hj rfl rfl (.inl rfl) id fun _ hj => hj
  | interrupt c _ _ => exact h.setIrq (o := some (.at .idle)) (by simp [Job.wakes, Point.wakes])
  | endInterrupt c _ _ => exact h.setIrq (o := none) (by simp)
  | _ => first
    | exact h.modeMove (fun _ => rfl) rfl fun _ hj => hj
    | exact h.modeMove job_update rfl fun _ hj => hj
    | have hj := ‹s.job _ = some _›
      exact h.jobMove _ hj rfl rfl (.inr rfl) (fun _ => rfl) fun _ hj => hj
    | have hj := ‹s.job _ = some _›
      exact h.jobMove _ hj rfl rfl (.inr rfl) id fun _ hj => hj

/-- What each CPU is doing fits the locks it holds, the process table fits the CPUs, and `fork` owns
the entry it fills. -/
structure HartInv (s : Kernel) : Prop where
  ctl : Ctl s
  tab : Tab s
  born : Born s

theorem hartInv_of_reachable {s : Kernel} (h : Reachable kernelMachine s) : HartInv s :=
  h.invariant (fun _ hinit => hinit ▸ ⟨ctl_boot, tab_boot, born_boot⟩) fun _ _ _ _ hi hstep =>
    ⟨hi.ctl.step hstep hi.tab.point fun _ => hi.tab.out_of_unused, hi.tab.step hi.ctl hi.born hstep,
      hi.born.step hi.ctl hi.tab hstep⟩

/-! ## The CPU of a process -/

section Proc

variable {s s' : Kernel} {p : Fin NPROC}

/-- `c->proc` is the process on whose stack the CPU runs, or one that its scheduler is about to
run or has just run, and whose lock it holds. -/
theorem HartInv.cproc_cases (h : HartInv s) {c : Hart} (hc : s.cproc c = some p) :
    s.stack c = some p ∨ s.base c = some p ∧ (s.thread p).mode.out = true := by
  rw [h.ctl.cproc] at hc
  cases hsched : s.sched c with
  | away i =>
    rw [hsched] at hc
    cases hc
    exact .inl ((h.ctl.stack c p).mpr hsched)
  | switch i =>
    rw [hsched] at hc
    cases hc
    exact .inr ⟨(h.ctl.base_of_switch hsched).2, (h.tab.switch c p hsched).2⟩
  | back i =>
    rw [hsched] at hc
    cases hc
    exact .inr ⟨h.ctl.base_of_back hsched, h.ctl.back c p hsched⟩
  | _ => rw [hsched] at hc; cases hc

theorem HartInv.locked (h : HartInv s) {c : Hart} (hc : s.base c = some p) : s.plock p = some c :=
  (h.ctl.lock c p).mpr (h.ctl.entry_of_base hc).2

theorem HartInv.cproc_inj (h : HartInv s) {c d : Hart} (hc : s.cproc c = some p)
    (hd : s.cproc d = some p) : c = d := by
  -- the stacks tell running CPUs apart, the lock the schedulers, and whether the process is on
  -- a CPU the ones from the others
  rcases h.cproc_cases hc with hcs | ⟨hcb, hout⟩ <;> rcases h.cproc_cases hd with hds | ⟨hdb, hout'⟩
  · exact h.ctl.unique c d p hcs hds
  · exact absurd hcs (h.ctl.stack_ne hout' c)
  · exact absurd hds (h.ctl.stack_ne hout d)
  · have := (h.locked hcb).symm.trans (h.locked hdb)
    exact Option.some.inj this

theorem HartInv.cproc_ne (h : HartInv s) (hout : (s.thread p).mode.out = true)
    (hfree : s.plock p = none) (c : Hart) : s.cproc c ≠ some p := by
  intro hc
  rcases h.cproc_cases hc with hcs | ⟨hcb, -⟩
  · exact h.ctl.stack_ne hout c hcs
  · rw [h.locked hcb] at hfree
    cases hfree

/-- While `p->lock` is free, the process is not inside `sched` and nobody is about to run it. -/
theorem HartInv.settled (h : HartInv s) (hfree : s.plock p = none) :
    (s.thread p).mode.Allows (s.proc p).state ∧ (s.thread p).mode.isOwn = false := by
  have hown : (s.thread p).mode.isOwn = false := by
    by_contra hown
    obtain ⟨d, -, hbase⟩ := h.ctl.base_of_own (by simpa using hown)
    rw [h.locked hbase] at hfree
    cases hfree
  refine ⟨?_, hown⟩
  rcases h.tab.state p with hallows | ⟨d, hd⟩
  · exact hallows
  · rw [h.locked (h.ctl.base_of_switch hd).2] at hfree
    cases hfree

theorem Mode.Allows.running {m : Mode} (h : m.Allows .RUNNING) : m.out = false := by
  cases m with
  | away r => cases r <;> simp [Mode.Allows, Away.left, Away.after] at h
  | _ => rfl

theorem Mode.Allows.waiting {m : Mode} {st : ProcState} (h : m.Allows st) (hm : m.isOwn = false)
    (hst : st = .RUNNABLE ∨ st = .SLEEPING) : m.out = true := by
  cases m with
  | away r => rfl
  | job | want => rcases hst with rfl | rfl <;> cases h
  | _ => cases hm

/-- Only `wait` makes a free entry of a `ZOMBIE`. -/
theorem KStep.reaps {l : KLabel} (hstep : KStep s l s') (hz : (s.proc p).state = .ZOMBIE)
    (hu : (s'.proc p).state = .UNUSED) : ∃ c, s.job c = some (.hold .wait p) := by
  have hset : ∀ {j : Fin NPROC} {x : Proc}, s'.proc = update s.proc j x →
      p = j ∧ x.state = .UNUSED := by
    intro j x hproc
    rw [hproc] at hu
    by_cases hpj : p = j
    · rw [hpj, update_self] at hu
      exact ⟨hpj, hu⟩
    · rw [update_of_ne hpj, hz] at hu
      cases hu
  -- a change that keeps the state of a zombie is none of this
  have hkeep : ∀ {j : Fin NPROC} {x : Proc}, s'.proc = update s.proc j x →
      ((s.proc j).state = .ZOMBIE → x.state = .ZOMBIE) → False := by
    intro j x hproc hx
    obtain ⟨rfl, hxu⟩ := hset hproc
    cases (hx hz).symm.trans hxu
  cases hstep with
  | pick | yieldSet | sleepSet | exitSet | woken | allocFound | started => cases (hset rfl).2
  | sleepTidy | tickRelease | cleared => exact (hkeep rfl id).elim
  | killed c pid j _ _ =>
    refine (hkeep rfl fun hj => ?_).elim
    exact (if_neg (by rw [hj]; simp)).trans hj
  | allocFail c j _ hj =>
    obtain ⟨rfl, -⟩ := hset rfl
    cases hz.symm.trans hj
  | reaped c j hj _ =>
    obtain ⟨rfl, -⟩ := hset rfl
    exact ⟨c, hj⟩
  | _ => cases hz.symm.trans hu

end Proc

/-- **A process runs on at most one CPU**, in every state that any interleaving of `scheduler`,
`sched`, `yield`, `sleep`, `wakeup`, `kill`, `fork`, `exit` and `wait` on up to `NCPU` CPUs leads
to:

* `c->proc` of one CPU only, and of exactly one if it is `RUNNING` and its lock is free;
* of none, with its context saved, if it is `RUNNABLE` or `SLEEPING` and its lock is free;
* when `wait` frees the entry of a `ZOMBIE`, no CPU is on its kernel stack any more. -/
theorem one_hart {s : Kernel} (h : Reachable kernelMachine s) :
    (∀ p, (s.proc p).state = .RUNNING → s.plock p = none → ∃! c, s.cproc c = some p) ∧
    (∀ c d p, s.cproc c = some p → s.cproc d = some p → c = d) ∧
    (∀ p, (s.proc p).state = .RUNNABLE ∨ (s.proc p).state = .SLEEPING → s.plock p = none →
      (∀ c, s.cproc c ≠ some p) ∧ s.saved p = true) ∧
    ∀ l s' p, KStep s l s' → (s.proc p).state = .ZOMBIE → (s'.proc p).state = .UNUSED →
      ∀ c, s.stack c ≠ some p := by
  have hi := hartInv_of_reachable h
  refine ⟨fun p hrun hfree => ?_, fun c d p => hi.cproc_inj, fun p hwait hfree => ?_,
    fun l s' p hstep hz hu => ?_⟩
  · -- with its lock free it is not on its way through `sched`, so it is on a CPU
    have hout : (s.thread p).mode.out = false := (hrun ▸ (hi.settled hfree).1).running
    obtain ⟨c, hc⟩ := hi.ctl.off p hout
    have hcproc : s.cproc c = some p := by
      rw [hi.ctl.cproc, (hi.ctl.stack c p).mp hc]
      rfl
    exact ⟨c, hcproc, fun d hd => hi.cproc_inj hd hcproc⟩
  · obtain ⟨hallows, hown⟩ := hi.settled hfree
    have hout := hallows.waiting hown hwait
    refine ⟨hi.cproc_ne hout hfree, hi.tab.saved p hout ?_⟩
    rcases hwait with hst | hst <;> rw [hst] <;> simp
  · -- `wait` has the lock of the zombie, which was released only after its last `swtch`
    obtain ⟨c, hc⟩ := hstep.reaps hz hu
    obtain ⟨hallows, hown⟩ := hi.tab.visited hi.ctl hc rfl
    rw [hz] at hallows
    exact hi.ctl.stack_ne (hallows.reaped hown).unused

def initRunning : Kernel :=
  let s₁ := (bootKernel.setPlock initproc (some 1)).setSched 1 (.check initproc)
  let s₂ : Kernel :=
    { (s₁.setProc initproc { s₁.proc initproc with state := .RUNNING }).setSched 1
        (.switch initproc) with
      cproc := update s₁.cproc 1 (some initproc) }
  let s₃ : Kernel :=
    { (s₂.setMode initproc (.resumed .fork)).setSched 1 (.away initproc) with
      stack := update s₂.stack 1 (some initproc)
      saved := update s₂.saved initproc false }
  (s₃.setPlock initproc none).setMode initproc .job

theorem reachable_initRunning : Reachable kernelMachine initRunning := by
  have h0 : Reachable kernelMachine bootKernel := .start rfl
  have h1 := h0.next (KStep.scan 1 initproc ⟨rfl, rfl, rfl⟩ rfl)
  have h2 := h1.next (KStep.pick 1 initproc ⟨rfl, rfl, rfl⟩ rfl)
  have h3 := h2.next (KStep.switch 1 initproc .fork ⟨rfl, rfl, rfl⟩ rfl)
  exact h3.next (KStep.resume 1 initproc .fork ⟨rfl, rfl, rfl⟩ (.inr rfl))

theorem one_hart_init :
    (initRunning.proc initproc).state = .RUNNING ∧ initRunning.plock initproc = none ∧
      ∃! c, initRunning.cproc c = some initproc :=
  ⟨rfl, rfl, (one_hart reachable_initRunning).1 initproc rfl rfl⟩

end Xv6
