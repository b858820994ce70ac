import Xv6.Proc.Hart

/-!
# Which CPU holds which process

From where a CPU is one can read off the one `p->lock` it can hold (`Kernel.entry`). What one CPU does
without a `swtch`, the others do not notice (`Ctl.move`): every step but the two kinds of `swtch` is a
case of that.
-/

namespace Xv6

open Machines
open Function (update update_eq_self update_of_ne update_self)

def Job.entry : Job → Option (Fin NPROC)
  | .at _ => none
  | .hold _ j | .wantTick _ j | .holdTick _ j | .drop j _ => some j

namespace Mode

def isOwn : Mode → Bool
  | .own _ | .dozed _ _ | .zombie _ | .leaving _ | .resumed _ | .tidied _ => true
  | .job | .want _ | .away _ => false

def out : Mode → Bool
  | .away _ => true
  | .job | .want _ | .own _ | .dozed _ _ | .zombie _ | .leaving _ | .resumed _ | .tidied _ => false

end Mode

/-- The entry whose lock process `p` holds at this point. -/
def Thread.entry (t : Thread) (p : Fin NPROC) : Option (Fin NPROC) :=
  match t.mode with
  | .job => t.job.entry
  | m => if m.isOwn then some p else none

namespace Sched

def entry : Sched → Option (Fin NPROC)
  | .check i | .switch i | .back i | .rel i => some i
  | .scan _ | .away _ => none

def proc : Sched → Option (Fin NPROC)
  | .switch i | .away i | .back i => some i
  | .scan _ | .check _ | .rel _ => none

end Sched

namespace Kernel

variable (s : Kernel)

/-- The lock held by what runs on the CPU, its interrupt handler aside. -/
def base (c : Hart) : Option (Fin NPROC) :=
  match s.stack c with
  | some p => (s.thread p).entry p
  | none => (s.sched c).entry

def entry (c : Hart) : Option (Fin NPROC) :=
  match s.irq c with
  | some b => b.entry
  | none => s.base c

end Kernel

/-- The locks, `c->proc` and the kernel stacks agree with where each CPU is. `p->lock` goes from the
scheduler to the process it switches to, and back. -/
structure Ctl (s : Kernel) : Prop where
  lock : ∀ c j, s.plock j = some c ↔ s.entry c = some j
  irq : ∀ c, s.irq c ≠ none → s.base c = none
  stack : ∀ c p, s.stack c = some p ↔ s.sched c = .away p
  cproc : ∀ c, s.cproc c = (s.sched c).proc
  unique : ∀ c d p, s.stack c = some p → s.stack d = some p → c = d
  on : ∀ c p, s.stack c = some p → (s.thread p).mode.out = false
  off : ∀ p, (s.thread p).mode.out = false → ∃ c, s.stack c = some p
  back : ∀ c p, s.sched c = .back p → (s.thread p).mode.out = true

theorem ctl_boot : Ctl bootKernel where
  lock _ _ := by simp [bootKernel, Kernel.entry, Kernel.base, Sched.entry]
  irq _ h := absurd rfl h
  stack _ _ := by simp [bootKernel]
  cproc _ := rfl
  unique := by simp [bootKernel]
  on := by simp [bootKernel]
  off p hp := by
    by_cases hi : p = initproc <;> simp [bootKernel, hi, Mode.out] at hp
  back := by simp [bootKernel]

/-- How the locks change when the lock CPU `c` holds becomes another. -/
inductive Handover (c : Hart) (pl : Fin NPROC → Option Hart) :
    (Fin NPROC → Option Hart) → Option (Fin NPROC) → Option (Fin NPROC) → Prop where
  | keep (e : Option (Fin NPROC)) : Handover c pl pl e e
  | take (j : Fin NPROC) (hfree : pl j = none) :
      Handover c pl (update pl j (some c)) none (some j)
  | drop (j : Fin NPROC) : Handover c pl (update pl j none) (some j) none

section Moves

variable {s s' : Kernel} {c : Hart}

theorem Handover.lock (h : ∀ d j, s.plock j = some d ↔ s.entry d = some j)
    (hh : Handover c s.plock s'.plock (s.entry c) (s'.entry c))
    (hother : ∀ d, d ≠ c → s'.entry d = s.entry d) (d : Hart) (j : Fin NPROC) :
    s'.plock j = some d ↔ s'.entry d = some j := by
  generalize hpl : s'.plock = pl' at hh
  generalize he : s.entry c = e at hh
  generalize he' : s'.entry c = e' at hh
  cases hh with
  | keep =>
    by_cases hdc : d = c
    · rw [hdc, he', ← he]
      exact h c j
    · rw [hother d hdc]
      exact h d j
  | take k hfree =>
    by_cases hjk : j = k
    · subst hjk
      rw [update_self]
      by_cases hdc : d = c
      · simp [hdc, he']
      · -- nobody else held the lock
        rw [hother d hdc, ← h d j, hfree]
        simp [Ne.symm hdc]
    · rw [update_of_ne hjk]
      by_cases hdc : d = c
      · rw [hdc, h c j, he, he']
        simp [Ne.symm hjk]
      · rw [hother d hdc]
        exact h d j
  | drop k =>
    have hk : s.plock k = some c := (h c k).mpr he
    by_cases hjk : j = k
    · subst hjk
      rw [update_self]
      by_cases hdc : d = c
      · simp [hdc, he']
      · rw [hother d hdc, ← h d j, hk]
        simp [Ne.symm hdc]
    · rw [update_of_ne hjk]
      by_cases hdc : d = c
      · rw [hdc, h c j, he, he']
        simp [Ne.symm hjk]
      · rw [hother d hdc]
        exact h d j

variable {d : Hart}

/-- Threads that no other CPU runs may change without that CPU noticing. -/
theorem Kernel.base_congr (hsched : s'.sched d = s.sched d) (hstack : s'.stack d = s.stack d)
    (hthread : ∀ p, s.stack d = some p → s'.thread p = s.thread p) : s'.base d = s.base d := by
  unfold Kernel.base
  rw [hstack]
  cases hd : s.stack d with
  | none => simp only [hsched]
  | some p => simp only [hthread p hd]

theorem Kernel.entry_congr (hirq : s'.irq d = s.irq d) (hbase : s'.base d = s.base d) :
    s'.entry d = s.entry d := by
  unfold Kernel.entry
  rw [hirq, hbase]

variable {b : Job}

theorem Kernel.entry_of_irq (h : s.irq c = some b) : s.entry c = b.entry := by
  unfold Kernel.entry
  rw [h]

variable {p : Fin NPROC}

theorem Kernel.entry_of_stack (hirq : s.irq c = none) (hstack : s.stack c = some p) :
    s.entry c = (s.thread p).entry p := by
  unfold Kernel.entry Kernel.base
  rw [hirq, hstack]

theorem Kernel.InSched.entry {pc : Sched} (h : s.InSched c pc) : s.entry c = pc.entry := by
  unfold Kernel.entry Kernel.base
  rw [h.irq, h.stack, h.sched]

/-! ### What runs on the CPU moves on -/

theorem Ctl.move (h : Ctl s) (hstack : s'.stack = s.stack)
    (hout : ∀ p, (s'.thread p).mode.out = (s.thread p).mode.out)
    (hother : ∀ d, d ≠ c → s'.irq d = s.irq d ∧ s'.base d = s.base d)
    (hirq : s'.irq c ≠ none → s'.base c = none)
    (hsched : ∀ d p, s'.sched d = .away p ↔ s.sched d = .away p)
    (hback : ∀ d p, s'.sched d = .back p → s.sched d = .back p)
    (hcproc : ∀ d, s'.cproc d = (s'.sched d).proc)
    (hh : Handover c s.plock s'.plock (s.entry c) (s'.entry c)) : Ctl s' where
  lock := Handover.lock h.lock hh fun d hdc =>
    Kernel.entry_congr (hother d hdc).1 (hother d hdc).2
  irq d hd := by
    by_cases hdc : d = c
    · rw [hdc] at hd ⊢
      exact hirq hd
    · rw [(hother d hdc).1] at hd
      rw [(hother d hdc).2]
      exact h.irq d hd
  stack d p := by
    rw [hstack, hsched]
    exact h.stack d p
  cproc := hcproc
  unique := by
    rw [hstack]
    exact h.unique
  on d p hp := by
    rw [hstack] at hp
    rw [hout]
    exact h.on d p hp
  off p hp := by
    rw [hout] at hp
    rw [hstack]
    exact h.off p hp
  back d p hd := by
    rw [hout]
    exact h.back d p (hback d p hd)

theorem Ctl.threadMove {t : Thread} (h : Ctl s) (hirq : s.irq c = none)
    (hstack : s.stack c = some p) (hthread : s'.thread = update s.thread p t)
    (ht : t.mode.out = false) (hirq' : s'.irq = s.irq) (hstack' : s'.stack = s.stack)
    (hsched' : s'.sched = s.sched) (hcproc' : s'.cproc = s.cproc)
    (hh : Handover c s.plock s'.plock ((s.thread p).entry p) (t.entry p)) : Ctl s' := by
  have hself : s'.thread p = t := by rw [hthread, update_self]
  have hentry' : s'.entry c = t.entry p := by
    rw [Kernel.entry_of_stack (by rw [hirq', hirq]) (by rw [hstack', hstack]), hself]
  refine h.move (c := c) hstack' (fun q => ?_) (fun d hdc => ⟨by rw [hirq'], ?_⟩)
    (fun hne => absurd (by rw [hirq', hirq]) hne) (fun d q => by rw [hsched'])
    (fun d q hd => by rw [hsched'] at hd; exact hd) (fun d => by rw [hcproc', hsched', h.cproc d]) ?_
  · by_cases hqp : q = p
    · rw [hqp, hself, ht, h.on c p hstack]
    · rw [hthread, update_of_ne hqp]
  · refine Kernel.base_congr (by rw [hsched']) (by rw [hstack']) fun q hq => ?_
    have hqp : q ≠ p := by
      rintro rfl
      exact hdc (h.unique d c q hq hstack)
    rw [hthread, update_of_ne hqp]
  · rw [Kernel.entry_of_stack hirq hstack, hentry']
    exact hh

theorem Ctl.irqMove {b' : Job} (h : Ctl s) (hirq : s.irq c = some b)
    (hirq' : s'.irq = update s.irq c (some b')) (hthread' : s'.thread = s.thread)
    (hstack' : s'.stack = s.stack) (hsched' : s'.sched = s.sched) (hcproc' : s'.cproc = s.cproc)
    (hh : Handover c s.plock s'.plock b.entry b'.entry) : Ctl s' := by
  have hbase : ∀ d, s'.base d = s.base d := fun d =>
    Kernel.base_congr (by rw [hsched']) (by rw [hstack']) fun _ _ => by rw [hthread']
  have hself : s'.irq c = some b' := by rw [hirq', update_self]
  refine h.move (c := c) hstack' (fun q => by rw [hthread'])
    (fun d hdc => ⟨by rw [hirq', update_of_ne hdc], hbase d⟩) (fun _ => ?_)
    (fun d q => by rw [hsched']) (fun d q hd => by rw [hsched'] at hd; exact hd)
    (fun d => by rw [hcproc', hsched', h.cproc d]) ?_
  · rw [hbase]
    exact h.irq c (by rw [hirq]; simp)
  · rw [Kernel.entry_of_irq hirq, Kernel.entry_of_irq hself]
    exact hh

theorem Kernel.job_cases (h : s.job c = some b) :
    s.irq c = some b ∨ ∃ p, s.InMode c p .job ∧ (s.thread p).job = b := by
  unfold Kernel.job at h
  split at h
  · rename_i b' hirq
    cases h
    exact .inl hirq
  · rename_i hirq
    split at h
    · rename_i p hstack
      split at h
      · rename_i hmode
        cases h
        exact .inr ⟨p, ⟨hirq, hstack, hmode⟩, rfl⟩
      · cases h
    · cases h

theorem Kernel.InMode.setJob_irq {m : Mode} (h : s.InMode c p m) : (s.setJob c b).irq = s.irq := by
  simp only [Kernel.setJob, h.irq]

theorem Kernel.InMode.setJob_thread {m : Mode} (h : s.InMode c p m) :
    (s.setJob c b).thread = update s.thread p { s.thread p with job := b } := by
  simp only [Kernel.setJob, h.irq, h.stack]

theorem Ctl.jobMove (b' : Job) (h : Ctl s) (hb : s.job c = some b)
    (hirq' : s'.irq = (s.setJob c b').irq) (hthread' : s'.thread = (s.setJob c b').thread)
    (hstack' : s'.stack = s.stack) (hsched' : s'.sched = s.sched) (hcproc' : s'.cproc = s.cproc)
    (hh : Handover c s.plock s'.plock b.entry b'.entry) : Ctl s' := by
  rcases Kernel.job_cases hb with hirq | ⟨p, hp, hjob⟩
  · refine h.irqMove hirq ?_ ?_ hstack' hsched' hcproc' hh
    · rw [hirq']
      simp only [Kernel.setJob, hirq]
    · rw [hthread']
      simp only [Kernel.setJob, hirq]
  · refine h.threadMove (t := { s.thread p with job := b' }) hp.irq hp.stack ?_ ?_ ?_ hstack' hsched'
      hcproc' ?_
    · rw [hthread', hp.setJob_thread]
    · show (s.thread p).mode.out = false
      rw [hp.mode]
      rfl
    · rw [hirq', hp.setJob_irq]
    · have hentry : (s.thread p).entry p = b.entry := by simp [Thread.entry, hp.mode, hjob]
      have hentry' : ({ s.thread p with job := b' } : Thread).entry p = b'.entry := by
        simp [Thread.entry, hp.mode]
      rw [hentry, hentry']
      exact hh

theorem Ctl.schedMove {pc pc' : Sched} (h : Ctl s) (hpc : s.InSched c pc)
    (hsched' : s'.sched = update s.sched c pc') (hpc' : ∀ i, pc' ≠ .away i ∧ pc' ≠ .back i)
    (hirq' : s'.irq = s.irq) (hthread' : s'.thread = s.thread) (hstack' : s'.stack = s.stack)
    (hcproc' : s'.cproc = update s.cproc c pc'.proc)
    (hh : Handover c s.plock s'.plock pc.entry pc'.entry) : Ctl s' := by
  have hself : s'.InSched c pc' :=
    ⟨by rw [hirq', hpc.irq], by rw [hstack', hpc.stack], by rw [hsched', update_self]⟩
  refine h.move (c := c) hstack' (fun q => by rw [hthread']) (fun d hdc => ⟨by rw [hirq'], ?_⟩)
    (fun hne => absurd hself.irq hne) (fun d q => ?_) (fun d q hd => ?_) (fun d => ?_) ?_
  · exact Kernel.base_congr (by rw [hsched', update_of_ne hdc]) (by rw [hstack'])
      fun _ _ => by rw [hthread']
  · by_cases hdc : d = c
    · rw [hdc, hself.sched, ← h.stack c q, hpc.stack]
      simp [hpc']
    · rw [hsched', update_of_ne hdc]
  · by_cases hdc : d = c
    · rw [hdc, hself.sched] at hd
      exact absurd hd (hpc' q).2
    · rw [hsched', update_of_ne hdc] at hd
      exact hd
  · by_cases hdc : d = c
    · rw [hdc, hcproc', update_self, hself.sched]
    · rw [hcproc', hsched', update_of_ne hdc, update_of_ne hdc, h.cproc d]
  · rw [hpc.entry, hself.entry]
    exact hh

variable {j : Fin NPROC}

theorem Ctl.entry_of_base (h : Ctl s) (hj : s.base c = some j) :
    s.irq c = none ∧ s.entry c = some j := by
  have hirq : s.irq c = none := by
    by_contra hne
    rw [h.irq c hne] at hj
    cases hj
  refine ⟨hirq, ?_⟩
  unfold Kernel.entry
  rw [hirq]
  exact hj

/-- Who holds `p->lock` is the only CPU that can be inside the parts of `sched` and of the
scheduler that hold it. -/
theorem Ctl.sole (h : Ctl s) (hc : s.entry c = some j) (hd : s.base d = some j) :
    d = c ∧ s.irq c = none := by
  obtain ⟨hirq, hentry⟩ := h.entry_of_base hd
  have hdc : d = c := by
    have h1 := (h.lock d j).mpr hentry
    have h2 := (h.lock c j).mpr hc
    rw [h1] at h2
    exact Option.some.inj h2
  exact ⟨hdc, hdc ▸ hirq⟩

theorem Ctl.base_of_sched (h : Ctl s) (haway : ∀ q, s.sched d ≠ .away q)
    (hd : (s.sched d).entry = some p) : s.stack d = none ∧ s.base d = some p := by
  have hstack : s.stack d = none := by
    cases hs : s.stack d with
    | none => rfl
    | some q => exact absurd ((h.stack d q).mp hs) (haway q)
  refine ⟨hstack, ?_⟩
  unfold Kernel.base
  rw [hstack]
  exact hd

theorem Ctl.base_of_switch (h : Ctl s) (hd : s.sched d = .switch p) :
    s.stack d = none ∧ s.base d = some p :=
  h.base_of_sched (by simp [hd]) (by rw [hd]; rfl)

theorem Ctl.base_of_back (h : Ctl s) (hd : s.sched d = .back p) : s.base d = some p :=
  (h.base_of_sched (by simp [hd]) (by rw [hd]; rfl)).2

variable {i : Fin NPROC}

variable (h : Ctl s)

include h

theorem Ctl.stack_ne (hout : (s.thread i).mode.out = true) (d : Hart) :
    s.stack d ≠ some i := by
  intro hd
  rw [h.on d i hd] at hout
  cases hout

/-- `swtch` to a process that waits for it: the lock the scheduler took is now the process's. -/
theorem Ctl.switch {r : Away} (hpc : s.InSched c (.switch i)) (hctx : (s.thread i).mode = .away r)
    (hplock : s'.plock = s.plock) (hirq : s'.irq = s.irq)
    (hthread : s'.thread = update s.thread i { s.thread i with mode := .resumed r })
    (hsched : s'.sched = update s.sched c (.away i)) (hstack : s'.stack = update s.stack c (some i))
    (hcproc : s'.cproc = s.cproc) : Ctl s' := by
  have hfar : ∀ d, s.stack d ≠ some i := h.stack_ne (by rw [hctx]; rfl)
  have hself : s'.thread i = { s.thread i with mode := .resumed r } := by
    rw [hthread, update_self]
  have hstackc : s'.stack c = some i := by rw [hstack, update_self]
  have hbase : ∀ d, d ≠ c → s'.base d = s.base d := by
    intro d hdc
    refine Kernel.base_congr (by rw [hsched, update_of_ne hdc])
      (by rw [hstack, update_of_ne hdc]) fun q hq => ?_
    have hqi : q ≠ i := by
      rintro rfl
      exact hfar d hq
    rw [hthread, update_of_ne hqi]
  constructor
  case lock =>
    refine Handover.lock (c := c) h.lock ?_ fun d hdc =>
      Kernel.entry_congr (by rw [hirq]) (hbase d hdc)
    have hentry : s'.entry c = some i := by
      rw [Kernel.entry_of_stack (by rw [hirq, hpc.irq]) hstackc, hself]
      rfl
    rw [hpc.entry, hentry, hplock]
    exact .keep _
  case irq =>
    intro d hd
    rw [hirq] at hd
    have hdc : d ≠ c := by
      rintro rfl
      exact hd hpc.irq
    rw [hbase d hdc]
    exact h.irq d hd
  case stack =>
    intro d p
    by_cases hdc : d = c
    · rw [hdc, hstackc, hsched, update_self]
      simp
    · rw [hstack, hsched, update_of_ne hdc, update_of_ne hdc]
      exact h.stack d p
  case cproc =>
    intro d
    rw [hcproc, h.cproc d]
    by_cases hdc : d = c
    · rw [hdc, hpc.sched, hsched, update_self]
      rfl
    · rw [hsched, update_of_ne hdc]
  case unique =>
    intro d e p hd he
    by_cases hdc : d = c <;> by_cases hec : e = c
    · rw [hdc, hec]
    · rw [hdc, hstackc] at hd
      rw [hstack, update_of_ne hec, ← hd] at he
      exact absurd he (hfar e)
    · rw [hec, hstackc] at he
      rw [hstack, update_of_ne hdc, ← he] at hd
      exact absurd hd (hfar d)
    · rw [hstack, update_of_ne hdc] at hd
      rw [hstack, update_of_ne hec] at he
      exact h.unique d e p hd he
  case on =>
    intro d p hd
    by_cases hdc : d = c
    · rw [hdc, hstackc] at hd
      cases hd
      rw [hself]
      rfl
    · rw [hstack, update_of_ne hdc] at hd
      have hpi : p ≠ i := by
        rintro rfl
        exact hfar d hd
      rw [hthread, update_of_ne hpi]
      exact h.on d p hd
  case off =>
    intro p hp
    by_cases hpi : p = i
    · exact ⟨c, hpi ▸ hstackc⟩
    · rw [hthread, update_of_ne hpi] at hp
      obtain ⟨d, hd⟩ := h.off p hp
      have hdc : d ≠ c := by
        rintro rfl
        rw [hpc.stack] at hd
        cases hd
      exact ⟨d, by rw [hstack, update_of_ne hdc, hd]⟩
  case back =>
    intro d p hd
    have hdc : d ≠ c := by
      rintro rfl
      rw [hsched, update_self] at hd
      cases hd
    rw [hsched, update_of_ne hdc] at hd
    -- the lock is with one of the two schedulers only
    have hpi : p ≠ i := by
      rintro rfl
      exact hdc (h.sole hpc.entry (h.base_of_back hd)).1
    rw [hthread, update_of_ne hpi]
    exact h.back d p hd

theorem Ctl.leave {r : Away} (hp : s.InMode c p (.leaving r)) (hplock : s'.plock = s.plock)
    (hirq : s'.irq = s.irq)
    (hthread : s'.thread = update s.thread p { s.thread p with mode := .away r })
    (hsched : s'.sched = update s.sched c (.back p)) (hstack : s'.stack = update s.stack c none)
    (hcproc : s'.cproc = s.cproc) : Ctl s' := by
  have hself : s'.InSched c (.back p) :=
    ⟨by rw [hirq, hp.irq], by rw [hstack, update_self],
      by rw [hsched, update_self]⟩
  -- no other CPU is on the stack of `p`, so its change of mode is seen on `c` only
  have hne : ∀ d q, d ≠ c → s.stack d = some q → q ≠ p := by
    rintro d q hdc hq rfl
    exact hdc (h.unique d c q hq hp.stack)
  have hbase : ∀ d, d ≠ c → s'.base d = s.base d := fun d hdc =>
    Kernel.base_congr (by rw [hsched, update_of_ne hdc])
      (by rw [hstack, update_of_ne hdc]) fun q hq => by
        rw [hthread, update_of_ne (hne d q hdc hq)]
  constructor
  case lock =>
    refine Handover.lock (c := c) h.lock ?_ fun d hdc =>
      Kernel.entry_congr (by rw [hirq]) (hbase d hdc)
    have hentry : s.entry c = some p := by
      rw [Kernel.entry_of_stack hp.irq hp.stack]
      simp [Thread.entry, hp.mode, Mode.isOwn]
    -- the same lock, now for the scheduler
    rw [hentry, hself.entry, hplock]
    exact .keep _
  case irq =>
    intro d hd
    rw [hirq] at hd
    have hdc : d ≠ c := by
      rintro rfl
      exact hd hp.irq
    rw [hbase d hdc]
    exact h.irq d hd
  case stack =>
    intro d q
    by_cases hdc : d = c
    · rw [hdc, hself.stack, hself.sched]
      simp
    · rw [hstack, hsched, update_of_ne hdc, update_of_ne hdc]
      exact h.stack d q
  case cproc =>
    intro d
    rw [hcproc, h.cproc d]
    by_cases hdc : d = c
    · rw [hdc, (h.stack c p).mp hp.stack, hself.sched]
      rfl
    · rw [hsched, update_of_ne hdc]
  case unique =>
    intro d e q hd he
    have hsame : ∀ x, s'.stack x = some q → s.stack x = some q := by
      intro x hx
      by_cases hxc : x = c
      · rw [hxc, hself.stack] at hx
        cases hx
      · rw [hstack, update_of_ne hxc] at hx
        exact hx
    exact h.unique d e q (hsame d hd) (hsame e he)
  case on =>
    intro d q hd
    by_cases hdc : d = c
    · rw [hdc, hself.stack] at hd
      cases hd
    · rw [hstack, update_of_ne hdc] at hd
      rw [hthread, update_of_ne (hne d q hdc hd)]
      exact h.on d q hd
  case off =>
    intro q hq
    by_cases hqp : q = p
    · rw [hqp, hthread, update_self] at hq
      cases hq
    · rw [hthread, update_of_ne hqp] at hq
      obtain ⟨d, hd⟩ := h.off q hq
      have hdc : d ≠ c := by
        rintro rfl
        rw [hp.stack] at hd
        exact hqp (Option.some.inj hd).symm
      exact ⟨d, by rw [hstack, update_of_ne hdc, hd]⟩
  case back =>
    intro d q hd
    by_cases hqp : q = p
    · rw [hqp, hthread, update_self]
      rfl
    · rw [hthread, update_of_ne hqp]
      refine h.back d q ?_
      by_cases hdc : d = c
      · rw [hdc, hself.sched] at hd
        cases hd
        exact absurd rfl hqp
      · rw [hsched, update_of_ne hdc] at hd
        exact hd

theorem Ctl.setOut {t : Thread} (hout : (s.thread i).mode.out = true) (ht : t.mode.out = true)
    (hthread : s'.thread = update s.thread i t) (hplock : s'.plock = s.plock)
    (hirq : s'.irq = s.irq) (hsched : s'.sched = s.sched) (hstack : s'.stack = s.stack)
    (hcproc : s'.cproc = s.cproc) : Ctl s' := by
  have hbase : ∀ d, s'.base d = s.base d := by
    intro d
    refine Kernel.base_congr (by rw [hsched]) (by rw [hstack]) fun q hq => ?_
    have hqi : q ≠ i := by
      rintro rfl
      exact h.stack_ne hout d hq
    rw [hthread, update_of_ne hqi]
  have hentry : s'.entry 0 = s.entry 0 := Kernel.entry_congr (by rw [hirq]) (hbase 0)
  refine h.move (c := 0) hstack (fun q => ?_) (fun d _ => ⟨by rw [hirq], hbase d⟩)
    (fun hne => ?_) (fun d q => by rw [hsched]) (fun d q hd => by rw [hsched] at hd; exact hd)
    (fun d => by rw [hcproc, hsched, h.cproc d]) ?_
  · by_cases hqi : q = i
    · rw [hqi, hthread, update_self, ht, hout]
    · rw [hthread, update_of_ne hqi]
  · rw [hirq] at hne
    rw [hbase]
    exact h.irq 0 hne
  · rw [hentry, hplock]
    exact .keep _

theorem Ctl.setIrq {o : Option Job} (hfree : s.Free c) (hirq : s'.irq = update s.irq c o)
    (ho : ∀ b, o = some b → b.entry = none) (hthread : s'.thread = s.thread)
    (hplock : s'.plock = s.plock) (hsched : s'.sched = s.sched) (hstack : s'.stack = s.stack)
    (hcproc : s'.cproc = s.cproc) : Ctl s' := by
  have hentry : s.entry c = none := by
    cases he : s.entry c with
    | none => rfl
    | some j => exact absurd ((h.lock c j).mpr he) (hfree.plock j)
  have hbase : ∀ d, s'.base d = s.base d := fun d =>
    Kernel.base_congr (by rw [hsched]) (by rw [hstack]) fun _ _ => by rw [hthread]
  -- what is interrupted holds no `p->lock`
  have hbasec : s.base c = none := by
    cases hc : s.irq c with
    | none =>
      unfold Kernel.entry at hentry
      rw [hc] at hentry
      exact hentry
    | some b => exact h.irq c (by rw [hc]; simp)
  have hentry' : s'.entry c = none := by
    unfold Kernel.entry
    rw [hirq, update_self]
    cases o with
    | none =>
      rw [hbase]
      exact hbasec
    | some b => exact ho b rfl
  refine h.move (c := c) hstack (fun q => by rw [hthread])
    (fun d hdc => ⟨by rw [hirq, update_of_ne hdc], hbase d⟩) (fun _ => ?_)
    (fun d q => by rw [hsched]) (fun d q hd => by rw [hsched] at hd; exact hd)
    (fun d => by rw [hcproc, hsched, h.cproc d]) ?_
  · rw [hbase]
    exact hbasec
  · rw [hentry, hentry', hplock]
    exact .keep _

theorem Ctl.keep (hplock : s'.plock = s.plock) (hirq : s'.irq = s.irq)
    (hthread : s'.thread = s.thread) (hsched : s'.sched = s.sched) (hstack : s'.stack = s.stack)
    (hcproc : s'.cproc = s.cproc) : Ctl s' := by
  have hbase : ∀ d, s'.base d = s.base d := fun d =>
    Kernel.base_congr (by rw [hsched]) (by rw [hstack]) fun _ _ => by rw [hthread]
  have hentry : ∀ d, s'.entry d = s.entry d := fun d => Kernel.entry_congr (by rw [hirq]) (hbase d)
  constructor
  case lock => exact fun d j => by rw [hplock, hentry]; exact h.lock d j
  case irq => exact fun d hd => by rw [hirq] at hd; rw [hbase]; exact h.irq d hd
  case stack => rw [hstack, hsched]; exact h.stack
  case cproc => rw [hcproc, hsched]; exact h.cproc
  case unique => rw [hstack]; exact h.unique
  case on => rw [hstack, hthread]; exact h.on
  case off => rw [hstack, hthread]; exact h.off
  case back => rw [hsched, hthread]; exact h.back

theorem Ctl.fresh {x : Proc} (hout : (s.thread j).mode.out = true) :
    Ctl ((s.setProc j x).setThread j { job := .at .idle, mode := .away .fork }) :=
  h.setOut hout rfl rfl rfl rfl rfl rfl rfl

theorem Ctl.job_setOut {x : Proc} {t : Thread} (hout : (s.thread i).mode.out = true) :
    ((s.setProc i x).setThread i t).job c = s.job c := by
  unfold Kernel.job
  cases hstack : s.stack c with
  | none => simp only [Kernel.setThread, Kernel.setProc, hstack]
  | some p =>
    have hpi : p ≠ i := by
      rintro rfl
      exact h.stack_ne hout c hstack
    simp only [Kernel.setThread, Kernel.setProc, hstack, update_of_ne hpi]

theorem Ctl.cproc_same {pc pc' : Sched} (hpc : s.InSched c pc) (hproc : pc'.proc = pc.proc) :
    s.cproc = update s.cproc c pc'.proc := by
  rw [hproc, ← hpc.sched, ← h.cproc c, update_eq_self]

theorem Ctl.modeMove {m m' : Mode} (hp : s.InMode c p m)
    (hthread : s'.thread = update s.thread p { s.thread p with mode := m' }) (hm' : m'.out = false)
    (hirq' : s'.irq = s.irq) (hstack' : s'.stack = s.stack) (hsched' : s'.sched = s.sched)
    (hcproc' : s'.cproc = s.cproc)
    (hh : Handover c s.plock s'.plock (({ s.thread p with mode := m } : Thread).entry p)
      (({ s.thread p with mode := m' } : Thread).entry p)) : Ctl s' := by
  refine h.threadMove hp.irq hp.stack hthread hm' hirq' hstack' hsched' hcproc' ?_
  have hsame : ({ s.thread p with mode := m } : Thread) = s.thread p := by
    rw [← hp.mode]
  rw [hsame] at hh
  exact hh

omit h

theorem Kernel.Idle.job_eq (h : s.Idle c p) : s.job c = some (.at .idle) := by
  simp [Kernel.job, h.irq, h.stack, h.mode, h.job]

theorem Kernel.InMode.job_eq (h : s.InMode c p .job) : s.job c = some (s.thread p).job := by
  simp [Kernel.job, h.irq, h.stack, h.mode]

theorem Kernel.entry_of_job (h : s.job c = some b) : s.entry c = b.entry := by
  rcases Kernel.job_cases h with hirq | ⟨p, hp, hjob⟩
  · exact Kernel.entry_of_irq hirq
  · rw [Kernel.entry_of_stack hp.irq hp.stack]
    simp [Thread.entry, hp.mode, hjob]

theorem Ctl.base_of_own (h : Ctl s) (hp : (s.thread p).mode.isOwn = true) :
    ∃ d, s.stack d = some p ∧ s.base d = some p := by
  have hout : (s.thread p).mode.out = false := by
    cases hm : (s.thread p).mode <;> rw [hm] at hp <;> first | rfl | cases hp
  obtain ⟨d, hd⟩ := h.off p hout
  refine ⟨d, hd, ?_⟩
  unfold Kernel.base
  rw [hd]
  dsimp only [Thread.entry]
  cases hm : (s.thread p).mode <;> rw [hm] at hp <;> first | rfl | cases hp

/-- Whose entry a job holds is neither inside `sched` nor about to be run. -/
theorem Ctl.visited (h : Ctl s) (hb : s.job c = some b) (hj : b.entry = some j) :
    (s.thread j).mode.isOwn = false ∧ ∀ d, s.sched d ≠ .switch j := by
  have hc : s.entry c = some j := (Kernel.entry_of_job hb).trans hj
  refine ⟨?_, fun d hd => ?_⟩
  · -- its CPU would hold `p->lock` for it, so it would be `c`, which is at a job
    by_contra hown
    obtain ⟨d, hstack, hbase⟩ := h.base_of_own (by simpa using hown)
    obtain ⟨rfl, hirq⟩ := h.sole hc hbase
    rcases Kernel.job_cases hb with hirq' | ⟨p, hp, -⟩
    · rw [hirq] at hirq'
      cases hirq'
    · rw [hp.stack] at hstack
      cases hstack
      rw [hp.mode] at hown
      exact hown rfl
  · obtain ⟨hstack, hbase⟩ := h.base_of_switch hd
    obtain ⟨rfl, hirq⟩ := h.sole hc hbase
    rcases Kernel.job_cases hb with hirq' | ⟨p, hp, -⟩
    · rw [hirq] at hirq'
      cases hirq'
    · rw [hp.stack] at hstack
      cases hstack

theorem Ctl.checked (h : Ctl s) (hc : s.InSched c (.check i)) :
    (s.thread i).mode.isOwn = false ∧ ∀ d, s.sched d ≠ .switch i := by
  refine ⟨?_, fun d hd => ?_⟩
  · by_contra hown
    obtain ⟨d, hstack, hbase⟩ := h.base_of_own (by simpa using hown)
    obtain ⟨rfl, -⟩ := h.sole hc.entry hbase
    rw [hc.stack] at hstack
    cases hstack
  · obtain ⟨-, hbase⟩ := h.base_of_switch hd
    obtain ⟨rfl, -⟩ := h.sole hc.entry hbase
    rw [hc.sched] at hd
    cases hd

end Moves

/-- `hpoint` and `halloc` come from `Tab`: a process inside `sched` holds no other lock than its
own, and an entry that is not in use is on no CPU. -/
theorem Ctl.step {s s' : Kernel} {l : KLabel} (h : Ctl s) (hstep : KStep s l s')
    (hpoint : ∀ p, (s.thread p).mode ≠ .job → (s.thread p).job.entry = none)
    (halloc : ∀ j, (s.proc j).state = .UNUSED → (s.thread j).mode.out = true) : Ctl s' := by
  cases hstep with
  | scan c i hc hfree =>
    exact h.schedMove hc rfl (by simp) rfl rfl rfl (h.cproc_same hc rfl) (.take i hfree)
  | wrap _ hc | pass _ _ hc =>
    exact h.schedMove hc rfl (by simp) rfl rfl rfl (h.cproc_same hc rfl) (.keep _)
  | pick _ _ hc | back _ _ hc => exact h.schedMove hc rfl (by simp) rfl rfl rfl rfl (.keep _)
  | switch c i r hc hctx => exact h.switch hc hctx rfl rfl rfl rfl rfl rfl
  | rel c i hc =>
    exact h.schedMove hc rfl (by simp) rfl rfl rfl (h.cproc_same hc rfl) (.drop i)
  | yield c p pt hp hpt _ =>
    refine h.modeMove hp rfl rfl rfl rfl rfl rfl ?_
    simp only [Thread.entry, hpt]
    exact .keep none
  | sleep _ _ _ _ hp | exit _ _ _ hp =>
    refine h.modeMove hp.toInMode rfl rfl rfl rfl rfl rfl ?_
    simp only [Thread.entry, hp.job]
    exact .keep none
  | own c p r hp hfree => exact h.modeMove hp rfl rfl rfl rfl rfl rfl (.take p hfree)
  | leave c p r hp => exact h.leave hp rfl rfl rfl rfl rfl rfl
  | resume c p r hp _ =>
    refine h.modeMove hp rfl rfl rfl rfl rfl rfl ?_
    simp only [Thread.entry, hpoint p (by rw [hp.mode]; simp)]
    exact .drop p
  | sleepUnlock c p l hp =>
    refine h.threadMove hp.irq hp.stack rfl rfl rfl rfl rfl rfl ?_
    simp only [Thread.entry, hp.mode]
    exact .drop p
  | sleepDone c p l hp hjob _ =>
    exact h.jobMove (.at .idle) hp.job_eq rfl rfl rfl rfl rfl (by rw [hjob]; exact .keep _)
  | acquire c l hj _ => exact h.jobMove (.at .idle) hj rfl rfl rfl rfl rfl (.keep _)
  | visit c v j hj _ hfree => exact h.jobMove (.hold v j) hj rfl rfl rfl rfl rfl (.take j hfree)
  | woken c chan j hj _ => exact h.jobMove (.wantTick chan j) hj rfl rfl rfl rfl rfl (.keep _)
  | tickAcquire c chan j hj _ => exact h.jobMove (.holdTick chan j) hj rfl rfl rfl rfl rfl (.keep _)
  | tickRelease c chan j hj =>
    exact h.jobMove (.drop j (.want (.wakeup chan) (j + 1))) hj rfl rfl rfl rfl rfl (.keep _)
  | killed _ _ j hj | allocFail _ j hj | started _ j hj | reaped _ j hj =>
    exact h.jobMove (.drop j .idle) hj rfl rfl rfl rfl rfl (.keep _)
  | cleared c j hj => exact h.jobMove (.at (.want .alloc (j + 1))) hj rfl rfl rfl rfl rfl (.keep _)
  | allocFound c j hj hu =>
    have hout := halloc j hu
    -- the entry is nobody's, so the CPU is at the same job after its thread is set up
    exact (h.fresh hout).jobMove (.drop j (.want .start j)) ((h.job_setOut hout).trans hj) rfl rfl
      rfl rfl rfl (.keep _)
  | dropped c j pt hj => exact h.jobMove (.at pt) hj rfl rfl rfl rfl rfl (.drop j)
  | interrupt c _ hfree => exact h.setIrq hfree rfl (by rintro b ⟨⟩; rfl) rfl rfl rfl rfl rfl
  | endInterrupt c _ hfree => exact h.setIrq hfree rfl (by simp) rfl rfl rfl rfl rfl
  | _ => first
    | exact h.keep rfl rfl rfl rfl rfl rfl
    | have hp := ‹s.InMode _ _ _›
      exact h.modeMove hp rfl rfl rfl rfl rfl rfl (.keep _)
    | have hj := ‹s.job _ = some _›
      exact h.jobMove _ hj rfl rfl rfl rfl rfl (.keep _)
    | have hp := ‹s.Idle _ _›
      exact h.jobMove _ hp.job_eq rfl rfl rfl rfl rfl (.keep _)

end Xv6
