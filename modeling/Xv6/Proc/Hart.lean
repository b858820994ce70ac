import Xv6.Proc.Tree

/-!
# CPUs, the scheduler and spin locks

`scheduler`, `sched`, `yield`, `forkret`, `sleep`, `wakeup`, `kill`, `fork`, `exit` and `wait`
(`kernel/proc.c`) on several CPUs, with a step for every `acquire`, every `release`, every
`swtch` and every access to the process table in between.

What the rest of the kernel does between these calls (which locks it takes, on which channels it
sleeps, whom it wakes or kills, when interrupts arrive) is left open. `acquire` of a lock that
the CPU holds already is a panic; such a CPU takes no further step.
-/

namespace Xv6

open Machines Function

def NCPU : Nat := 8

instance : NeZero NCPU := ⟨by decide⟩

abbrev Hart := Fin NCPU

inductive Spin where
  | tick
  | other (n : Nat)
  deriving DecidableEq, Repr

/-- What is done with an entry of the process table while its lock is held. -/
inductive Visit where
  | wakeup (chan : Chan)
  | kill (pid : Int32)
  -- The scan of `allocproc` in `fork`.
  | alloc
  -- `fork` makes the child `RUNNABLE`.
  | start
  -- `wait` looks at a child.
  | wait
  deriving DecidableEq, Repr

/-- A point of the code at which no `p->lock` is held. -/
inductive Point where
  -- Outside the calls modelled here.
  | idle
  -- Before `acquire(l)`.
  | acq (l : Spin)
  -- Before the `acquire(lk)` at the end of `sleep`.
  | relock (l : Spin)
  -- Before entry `j` is looked at.
  | want (v : Visit) (j : Nat)
  -- `allocproc` has passed entry `j` and is about to clear its `cputime`.
  | clear (j : Fin NPROC)
  deriving DecidableEq, Repr

/-- A call that walks the process table with `p->lock` taken and released at every entry; the same
code runs in a process and, for `wakeup`, in an interrupt handler. -/
inductive Job where
  | at (pt : Point)
  | hold (v : Visit) (j : Fin NPROC)
  -- `wakeup` has found a sleeper and calls `sys_uptime`, before `acquire(&tickslock)`.
  | wantTick (chan : Chan) (j : Fin NPROC)
  | holdTick (chan : Chan) (j : Fin NPROC)
  -- Before `release` of the lock of entry `j`.
  | drop (j : Fin NPROC) (next : Point)
  deriving DecidableEq, Repr

inductive Away where
  | yield
  | sleep (chan : Chan) (l : Spin)
  -- `exit`, with the lock it holds (`wait_lock`).
  | exit (l : Spin)
  -- Not in `sched`: a new process starts in `forkret`.
  | fork
  deriving DecidableEq, Repr

/-- Where a process is on its way into `sched` and back. -/
inductive Mode where
  -- At its job.
  | job
  -- Before `acquire(&p->lock)` of its own entry.
  | want (r : Away)
  | own (r : Away)
  -- `sleep` has released the condition lock.
  | dozed (chan : Chan) (l : Spin)
  -- `exit` has made the process a `ZOMBIE`.
  | zombie (l : Spin)
  -- Before `swtch` to the scheduler.
  | leaving (r : Away)
  | away (r : Away)
  -- `swtch` has returned, or `forkret` is entered.
  | resumed (r : Away)
  -- `sleep` has cleared `p->chan`.
  | tidied (l : Spin)
  deriving DecidableEq, Repr

structure Thread where
  job : Job
  mode : Mode
  deriving DecidableEq, Repr

inductive Sched where
  | scan (i : Nat)
  | check (i : Fin NPROC)
  -- Before `swtch` to process `i`.
  | switch (i : Fin NPROC)
  -- Inside `swtch`: process `i` runs.
  | away (i : Fin NPROC)
  | back (i : Fin NPROC)
  | rel (i : Fin NPROC)
  deriving DecidableEq, Repr

/-- The process table with its locks, the other spin locks, and for every CPU `c->proc`, the kernel
stack it runs on, where its scheduler is and what its interrupt handler is doing. A process that is
not running waits inside `swtch` with its context saved. -/
structure Kernel where
  proc : Fin NPROC → Proc
  -- The CPU that holds `p->lock`.
  plock : Fin NPROC → Option Hart
  lock : Spin → Option Hart
  ticks : UInt32
  nextpid : Int32
  -- `c->proc`.
  cproc : Hart → Option (Fin NPROC)
  -- The process on whose kernel stack the CPU runs; `none` for the scheduler's own.
  stack : Hart → Option (Fin NPROC)
  sched : Hart → Sched
  -- What the interrupt handler of the CPU is doing, if it is in one.
  irq : Hart → Option Job
  thread : Fin NPROC → Thread
  -- `p->context` holds a complete context.
  saved : Fin NPROC → Bool

namespace Kernel

variable (s : Kernel)

def setProc (j : Fin NPROC) (x : Proc) : Kernel := { s with proc := update s.proc j x }

def setPlock (j : Fin NPROC) (o : Option Hart) : Kernel :=
  { s with plock := update s.plock j o }

def setLock (l : Spin) (o : Option Hart) : Kernel := { s with lock := update s.lock l o }

def setThread (p : Fin NPROC) (t : Thread) : Kernel :=
  { s with thread := update s.thread p t }

def setMode (p : Fin NPROC) (m : Mode) : Kernel := s.setThread p { s.thread p with mode := m }

def setSched (c : Hart) (pc : Sched) : Kernel := { s with sched := update s.sched c pc }

/-- The job the CPU works at: its interrupt handler's, or that of the process it runs. -/
def job (c : Hart) : Option Job :=
  match s.irq c with
  | some b => some b
  | none =>
    match s.stack c with
    | some p => if (s.thread p).mode = .job then some (s.thread p).job else none
    | none => none

def setJob (c : Hart) (b : Job) : Kernel :=
  { s with
    irq :=
      match s.irq c with
      | some _ => update s.irq c (some b)
      | none => s.irq
    thread :=
      match s.irq c, s.stack c with
      | none, some p => update s.thread p { s.thread p with job := b }
      | _, _ => s.thread }

structure InSched (c : Hart) (pc : Sched) : Prop where
  irq : s.irq c = none
  stack : s.stack c = none
  sched : s.sched c = pc

/-- The CPU runs process `p`, which is at `m`. -/
structure InMode (c : Hart) (p : Fin NPROC) (m : Mode) : Prop where
  irq : s.irq c = none
  stack : s.stack c = some p
  mode : (s.thread p).mode = m

/-- The CPU runs process `p`, which is outside the calls modelled here. -/
structure Idle (c : Hart) (p : Fin NPROC) : Prop extends s.InMode c p .job where
  job : (s.thread p).job = .at .idle

structure Free (c : Hart) : Prop where
  lock : ∀ l, s.lock l ≠ some c
  plock : ∀ j, s.plock j ≠ some c

/-- The CPU holds `l` and no other spin lock but those of processes. -/
structure Holds (c : Hart) (l : Spin) : Prop where
  held : s.lock l = some c
  only : ∀ l', l' ≠ l → s.lock l' ≠ some c

end Kernel

inductive KLabel where
  -- A call of `sleep(chan, l)`.
  | sleep (c : Hart) (chan : Chan) (l : Spin)
  -- A call of `wakeup(chan)`.
  | wakeup (c : Hart) (chan : Chan)
  -- `wakeup` finds process `j` asleep on its channel.
  | woken (c : Hart) (j : Fin NPROC)
  | release (c : Hart) (l : Spin)
  -- `sleep` returns.
  | awake (c : Hart) (p : Fin NPROC) (l : Spin)
  | tau (c : Hart)
  deriving DecidableEq, Repr

/-- One step of one CPU, interleaved with those of the others: a lock taken or released, one entry
of a loop over the process table, a switch of context. -/
inductive KStep (s : Kernel) : KLabel → Kernel → Prop where
  /- `scheduler` -/
  | scan (c : Hart) (i : Fin NPROC) (h : s.InSched c (.scan i)) (hfree : s.plock i = none) :
      KStep s (.tau c) ((s.setPlock i (some c)).setSched c (.check i))
  | wrap (c : Hart) (h : s.InSched c (.scan NPROC)) : KStep s (.tau c) (s.setSched c (.scan 0))
  | pick (c : Hart) (i : Fin NPROC) (h : s.InSched c (.check i))
      (hi : (s.proc i).state = .RUNNABLE) :
      KStep s (.tau c) { (s.setProc i { s.proc i with state := .RUNNING }).setSched c (.switch i)
        with cproc := update s.cproc c (some i) }
  | pass (c : Hart) (i : Fin NPROC) (h : s.InSched c (.check i))
      (hi : (s.proc i).state ≠ .RUNNABLE) : KStep s (.tau c) (s.setSched c (.rel i))
  -- `swtch(&c->context, &p->context)`.
  | switch (c : Hart) (i : Fin NPROC) (r : Away) (h : s.InSched c (.switch i))
      (hctx : (s.thread i).mode = .away r) :
      KStep s (.tau c) { (s.setMode i (.resumed r)).setSched c (.away i) with
        stack := update s.stack c (some i)
        saved := update s.saved i false }
  | back (c : Hart) (i : Fin NPROC) (h : s.InSched c (.back i)) :
      KStep s (.tau c) { s.setSched c (.rel i) with cproc := update s.cproc c none }
  | rel (c : Hart) (i : Fin NPROC) (h : s.InSched c (.rel i)) :
      KStep s (.tau c) ((s.setPlock i none).setSched c (.scan (i + 1)))
  /- into `sched` -/
  -- `yield`, at any point at which interrupts are on.
  | yield (c : Hart) (p : Fin NPROC) (pt : Point) (h : s.InMode c p .job)
      (hpt : (s.thread p).job = .at pt) (hfree : s.Free c) :
      KStep s (.tau c) (s.setMode p (.want .yield))
  | sleep (c : Hart) (p : Fin NPROC) (chan : Chan) (l : Spin) (h : s.Idle c p)
      (hl : s.Holds c l) : KStep s (.sleep c chan l) (s.setMode p (.want (.sleep chan l)))
  | exit (c : Hart) (p : Fin NPROC) (l : Spin) (h : s.Idle c p) (hl : s.Holds c l) :
      KStep s (.tau c) (s.setMode p (.want (.exit l)))
  | own (c : Hart) (p : Fin NPROC) (r : Away) (h : s.InMode c p (.want r))
      (hfree : s.plock p = none) :
      KStep s (.tau c) ((s.setPlock p (some c)).setMode p (.own r))
  | yieldSet (c : Hart) (p : Fin NPROC) (h : s.InMode c p (.own .yield)) :
      KStep s (.tau c)
        ((s.setProc p { s.proc p with state := .RUNNABLE }).setMode p (.leaving .yield))
  | sleepRelease (c : Hart) (p : Fin NPROC) (chan : Chan) (l : Spin)
      (h : s.InMode c p (.own (.sleep chan l))) :
      KStep s (.release c l) ((s.setLock l none).setMode p (.dozed chan l))
  | sleepSet (c : Hart) (p : Fin NPROC) (chan : Chan) (l : Spin)
      (h : s.InMode c p (.dozed chan l)) :
      KStep s (.tau c) ((s.setProc p { s.proc p with chan := chan, state := .SLEEPING }).setMode p
        (.leaving (.sleep chan l)))
  | exitSet (c : Hart) (p : Fin NPROC) (l : Spin) (status : Int32)
      (h : s.InMode c p (.own (.exit l))) :
      KStep s (.tau c) ((s.setProc p { s.proc p with xstate := status, state := .ZOMBIE }).setMode p
        (.zombie l))
  | exitRelease (c : Hart) (p : Fin NPROC) (l : Spin) (h : s.InMode c p (.zombie l)) :
      KStep s (.release c l) ((s.setLock l none).setMode p (.leaving (.exit l)))
  -- `swtch(&p->context, &mycpu()->context)`.
  | leave (c : Hart) (p : Fin NPROC) (r : Away) (h : s.InMode c p (.leaving r)) :
      KStep s (.tau c) { (s.setMode p (.away r)).setSched c (.back p) with
        stack := update s.stack c none
        saved := update s.saved p true }
  /- and back -/
  -- The end of `yield`, or of `forkret`'s part in this.
  | resume (c : Hart) (p : Fin NPROC) (r : Away) (h : s.InMode c p (.resumed r))
      (hr : r = .yield ∨ r = .fork) :
      KStep s (.tau c) ((s.setPlock p none).setMode p .job)
  | sleepTidy (c : Hart) (p : Fin NPROC) (chan : Chan) (l : Spin)
      (h : s.InMode c p (.resumed (.sleep chan l))) :
      KStep s (.tau c) ((s.setProc p { s.proc p with chan := .null }).setMode p (.tidied l))
  | sleepUnlock (c : Hart) (p : Fin NPROC) (l : Spin) (h : s.InMode c p (.tidied l)) :
      KStep s (.tau c) ((s.setPlock p none).setThread p { job := .at (.relock l), mode := .job })
  -- `acquire(lk)`, the last thing `sleep` does.
  | sleepDone (c : Hart) (p : Fin NPROC) (l : Spin) (h : s.InMode c p .job)
      (hjob : (s.thread p).job = .at (.relock l)) (hfree : s.lock l = none) :
      KStep s (.awake c p l) ((s.setLock l (some c)).setJob c (.at .idle))
  /- the other spin locks -/
  | toAcquire (c : Hart) (l : Spin) (h : s.job c = some (.at .idle)) (hl : s.lock l ≠ some c) :
      KStep s (.tau c) (s.setJob c (.at (.acq l)))
  | acquire (c : Hart) (l : Spin) (h : s.job c = some (.at (.acq l))) (hfree : s.lock l = none) :
      KStep s (.tau c) ((s.setLock l (some c)).setJob c (.at .idle))
  | release (c : Hart) (l : Spin) (h : s.job c = some (.at .idle)) (hl : s.lock l = some c) :
      KStep s (.release c l) (s.setLock l none)
  /- calls that walk the process table -/
  | wakeup (c : Hart) (chan : Chan) (h : s.job c = some (.at .idle)) :
      KStep s (.wakeup c chan) (s.setJob c (.at (.want (.wakeup chan) 0)))
  | kill (c : Hart) (p : Fin NPROC) (pid : Int32) (h : s.Idle c p) :
      KStep s (.tau c) (s.setJob c (.at (.want (.kill pid) 0)))
  | fork (c : Hart) (p : Fin NPROC) (h : s.Idle c p) :
      KStep s (.tau c) (s.setJob c (.at (.want .alloc 0)))
  | wait (c : Hart) (p : Fin NPROC) (h : s.Idle c p) :
      KStep s (.tau c) (s.setJob c (.at (.want .wait 0)))
  | finish (c : Hart) (v : Visit) (h : s.job c = some (.at (.want v NPROC))) (hv : v ≠ .start) :
      KStep s (.tau c) (s.setJob c (.at .idle))
  -- `wakeup` skips `myproc()`.
  | skipSelf (c : Hart) (chan : Chan) (j : Fin NPROC)
      (h : s.job c = some (.at (.want (.wakeup chan) j))) (hself : s.cproc c = some j) :
      KStep s (.tau c) (s.setJob c (.at (.want (.wakeup chan) (j + 1))))
  -- `wait` skips who is not a child.
  | skipOther (c : Hart) (j : Fin NPROC) (h : s.job c = some (.at (.want .wait j))) :
      KStep s (.tau c) (s.setJob c (.at (.want .wait (j + 1))))
  | visit (c : Hart) (v : Visit) (j : Fin NPROC) (h : s.job c = some (.at (.want v j)))
      (hself : ∀ chan, v = .wakeup chan → s.cproc c ≠ some j) (hfree : s.plock j = none) :
      KStep s (.tau c) ((s.setPlock j (some c)).setJob c (.hold v j))
  | woken (c : Hart) (chan : Chan) (j : Fin NPROC) (h : s.job c = some (.hold (.wakeup chan) j))
      (hj : (s.proc j).SleepsOn chan) :
      KStep s (.woken c j)
        ((s.setProc j { s.proc j with state := .RUNNABLE }).setJob c (.wantTick chan j))
  | notWoken (c : Hart) (chan : Chan) (j : Fin NPROC)
      (h : s.job c = some (.hold (.wakeup chan) j)) (hj : ¬ (s.proc j).SleepsOn chan) :
      KStep s (.tau c) (s.setJob c (.drop j (.want (.wakeup chan) (j + 1))))
  | tickAcquire (c : Hart) (chan : Chan) (j : Fin NPROC) (h : s.job c = some (.wantTick chan j))
      (hfree : s.lock .tick = none) :
      KStep s (.tau c) ((s.setLock .tick (some c)).setJob c (.holdTick chan j))
  | tickRelease (c : Hart) (chan : Chan) (j : Fin NPROC) (h : s.job c = some (.holdTick chan j)) :
      KStep s (.release c .tick)
        (((s.setLock .tick none).setProc j { s.proc j with readytime := s.ticks.toUInt64 }).setJob c
          (.drop j (.want (.wakeup chan) (j + 1))))
  | killed (c : Hart) (pid : Int32) (j : Fin NPROC) (h : s.job c = some (.hold (.kill pid) j))
      (hj : (s.proc j).pid = pid) :
      KStep s (.tau c) ((s.setProc j (killProc (s.proc j))).setJob c (.drop j .idle))
  | notKilled (c : Hart) (pid : Int32) (j : Fin NPROC)
      (h : s.job c = some (.hold (.kill pid) j)) (hj : (s.proc j).pid ≠ pid) :
      KStep s (.tau c) (s.setJob c (.drop j (.want (.kill pid) (j + 1))))
  | allocUsed (c : Hart) (j : Fin NPROC) (h : s.job c = some (.hold .alloc j))
      (hj : (s.proc j).state ≠ .UNUSED) : KStep s (.tau c) (s.setJob c (.drop j (.clear j)))
  | cleared (c : Hart) (j : Fin NPROC) (h : s.job c = some (.at (.clear j))) :
      KStep s (.tau c)
        ((s.setProc j { s.proc j with cputime := 0 }).setJob c (.at (.want .alloc (j + 1))))
  -- No memory for the new process.
  | allocFail (c : Hart) (j : Fin NPROC) (h : s.job c = some (.hold .alloc j))
      (hj : (s.proc j).state = .UNUSED) :
      KStep s (.tau c) { (s.setProc j (freeproc (s.proc j))).setJob c (.drop j .idle) with
        nextpid := s.nextpid + 1 }
  -- `allocproc` sets the context up to start in `forkret`.
  | allocFound (c : Hart) (j : Fin NPROC) (h : s.job c = some (.hold .alloc j))
      (hj : (s.proc j).state = .UNUSED) :
      KStep s (.tau c) { ((s.setProc j { s.proc j with pid := s.nextpid, state := .USED }).setThread
          j { job := .at .idle, mode := .away .fork }).setJob c (.drop j (.want .start j)) with
        nextpid := s.nextpid + 1
        saved := update s.saved j true }
  | started (c : Hart) (j : Fin NPROC) (h : s.job c = some (.hold .start j)) :
      KStep s (.tau c) ((s.setProc j { s.proc j with state := .RUNNABLE }).setJob c (.drop j .idle))
  | waitOther (c : Hart) (j : Fin NPROC) (h : s.job c = some (.hold .wait j))
      (hj : (s.proc j).state ≠ .ZOMBIE) :
      KStep s (.tau c) (s.setJob c (.drop j (.want .wait (j + 1))))
  -- A `copyout` fails.
  | waitFail (c : Hart) (j : Fin NPROC) (h : s.job c = some (.hold .wait j))
      (hj : (s.proc j).state = .ZOMBIE) : KStep s (.tau c) (s.setJob c (.drop j .idle))
  | reaped (c : Hart) (j : Fin NPROC) (h : s.job c = some (.hold .wait j))
      (hj : (s.proc j).state = .ZOMBIE) :
      KStep s (.tau c) ((s.setProc j (freeproc (s.proc j))).setJob c (.drop j .idle))
  | dropped (c : Hart) (j : Fin NPROC) (pt : Point) (h : s.job c = some (.drop j pt)) :
      KStep s (.tau c) ((s.setPlock j none).setJob c (.at pt))
  /- interrupts -/
  | interrupt (c : Hart) (h : s.irq c = none) (hfree : s.Free c) :
      KStep s (.tau c) { s with irq := update s.irq c (some (.at .idle)) }
  -- `ticks++` in `clockintr`, on CPU 0.
  | tick (h : s.irq 0 = some (.at .idle)) (hl : s.lock .tick = some 0) :
      KStep s (.tau 0) { s with ticks := s.ticks + 1 }
  | endInterrupt (c : Hart) (h : s.irq c = some (.at .idle)) (hfree : s.Free c) :
      KStep s (.tau c) { s with irq := update s.irq c none }

/-- After `userinit`, with every CPU at the start of its scheduler. -/
def bootKernel : Kernel where
  proc := bootProcs.proc
  plock _ := none
  lock _ := none
  ticks := 0
  nextpid := 2
  cproc _ := none
  stack _ := none
  sched _ := .scan 0
  irq _ := none
  thread i := { job := .at .idle, mode := if i = initproc then .away .fork else .away (.exit .tick) }
  saved i := decide (i = initproc)

def kernelMachine : Machine Kernel KLabel where
  init s := s = bootKernel
  step := KStep

end Xv6
