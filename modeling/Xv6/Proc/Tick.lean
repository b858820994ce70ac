import Xv6.Lib.Prog
import Xv6.Proc.Spinlock
import Xv6.Proc.Table

/-!
# The clock interrupt

`clockintr` (`kernel/trap.c`) holds `tickslock` while `wakeup` (`kernel/proc.c`) walks the
process table, and `wakeup` calls `sys_uptime` (`kernel/sysproc.c`) for every process it wakes,
which takes `tickslock` again.
-/

namespace Xv6

open Function List

structure TickState where
  ticks : UInt32
  tickslock : Spinlock
  proc : Fin NPROC → Proc
  -- The lock of each process.
  plock : Fin NPROC → Spinlock
  cpu : Cpu
  -- `myproc()`.
  myproc : Option (Fin NPROC)

namespace TickState

def self : Nat := 0

def acquireTicks (k : TickState) : Except SpinStop TickState := do
  let (lk, c) ← k.tickslock.acquire self k.cpu
  return { k with tickslock := lk, cpu := c }

def releaseTicks (k : TickState) : Except SpinStop TickState := do
  let (lk, c) ← k.tickslock.release self k.cpu
  return { k with tickslock := lk, cpu := c }

def acquireProc (k : TickState) (i : Fin NPROC) : Except SpinStop TickState := do
  let (lk, c) ← (k.plock i).acquire self k.cpu
  return { k with plock := update k.plock i lk, cpu := c }

def releaseProc (k : TickState) (i : Fin NPROC) : Except SpinStop TickState := do
  let (lk, c) ← (k.plock i).release self k.cpu
  return { k with plock := update k.plock i lk, cpu := c }

def sysUptime (k : TickState) : Except SpinStop (UInt64 × TickState) := do
  let k ← k.acquireTicks
  let xticks := k.ticks
  let k ← k.releaseTicks
  return (xticks.toUInt64, k)

def wakeupBody (chan : Chan) (k : TickState) (i : Fin NPROC) : Except SpinStop TickState :=
  if k.myproc = some i then .ok k
  else do
    let k ← k.acquireProc i
    let k ←
      if (k.proc i).SleepsOn chan then do
        let k := { k with proc := update k.proc i { k.proc i with state := .RUNNABLE } }
        let (now, k) ← k.sysUptime
        pure { k with proc := update k.proc i { k.proc i with readytime := now } }
      else pure k
    k.releaseProc i

def wakeup (chan : Chan) (k : TickState) : Except SpinStop TickState :=
  (List.finRange NPROC).foldlM (wakeupBody chan) k

def clockintr (k : TickState) : Except SpinStop TickState := do
  let k ← k.acquireTicks
  let k := { k with ticks := k.ticks + 1 }
  let k ← k.wakeup .ticks
  k.releaseTicks

end TickState

/-- What a tick is for: the counter advances and exactly the processes that sleep on `&ticks` become
`RUNNABLE`, ready at the new tick. -/
structure TickDelivered (k k' : TickState) : Prop where
  ticks : k'.ticks = k.ticks + 1
  woken : ∀ i, (k.proc i).SleepsOn .ticks →
    k'.proc i = { k.proc i with state := .RUNNABLE, readytime := (k.ticks + 1).toUInt64 }
  others : ∀ i, ¬ (k.proc i).SleepsOn .ticks → k'.proc i = k.proc i

/-- No CPU holds `tickslock` or a `p->lock`. CPU 0 never does when it takes an interrupt, since
holding one disables them. That no other CPU does is a condition: one that is inside
`sleep(&ticks, &tickslock)` has its `p->lock` and has let go of `tickslock`, and puts its process
to sleep on `&ticks` while `wakeup` waits for the lock. -/
structure NoLocks (k : TickState) : Prop where
  ticks : k.tickslock.locked = false
  proc : ∀ i, (k.plock i).locked = false

/-! ## `wakeup` under `tickslock` -/

/-- Inside `clockintr`: `tickslock` is held, no process lock is. -/
structure InTick (k : TickState) : Prop where
  ticks : k.tickslock.holding TickState.self = true
  proc : ∀ i, (k.plock i).locked = false
  intr : k.cpu.intr = false
  depth : 0 < k.cpu.noff

section Wakeup

variable {k : TickState} {i : Fin NPROC}

theorem acquireProc_eq (h : InTick k) (i : Fin NPROC) :
    k.acquireProc i = .ok { k with
      plock := update k.plock i { locked := true, cpu := some TickState.self }
      cpu := pushOff k.cpu } := by
  simp [TickState.acquireProc, Spinlock.acquire_eq (h.proc i), bind, Except.bind, pure,
    Except.pure]

/-- A process that is not to be woken costs an `acquire` and a `release` of its lock. -/
theorem wakeupBody_other (h : InTick k) (hne : k.myproc ≠ some i)
    (hawake : ¬ (k.proc i).SleepsOn .ticks) :
    k.wakeupBody .ticks i = .ok { k with plock := update k.plock i .free } := by
  unfold TickState.wakeupBody
  rw [if_neg hne, acquireProc_eq h]
  simp [bind, Except.bind, pure, Except.pure, hawake, TickState.releaseProc, Spinlock.release,
    Spinlock.holding_taken, popOff_pushOff h.intr h.depth, Spinlock.free]

/-- A process that sleeps on `&ticks` makes `sys_uptime` take `tickslock` a second time. -/
theorem wakeupBody_sleeper (h : InTick k) (hne : k.myproc ≠ some i)
    (hsleep : (k.proc i).SleepsOn .ticks) : k.wakeupBody .ticks i = .error .acquire := by
  unfold TickState.wakeupBody
  rw [if_neg hne, acquireProc_eq h]
  simp [bind, Except.bind, hsleep, TickState.sysUptime, TickState.acquireTicks,
    Spinlock.acquire_held h.ticks]

theorem InTick.release_proc (h : InTick k) (i : Fin NPROC) :
    InTick { k with plock := update k.plock i .free } where
  __ := h
  proc := by
    intro j
    by_cases hj : j = i
    · simp [hj, Spinlock.free]
    · simpa [update_of_ne hj] using h.proc j

/-- The loop of `wakeup` over processes none of which sleeps on `&ticks`: only locks that were
free or have been waited for are touched. Induction on the processes still to come. -/
theorem wakeup_loop_quiet (l : List (Fin NPROC)) (h : InTick k)
    (hquiet : ∀ i ∈ l, k.myproc ≠ some i → ¬ (k.proc i).SleepsOn .ticks) :
    ∃ plock, l.foldlM (TickState.wakeupBody .ticks) k = .ok { k with plock := plock } ∧
      InTick { k with plock := plock } := by
  induction l generalizing k with
  | nil => exact ⟨k.plock, rfl, h⟩
  | cons i l ih =>
    rw [foldlM_cons]
    by_cases hne : k.myproc = some i
    · -- the running process is skipped
      have hbody : k.wakeupBody .ticks i = .ok k := if_pos hne
      rw [hbody]
      exact ih h fun j hj => hquiet j (mem_cons_of_mem _ hj)
    · rw [wakeupBody_other h hne (hquiet i mem_cons_self hne)]
      exact ih (h.release_proc i) fun j hj => hquiet j (mem_cons_of_mem _ hj)

theorem wakeup_loop_sleeper (l : List (Fin NPROC)) (h : InTick k)
    (hsleeper : ∃ i ∈ l, k.myproc ≠ some i ∧ (k.proc i).SleepsOn .ticks) :
    l.foldlM (TickState.wakeupBody .ticks) k = .error .acquire := by
  induction l generalizing k with
  | nil => simp at hsleeper
  | cons i l ih =>
    rw [foldlM_cons]
    obtain ⟨j, hj, hjne, hjsleep⟩ := hsleeper
    by_cases hne : k.myproc = some i
    · have hbody : k.wakeupBody .ticks i = .ok k := if_pos hne
      rw [hbody]
      have hji : j ≠ i := fun heq => hjne (by rw [heq]; exact hne)
      exact ih h ⟨j, (mem_cons.mp hj).resolve_left hji, hjne, hjsleep⟩
    · by_cases hsleep : (k.proc i).SleepsOn .ticks
      · rw [wakeupBody_sleeper h hne hsleep]
        rfl
      · rw [wakeupBody_other h hne hsleep]
        have hji : j ≠ i := fun heq => hsleep (by rw [← heq]; exact hjsleep)
        exact ih (h.release_proc i) ⟨j, (mem_cons.mp hj).resolve_left hji, hjne, hjsleep⟩

end Wakeup

/-! ## The handler -/

section Handler

variable {k k' : TickState}

/-- `clockintr` after `acquire(&tickslock)` and `ticks++`. -/
def TickState.ticked (k : TickState) : TickState :=
  { k with
    ticks := k.ticks + 1
    tickslock := { locked := true, cpu := some self }
    cpu := pushOff k.cpu }

theorem NoLocks.inTick (h : NoLocks k) : InTick k.ticked where
  ticks := Spinlock.holding_taken _
  proc := h.proc
  intr := rfl
  depth := Nat.succ_pos _

theorem clockintr_eq (h : NoLocks k) :
    k.clockintr = (k.ticked.wakeup .ticks >>= TickState.releaseTicks) := by
  simp [TickState.clockintr, TickState.acquireTicks, Spinlock.acquire_eq h.ticks, bind,
    Except.bind, pure, Except.pure, TickState.ticked]

theorem clockintr_quiet (h : NoLocks k)
    (hquiet : ∀ i, k.myproc ≠ some i → ¬ (k.proc i).SleepsOn .ticks) :
    ∃ k', k.clockintr = .ok k' ∧ k'.ticks = k.ticks + 1 ∧ k'.proc = k.proc := by
  obtain ⟨plock, hloop, hin⟩ := wakeup_loop_quiet (List.finRange NPROC) h.inTick
    fun i _ => hquiet i
  obtain ⟨c, hc⟩ := popOff_ok hin.intr hin.depth
  refine ⟨{ k.ticked with plock := plock, tickslock := .free, cpu := c }, ?_, rfl, rfl⟩
  rw [clockintr_eq h, TickState.wakeup, hloop]
  show TickState.releaseTicks { k.ticked with plock := plock } = _
  have hrel : ({ k.ticked with plock := plock } : TickState).tickslock.release TickState.self
      ({ k.ticked with plock := plock } : TickState).cpu = .ok (.free, c) := by
    rw [Spinlock.release, if_pos hin.ticks, hc]
    rfl
  rw [TickState.releaseTicks, hrel]
  rfl

theorem clockintr_sleeper (h : NoLocks k) {i : Fin NPROC} (hne : k.myproc ≠ some i)
    (hsleep : (k.proc i).SleepsOn .ticks) : k.clockintr = .error .acquire := by
  rw [clockintr_eq h, TickState.wakeup,
    wakeup_loop_sleeper (List.finRange NPROC) h.inTick ⟨i, mem_finRange i, hne, hsleep⟩]
  rfl

end Handler

/-- **Tick delivery.** With every lock free, `clockintr` completes and delivers the tick exactly
when no process sleeps on `&ticks`.

One sleeper is enough for the panic: `wakeup` calls `sys_uptime` for it, which takes `tickslock`
a second time. Conversely nothing else in the handler can fail: each `p->lock` is taken and let
go before the next. -/
theorem clockintr_delivers_iff (k : TickState) (h : NoLocks k) :
    (∃ k', k.clockintr = .ok k' ∧ TickDelivered k k') ↔
      ∀ i, ¬ (k.proc i).SleepsOn .ticks := by
  constructor
  · rintro ⟨k', hrun, hdel⟩ i hsleep
    by_cases hothers : ∃ j, k.myproc ≠ some j ∧ (k.proc j).SleepsOn .ticks
    · obtain ⟨j, hne, hj⟩ := hothers
      rw [clockintr_sleeper h hne hj] at hrun
      cases hrun
    · -- only the running process sleeps, and `wakeup` skips it
      obtain ⟨k'', hrun', -, hproc⟩ := clockintr_quiet h fun j hne hj => hothers ⟨j, hne, hj⟩
      rw [hrun'] at hrun
      cases hrun
      have hwoken := hdel.woken i hsleep
      rw [hproc] at hwoken
      have hstate := congrArg Proc.state hwoken
      rw [hsleep.1] at hstate
      cases hstate
  · intro hquiet
    obtain ⟨k', hrun, hticks, hproc⟩ := clockintr_quiet h fun i _ => hquiet i
    refine ⟨k', hrun, hticks, fun i hi => absurd hi (hquiet i), fun i _ => ?_⟩
    rw [hproc]

/-- A process table in which process 1 sleeps on `chan`, `initproc` sleeps in `wait`, and there are
a process that is ready and a zombie; CPU 0 is in its scheduler with interrupts on. -/
def mixedTable (chan : Chan) : TickState where
  ticks := 7
  tickslock := .free
  proc i :=
    { state := if i ≤ 1 then .SLEEPING else if i = 2 then .RUNNABLE else if i = 3 then .ZOMBIE
        else .UNUSED
      chan := if i = 0 then .proc 0 else if i = 1 then chan else .null
      killed := false, xstate := 0, pid := if i ≤ 3 then .ofNat (i + 1) else 0, cputime := 0
      priority := 0, readytime := 0, parent := if 0 < i ∧ i ≤ 3 then some 0 else none }
  plock _ := .free
  cpu := { noff := 0, intena := false, intr := true }
  myproc := none

theorem clockintr_delivers_mixed :
    NoLocks (mixedTable (.other 16)) ∧ ∃ k', (mixedTable (.other 16)).clockintr = .ok k' ∧
      TickDelivered (mixedTable (.other 16)) k' ∧ (k'.proc 1).SleepsOn (.other 16) := by
  have h : NoLocks (mixedTable (.other 16)) := ⟨rfl, fun _ => rfl⟩
  have hquiet : ∀ i, ¬ ((mixedTable (.other 16)).proc i).SleepsOn .ticks := by decide
  obtain ⟨k', hrun, hdel⟩ := (clockintr_delivers_iff _ h).mpr hquiet
  refine ⟨h, k', hrun, hdel, ?_⟩
  rw [hdel.others 1 (hquiet 1)]
  decide

/-- One process in `sys_sleep` is enough for the next clock interrupt to panic. -/
theorem clockintr_one_sleeper :
    NoLocks (mixedTable .ticks) ∧ (mixedTable .ticks).clockintr = .error .acquire ∧
      ¬ ∃ k', (mixedTable .ticks).clockintr = .ok k' ∧ TickDelivered (mixedTable .ticks) k' := by
  have h : NoLocks (mixedTable .ticks) := ⟨rfl, fun _ => rfl⟩
  have hpanic : (mixedTable .ticks).clockintr = .error .acquire :=
    clockintr_sleeper (i := 1) h (by decide) (by decide)
  refine ⟨h, hpanic, fun ⟨k', hrun, _⟩ => ?_⟩
  rw [hpanic] at hrun
  cases hrun

end Xv6
