import Xv6.Lib.Machine
import Xv6.Proc.Table

/-!
# `fork`, `exit`, `wait`, `wait2` and `kill`

The life cycle of processes (`kernel/proc.c`) at the granularity of `wait_lock` and `p->lock`
critical sections: a step is one critical section of `p->lock`, or the part of a `wait_lock`
critical section between two of them. Any number of CPUs run processes in any order.

Every incarnation of a table entry has a serial number `uid`; calls of `exit` and successful calls of
`wait` are recorded in the order they happen.
-/

namespace Xv6

open Machines Function

/-- The arguments of `wait` and `wait2` that matter here: whether an address is given. -/
structure WaitCall where
  addr : Bool
  addr2 : Bool
  deriving DecidableEq, Repr

def WaitCall.wait (addr : Bool) : WaitCall := { addr := addr, addr2 := false }

def WaitCall.wait2 (addr addr2 : Bool) : WaitCall := { addr := addr, addr2 := addr2 }

/-- Where a process is inside one of the calls, with the indices of the loops over the process table
that it is in. -/
inductive Pc where
  -- In user space or in some other system call.
  | user
  -- `fork`: `allocproc` looks at entry `i` next.
  | forkScan (i : Nat)
  -- `fork` before it sets `np->parent`.
  | forkLink (np : Fin NPROC)
  -- `fork` before it sets `np->state`.
  | forkRun (np : Fin NPROC)
  -- `exit`: `reparent` looks at entry `i` next.
  | exitReparent (status : Int32) (i : Nat)
  -- `exit`: `wakeup(initproc)` inside `reparent` looks at entry `j` next.
  | exitReparentWake (status : Int32) (i j : Nat)
  -- `exit`: `wakeup(p->parent)` looks at entry `j` next.
  | exitWakeup (status : Int32) (j : Nat)
  -- `wait`: the scan looks at entry `i` next.
  | waitScan (call : WaitCall) (i : Nat) (havekids : Bool)
  -- `wait` in `sleep(p, &wait_lock)`.
  | waitSleep (call : WaitCall)
  deriving DecidableEq, Repr

structure Reap where
  child : Nat
  -- The child's parent at that time.
  parent : Option Nat
  -- The process that called `wait`.
  reaper : Nat
  -- The value returned.
  ret : Int32
  status : Int32
  -- What was stored at `addr`.
  stored : Option Int32

structure ProcSys where
  proc : Fin NPROC → Proc
  pc : Fin NPROC → Pc
  -- The process that holds `wait_lock`.
  waitLock : Option (Fin NPROC)
  nextpid : Int32
  uid : Fin NPROC → Nat
  nextUid : Nat
  -- The `pid` each incarnation was given.
  pidOf : Nat → Int32
  -- Calls of `exit`: who, with which status.
  exits : List (Nat × Int32)
  reaps : List Reap

/-- The first process (`userinit` takes the first entry of the table). -/
def initproc : Fin NPROC := 0

def freeproc (x : Proc) : Proc :=
  { x with
    pid := 0
    parent := none
    chan := .null
    killed := false
    xstate := 0
    state := .UNUSED }

/-- The body of the loop of `wakeup(chan)`, called by process `p`. -/
def wakeupProc (p : Fin NPROC) (chan : Chan) (now : UInt64) (j : Fin NPROC) (x : Proc) : Proc :=
  if j ≠ p ∧ x.SleepsOn chan then { x with state := .RUNNABLE, readytime := now } else x

/-- The body of the loop of `kill` at the entry it is looking for. -/
def killProc (x : Proc) : Proc :=
  { x with killed := true, state := if x.state = .SLEEPING then .RUNNABLE else x.state }

/-- The channel `wakeup(p->parent)` is called with. -/
def parentChan (x : Proc) : Chan :=
  match x.parent with
  | some q => .proc q
  | none => .null

namespace ProcSys

def set (s : ProcSys) (i : Fin NPROC) (x : Proc) : ProcSys :=
  { s with proc := update s.proc i x }

def goto (s : ProcSys) (p : Fin NPROC) (pc : Pc) : ProcSys :=
  { s with pc := update s.pc p pc }

structure At (s : ProcSys) (p : Fin NPROC) (pc : Pc) : Prop where
  running : (s.proc p).state = .RUNNING
  pc : s.pc p = pc

end ProcSys

/-- The critical sections. What they depend on outside this model (memory for a new process, user
addresses, the clock) is left open. -/
inductive ProcStep (s : ProcSys) : ProcSys → Prop where
  -- `scheduler` runs a process, which leaves `sleep` if it was in it.
  | sched (i : Fin NPROC) (hi : (s.proc i).state = .RUNNABLE) :
      ProcStep s (s.set i { s.proc i with state := .RUNNING, chan := .null })
  -- `yield`, with no spin lock held.
  | yield (p : Fin NPROC) (hp : (s.proc p).state = .RUNNING) (hlock : s.waitLock ≠ some p) :
      ProcStep s (s.set p { s.proc p with state := .RUNNABLE })
  -- `sleep` in some other system call.
  | sleep (p : Fin NPROC) (chan : Chan) (hp : s.At p .user) (hchan : ∀ q, chan ≠ .proc q) :
      ProcStep s (s.set p { s.proc p with state := .SLEEPING, chan := chan })
  -- `wakeup` in some other system call or an interrupt.
  | wakeup (i : Fin NPROC) (now : UInt64) (hi : (s.proc i).state = .SLEEPING)
      (hchan : ∀ q, (s.proc i).chan ≠ .proc q) :
      ProcStep s (s.set i { s.proc i with state := .RUNNABLE, readytime := now })
  -- `kill` finds the entry it looks for.
  | kill (i : Fin NPROC) : ProcStep s (s.set i (killProc (s.proc i)))
  | fork (p : Fin NPROC) (hp : s.At p .user) : ProcStep s (s.goto p (.forkScan 0))
  | forkSkip (p i : Fin NPROC) (hp : s.At p (.forkScan i)) (hi : (s.proc i).state ≠ .UNUSED) :
      ProcStep s ((s.set i { s.proc i with cputime := 0 }).goto p (.forkScan (i + 1)))
  | forkNone (p : Fin NPROC) (hp : s.At p (.forkScan NPROC)) : ProcStep s (s.goto p .user)
  -- No memory for the trapframe, the page table or the copy of the parent's memory.
  | forkFail (p i : Fin NPROC) (hp : s.At p (.forkScan i)) (hi : (s.proc i).state = .UNUSED) :
      ProcStep s { (s.set i (freeproc (s.proc i))).goto p .user with nextpid := s.nextpid + 1 }
  | forkAlloc (p i : Fin NPROC) (hp : s.At p (.forkScan i)) (hi : (s.proc i).state = .UNUSED) :
      ProcStep s { (s.set i { s.proc i with pid := s.nextpid, state := .USED }).goto p (.forkLink i)
        with
        nextpid := s.nextpid + 1
        uid := update s.uid i s.nextUid
        nextUid := s.nextUid + 1
        pidOf := update s.pidOf s.nextUid s.nextpid }
  | forkLink (p np : Fin NPROC) (hp : s.At p (.forkLink np)) (hlock : s.waitLock = none) :
      ProcStep s ((s.set np { s.proc np with parent := some p }).goto p (.forkRun np))
  | forkRun (p np : Fin NPROC) (hp : s.At p (.forkRun np)) :
      ProcStep s ((s.set np { s.proc np with state := .RUNNABLE }).goto p .user)
  -- `exit` takes `wait_lock`; `initproc` panics instead.
  | exit (p : Fin NPROC) (status : Int32) (hp : s.At p .user) (hinit : p ≠ initproc)
      (hlock : s.waitLock = none) :
      ProcStep s { s.goto p (.exitReparent status 0) with
        waitLock := some p
        exits := s.exits ++ [(s.uid p, status)] }
  | reparent (p i : Fin NPROC) (status : Int32) (hp : s.At p (.exitReparent status i))
      (hi : (s.proc i).parent = some p) :
      ProcStep s ((s.set i { s.proc i with parent := some initproc }).goto p
        (.exitReparentWake status i 0))
  | reparentSkip (p i : Fin NPROC) (status : Int32) (hp : s.At p (.exitReparent status i))
      (hi : (s.proc i).parent ≠ some p) :
      ProcStep s (s.goto p (.exitReparent status (i + 1)))
  | reparentWake (p j : Fin NPROC) (i : Nat) (status : Int32) (now : UInt64)
      (hp : s.At p (.exitReparentWake status i j)) :
      ProcStep s ((s.set j (wakeupProc p (.proc initproc) now j (s.proc j))).goto p
        (.exitReparentWake status i (j + 1)))
  | reparentWoken (p : Fin NPROC) (i : Nat) (status : Int32)
      (hp : s.At p (.exitReparentWake status i NPROC)) :
      ProcStep s (s.goto p (.exitReparent status (i + 1)))
  | reparentDone (p : Fin NPROC) (status : Int32) (hp : s.At p (.exitReparent status NPROC)) :
      ProcStep s (s.goto p (.exitWakeup status 0))
  | exitWakeup (p j : Fin NPROC) (status : Int32) (now : UInt64)
      (hp : s.At p (.exitWakeup status j)) :
      ProcStep s ((s.set j (wakeupProc p (parentChan (s.proc p)) now j (s.proc j))).goto p
        (.exitWakeup status (j + 1)))
  -- `ZOMBIE`, and `wait_lock` is released.
  | exitZombie (p : Fin NPROC) (status : Int32) (hp : s.At p (.exitWakeup status NPROC)) :
      ProcStep s { (s.set p { s.proc p with xstate := status, state := .ZOMBIE }).goto p .user with
        waitLock := none }
  | wait (p : Fin NPROC) (call : WaitCall) (hp : s.At p .user) (hlock : s.waitLock = none) :
      ProcStep s { s.goto p (.waitScan call 0 false) with waitLock := some p }
  | waitOther (p i : Fin NPROC) (call : WaitCall) (havekids : Bool)
      (hp : s.At p (.waitScan call i havekids)) (hi : (s.proc i).parent ≠ some p) :
      ProcStep s (s.goto p (.waitScan call (i + 1) havekids))
  | waitChild (p i : Fin NPROC) (call : WaitCall) (havekids : Bool)
      (hp : s.At p (.waitScan call i havekids)) (hi : (s.proc i).parent = some p)
      (hz : (s.proc i).state ≠ .ZOMBIE) :
      ProcStep s (s.goto p (.waitScan call (i + 1) true))
  -- A `copyout` fails: return `-1`.
  | waitCopyFail (p i : Fin NPROC) (call : WaitCall) (havekids : Bool)
      (hp : s.At p (.waitScan call i havekids)) (hi : (s.proc i).parent = some p)
      (hz : (s.proc i).state = .ZOMBIE) (haddr : call.addr = true ∨ call.addr2 = true) :
      ProcStep s { s.goto p .user with waitLock := none }
  | waitReap (p i : Fin NPROC) (call : WaitCall) (havekids : Bool)
      (hp : s.At p (.waitScan call i havekids)) (hi : (s.proc i).parent = some p)
      (hz : (s.proc i).state = .ZOMBIE) :
      ProcStep s { (s.set i (freeproc (s.proc i))).goto p .user with
        waitLock := none
        reaps := s.reaps ++ [
          { child := s.uid i
            parent := (s.proc i).parent.map s.uid
            reaper := s.uid p
            ret := (s.proc i).pid
            status := (s.proc i).xstate
            stored := if call.addr then some (s.proc i).xstate else none }] }
  | waitNone (p : Fin NPROC) (call : WaitCall) (havekids : Bool)
      (hp : s.At p (.waitScan call NPROC havekids))
      (hstop : havekids = false ∨ (s.proc p).killed = true) :
      ProcStep s { s.goto p .user with waitLock := none }
  -- `sleep(p, &wait_lock)`: `p->lock` is taken before `wait_lock` is released.
  | waitSleep (p : Fin NPROC) (call : WaitCall) (hp : s.At p (.waitScan call NPROC true))
      (hkilled : (s.proc p).killed = false) :
      ProcStep s { (s.set p { s.proc p with state := .SLEEPING, chan := .proc p }).goto p
        (.waitSleep call) with waitLock := none }
  -- `sleep` returns with `wait_lock` held.
  | waitWake (p : Fin NPROC) (call : WaitCall) (hp : s.At p (.waitSleep call))
      (hlock : s.waitLock = none) :
      ProcStep s { s.goto p (.waitScan call 0 false) with waitLock := some p }

def bootProcs : ProcSys where
  proc i :=
    { state := if i = initproc then .RUNNABLE else .UNUSED
      chan := .null, killed := false, xstate := 0
      pid := if i = initproc then 1 else 0
      cputime := 0, priority := 0, readytime := 0, parent := none }
  pc _ := .user
  waitLock := none
  nextpid := 2
  uid _ := 0
  nextUid := 1
  pidOf _ := 1
  exits := []
  reaps := []

end Xv6
