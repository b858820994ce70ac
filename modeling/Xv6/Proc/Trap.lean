import Xv6.Proc.Tree

/-!
# Traps and preemption

`usertrap`, `kerneltrap` and `devintr` (`kernel/trap.c`), followed for one process from trap to trap. A
system call runs between two parts of `usertrap`, and kernel traps come in while it does. In `usertrap`
the call of `yield` is not part of the `if` that it is indented under.
-/

namespace Xv6

open Option

/-- What `devintr` returns: 2 for the timer, 1 for another device, 0 for a cause it does not know. -/
def devintr (scause : UInt64) : Nat :=
  if scause &&& 0x8000000000000000 ≠ 0 ∧ scause &&& 0xff = 9 then 1
  else if scause = 0x8000000000000001 then 2
  else 0

inductive TrapPc where
  | user
  -- In `syscall`, with interrupts on.
  | syscall
  -- In `exit`.
  | exit
  deriving DecidableEq, Repr

structure Trap where
  scause : UInt64
  -- The process was not killed when the handler had to decide.
  live : Bool
  -- How many times the handler has switched the process out.
  yields : Nat
  deriving DecidableEq, Repr

structure TrapSys where
  proc : Proc
  pc : TrapPc
  -- The calls of `yield`.
  yields : Nat
  -- The traps so far, the latest first.
  traps : List Trap

namespace TrapSys

def yield (s : TrapSys) : TrapSys :=
  { s with
    proc := { s.proc with state := .RUNNABLE }
    yields := s.yields + 1 }

def count (s : TrapSys) : TrapSys :=
  { s with proc := { s.proc with cputime := s.proc.cputime + 1 } }

/-- `usertrap` from the second look at `p->killed` on. -/
def usertrapEnd (s : TrapSys) (which_dev : Nat) : TrapSys :=
  if s.proc.killed then
    { s with pc := .exit }
  else
    let s := if which_dev = 2 then s.count else s
    -- not part of the `if`
    { s.yield with pc := .user }

/-- `usertrap` up to its end, or up to the call of `syscall`. -/
def usertrap (s : TrapSys) (scause : UInt64) : TrapSys :=
  if scause = 8 then
    if s.proc.killed then { s with pc := .exit } else { s with pc := .syscall }
  else
    let which_dev := devintr scause
    if which_dev ≠ 0 then
      s.usertrapEnd which_dev
    else
      { s with proc := { s.proc with killed := true } }.usertrapEnd which_dev

/-- `kerneltrap`, which panics on a cause it does not know. -/
def kerneltrap (s : TrapSys) (scause : UInt64) : Option TrapSys :=
  let which_dev := devintr scause
  if which_dev = 0 then
    none
  else if which_dev = 2 ∧ s.proc.state = .RUNNING then
    some s.count.yield
  else
    some s

/-- The handler that started in state `s` is done. -/
def record (s' s : TrapSys) (scause : UInt64) : TrapSys :=
  { s' with traps := ⟨scause, !s.proc.killed, s'.yields - s.yields⟩ :: s'.traps }

end TrapSys

inductive TrapLabel where
  -- A trap from user space.
  | trap (scause : UInt64)
  -- A trap from the kernel, in a system call or in `exit`.
  | kernelTrap (scause : UInt64)
  -- `syscall` returns to `usertrap`.
  | sysret
  | sleep (chan : Chan)
  | exit
  | zombie
  | wakeup
  | kill
  | sched
  deriving DecidableEq, Repr

/-- The traps of the process, what its system calls do to its state, and what other processes and
the scheduler do to it. -/
def trapStep (s : TrapSys) : TrapLabel → Option TrapSys
  | .trap scause =>
    if s.proc.state = .RUNNING ∧ s.pc = .user then
      let s' := s.usertrap scause
      some (if s'.pc = .syscall then s' else s'.record s scause)
    else none
  | .kernelTrap scause =>
    if s.proc.state = .RUNNING ∧ s.pc ≠ .user then
      (s.kerneltrap scause).map (·.record s scause)
    else none
  | .sysret =>
    if s.proc.state = .RUNNING ∧ s.pc = .syscall then
      some ((s.usertrapEnd 0).record s 8)
    else none
  | .sleep chan =>
    if s.proc.state = .RUNNING ∧ s.pc ≠ .user then
      some { s with proc := { s.proc with state := .SLEEPING, chan := chan } }
    else none
  | .exit =>
    if s.proc.state = .RUNNING ∧ s.pc = .syscall then some { s with pc := .exit } else none
  | .zombie =>
    if s.proc.state = .RUNNING ∧ s.pc = .exit then
      some { s with proc := { s.proc with state := .ZOMBIE } }
    else none
  | .wakeup =>
    if s.proc.state = .SLEEPING then
      some { s with proc := { s.proc with state := .RUNNABLE } }
    else none
  | .kill => some { s with proc := killProc s.proc }
  | .sched =>
    if s.proc.state = .RUNNABLE then
      some { s with proc := { s.proc with state := .RUNNING, chan := .null } }
    else none

/-- The process is switched out once for a timer interrupt, if it has not been killed, and not at all
for another trap. -/
def Trap.OnlyTicks (t : Trap) : Prop :=
  if devintr t.scause = 2 then t.live = true → t.yields = 1 else t.yields = 0

instance (t : Trap) : Decidable t.OnlyTicks := by
  unfold Trap.OnlyTicks
  infer_instance

/-- A process that another device interrupts in user space, or whose system call is done, has been
killed. -/
def ExitsInstead (s : TrapSys) : TrapLabel → Prop
  | .trap scause => devintr scause = 1 → s.proc.killed = true
  | .sysret => s.proc.killed = true
  | _ => True

def AlwaysExits : TrapSys → List TrapLabel → Prop
  | _, [] => True
  | s, l :: ls => ExitsInstead s l ∧ ∀ s', trapStep s l = some s' → AlwaysExits s' ls

section Handlers

variable {s : TrapSys} {scause : UInt64}

theorem yields_usertrapEnd (s : TrapSys) (which_dev : Nat) :
    (s.usertrapEnd which_dev).yields = s.yields + if s.proc.killed = true then 0 else 1 := by
  unfold TrapSys.usertrapEnd
  cases s.proc.killed with
  | true => rfl
  | false =>
    by_cases htimer : which_dev = 2
    · simp only [htimer, if_true]
      rfl
    · simp only [htimer, if_false]
      rfl

theorem traps_usertrapEnd (s : TrapSys) (which_dev : Nat) :
    (s.usertrapEnd which_dev).traps = s.traps := by
  unfold TrapSys.usertrapEnd
  by_cases hkilled : s.proc.killed = true
  · rw [if_pos hkilled]
  · rw [if_neg hkilled]
    by_cases htimer : which_dev = 2
    · simp only [htimer, if_true]
      rfl
    · simp only [htimer, if_false]
      rfl

theorem traps_usertrap (s : TrapSys) (scause : UInt64) : (s.usertrap scause).traps = s.traps := by
  unfold TrapSys.usertrap
  by_cases hcall : scause = 8
  · rw [if_pos hcall]
    split
    · rfl
    · rfl
  · rw [if_neg hcall]
    dsimp only
    split
    · exact traps_usertrapEnd ..
    · exact traps_usertrapEnd ..

theorem pc_usertrapEnd (s : TrapSys) (which_dev : Nat) : (s.usertrapEnd which_dev).pc ≠ .syscall := by
  unfold TrapSys.usertrapEnd
  split
  · exact nofun
  · exact nofun

theorem scause_of_syscall (h : (s.usertrap scause).pc = .syscall) : scause = 8 := by
  by_contra hcall
  unfold TrapSys.usertrap at h
  rw [if_neg hcall] at h
  dsimp only at h
  split at h
  · exact pc_usertrapEnd _ _ h
  · exact pc_usertrapEnd _ _ h

/-- `usertrap` does not come back from a system call at once, and switches the process out if it comes
back at all. -/
theorem yields_usertrap (s : TrapSys) (scause : UInt64) :
    (s.usertrap scause).yields
      = s.yields + if devintr scause = 0 ∨ s.proc.killed = true then 0 else 1 := by
  unfold TrapSys.usertrap
  by_cases hcall : scause = 8
  · have hdev : devintr scause = 0 := by
      rw [hcall]
      decide
    rw [if_pos hcall, if_pos (show _ ∨ _ from .inl hdev)]
    by_cases hkilled : s.proc.killed = true
    · rw [if_pos hkilled]
      rfl
    · rw [if_neg hkilled]
      rfl
  · rw [if_neg hcall]
    dsimp only
    by_cases hdev : devintr scause = 0
    · rw [if_neg (not_not.mpr hdev), if_pos (show _ ∨ _ from .inl hdev), yields_usertrapEnd]
      rfl
    · rw [if_pos hdev, yields_usertrapEnd]
      simp only [hdev, false_or]

end Handlers

/-- A trap that is dealt with keeps to the rule exactly when the step meets the condition. -/
theorem trapStep_traps {s s' : TrapSys} {l : TrapLabel} (h : trapStep s l = some s') :
    s'.traps = s.traps ∧ ExitsInstead s l ∨
      ∃ t, s'.traps = t :: s.traps ∧ (t.OnlyTicks ↔ ExitsInstead s l) := by
  -- the steps of others, and those in which no handler is involved
  have hquiet {x : TrapSys} {c : Prop} [Decidable c] (h : (if c then some x else none) = some s')
      (hx : x.traps = s.traps) : s'.traps = s.traps := by
    obtain ⟨-, hs'⟩ := ite_none_right_eq_some.mp h
    cases hs'
    exact hx
  cases l with
  | trap scause =>
    obtain ⟨-, hs'⟩ := ite_none_right_eq_some.mp h
    cases hs'
    have htraps := traps_usertrap s scause
    by_cases hcall : (s.usertrap scause).pc = .syscall
    · -- the system call has only begun
      have hscause := scause_of_syscall hcall
      rw [if_pos hcall]
      refine .inl ⟨htraps, fun hdev => ?_⟩
      rw [hscause] at hdev
      exact absurd hdev (by decide)
    · rw [if_neg hcall]
      refine .inr ⟨_, congrArg (_ :: ·) htraps, ?_⟩
      unfold Trap.OnlyTicks ExitsInstead
      dsimp only
      rw [yields_usertrap, Nat.add_sub_cancel_left]
      have hrange : devintr scause = 0 ∨ devintr scause = 1 ∨ devintr scause = 2 := by
        unfold devintr
        split
        · exact .inr (.inl rfl)
        · split
          · exact .inr (.inr rfl)
          · exact .inl rfl
      rcases hrange with hdev | hdev | hdev
      · simp [hdev]
      · simp [hdev]
      · cases s.proc.killed with
        | true => simp [hdev]
        | false => simp [hdev]
  | kernelTrap scause =>
    obtain ⟨⟨hrun, hpc⟩, hmap⟩ := ite_none_right_eq_some.mp h
    obtain ⟨s1, hs1, rfl⟩ := map_eq_some_iff.mp hmap
    unfold TrapSys.kerneltrap at hs1
    dsimp only at hs1
    by_cases hdev : devintr scause = 0
    · rw [if_pos hdev] at hs1
      cases hs1
    rw [if_neg hdev] at hs1
    by_cases htimer : devintr scause = 2
    · rw [if_pos ⟨htimer, hrun⟩] at hs1
      cases hs1
      refine .inr ⟨_, rfl, iff_of_true ?_ trivial⟩
      unfold Trap.OnlyTicks
      rw [if_pos htimer]
      exact fun _ => Nat.add_sub_cancel_left ..
    · rw [if_neg fun hno => htimer hno.1] at hs1
      cases hs1
      refine .inr ⟨_, rfl, iff_of_true ?_ trivial⟩
      unfold Trap.OnlyTicks
      rw [if_neg htimer]
      exact Nat.sub_self _
  | sysret =>
    obtain ⟨-, hs'⟩ := ite_none_right_eq_some.mp h
    cases hs'
    refine .inr ⟨_, congrArg (_ :: ·) (traps_usertrapEnd s 0), ?_⟩
    unfold Trap.OnlyTicks ExitsInstead
    dsimp only
    rw [if_neg (show devintr 8 ≠ 2 by decide), yields_usertrapEnd, Nat.add_sub_cancel_left]
    cases s.proc.killed with
    | true => simp
    | false => simp
  | sleep | exit | zombie | wakeup | sched => exact .inl ⟨hquiet h rfl, trivial⟩
  | kill =>
    cases h
    exact .inl ⟨rfl, trivial⟩

theorem onlyTicks_run {s s' : TrapSys} {ls : List TrapLabel} (hrun : ls.foldlM trapStep s = some s') :
    (∀ t ∈ s'.traps, t.OnlyTicks) ↔ (∀ t ∈ s.traps, t.OnlyTicks) ∧ AlwaysExits s ls := by
  induction ls generalizing s with
  | nil =>
    cases hrun
    exact (and_iff_left trivial).symm
  | cons l ls ih =>
    rw [List.foldlM_cons] at hrun
    obtain ⟨s1, hstep, hrest⟩ := bind_eq_some_iff.mp hrun
    have hnext : (∀ s', trapStep s l = some s' → AlwaysExits s' ls) ↔ AlwaysExits s1 ls := by
      rw [hstep]
      simp only [some_inj, forall_eq']
    rw [ih hrest, AlwaysExits, hnext, ← and_assoc]
    refine and_congr_left fun _ => ?_
    rcases trapStep_traps hstep with ⟨htraps, hmet⟩ | ⟨t, htraps, hmet⟩
    · rw [htraps]
      exact (and_iff_left hmet).symm
    · rw [htraps, List.forall_mem_cons, hmet, and_comm]

/-- **Preemption.** In a run of a process through any traps the handlers switch it out once for every
timer interrupt, and never for anything else, exactly when it never comes back to user space from a
system call or from the interrupt of another device. -/
theorem preempts_only_at_ticks_iff {s s' : TrapSys} (hstart : s.traps = []) {ls : List TrapLabel}
    (hrun : ls.foldlM trapStep s = some s') :
    (∀ t ∈ s'.traps, t.OnlyTicks) ↔ AlwaysExits s ls := by
  rw [onlyTicks_run hrun, hstart]
  exact and_iff_right fun t ht => absurd ht List.not_mem_nil

def userRunning : TrapSys where
  proc :=
    { state := .RUNNING, chan := .null, killed := false, xstate := 0, pid := 3, cputime := 0,
      priority := 0, readytime := 0, parent := none }
  pc := .user
  yields := 0
  traps := []

/-- Two timer interrupts, one in user space and one in a system call. -/
theorem preempts_only_at_ticks_two :
    AlwaysExits userRunning [.trap 0x8000000000000001, .sched, .trap 8,
      .kernelTrap 0x8000000000000001] ∧
    ∃ s', [TrapLabel.trap 0x8000000000000001, .sched, .trap 8, .kernelTrap 0x8000000000000001].foldlM
        trapStep userRunning = some s' ∧ ∀ t ∈ s'.traps, t.OnlyTicks := by
  have hmeets : AlwaysExits userRunning [.trap 0x8000000000000001, .sched, .trap 8,
      .kernelTrap 0x8000000000000001] := by
    refine ⟨fun hdev => absurd hdev (by decide), fun _ _ => ⟨trivial, fun _ _ => ?_⟩⟩
    exact ⟨fun hdev => absurd hdev (by decide), fun _ _ => ⟨trivial, fun _ _ => trivial⟩⟩
  exact ⟨hmeets, _, rfl, (preempts_only_at_ticks_iff rfl rfl).mpr hmeets⟩

/-- A system call that returns at once: `usertrap` switches the process out. -/
theorem syscall_preempts : ∃ s',
    [TrapLabel.trap 8, .sysret].foldlM trapStep userRunning = some s' ∧ s'.proc.state = .RUNNABLE ∧
      s'.traps = [⟨8, true, 1⟩] ∧ ¬ ∀ t ∈ s'.traps, t.OnlyTicks :=
  ⟨_, rfl, rfl, rfl, by decide⟩

end Xv6
