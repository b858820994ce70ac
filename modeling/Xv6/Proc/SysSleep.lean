import Xv6.Lib.Bytes
import Xv6.Lib.Machine

/-!
# The sleep system call

`sys_sleep` (`kernel/sysproc.c`), followed from its call to its return while the clock ticks and
other processes wake the caller up or kill it. The difference of the tick counts is unsigned, so that
a negative `n` is compared as a number above 2^31.
-/

namespace Xv6

open Machines

inductive SleepPc where
  -- Before `acquire(&tickslock)`.
  | entry
  -- At the test of the loop.
  | check
  -- On the way into `sleep`, with `tickslock` still held.
  | doze
  | sleeping
  -- Made RUNNABLE, and not yet back from `sleep`.
  | awake
  | ret (value : Int)
  deriving DecidableEq

structure SleepSys where
  ticks : UInt32
  ticks0 : UInt32
  killed : Bool
  pc : SleepPc
  -- The ticks since `ticks0` was read.
  elapsed : Nat

namespace SleepSys

/-- `while(ticks - ticks0 < n)` and the first statements of its body. -/
def recheck (n : Int32) (s : SleepSys) : SleepPc :=
  if s.ticks - s.ticks0 < n.toUInt32 then
    if s.killed then .ret (-1) else .doze
  else
    .ret 0

/-- What `wakeup(&ticks)` and `kill` do to a process that sleeps. -/
def wake (s : SleepSys) : SleepSys :=
  { s with pc := if s.pc = .sleeping then .awake else s.pc }

def Locked (s : SleepSys) : Prop := s.pc = .check ∨ s.pc = .doze

end SleepSys

/-- The caller's steps, and `clockintr`, `wakeup(&ticks)` and `kill` around them. `sleep` is one
step, as the caller holds its own lock from before it releases `tickslock` until it is off the CPU,
and `wakeup` and `kill` take that lock. -/
inductive SleepStep (n : Int32) : SleepSys → Unit → SleepSys → Prop where
  | acquire {s} (h : s.pc = .entry) :
      SleepStep n s () { s with ticks0 := s.ticks, elapsed := 0, pc := .check }
  | check {s} (h : s.pc = .check) : SleepStep n s () { s with pc := s.recheck n }
  | sleep {s} (h : s.pc = .doze) : SleepStep n s () { s with pc := .sleeping }
  | reacquire {s} (h : s.pc = .awake) : SleepStep n s () { s with pc := .check }
  | clockintr {s} (h : ¬ s.Locked) :
      SleepStep n s () { s.wake with ticks := s.ticks + 1, elapsed := s.elapsed + 1 }
  | wakeup {s} : SleepStep n s () s.wake
  | kill {s} : SleepStep n s () { s.wake with killed := true }

def sleepMachine (n : Int32) : Machine SleepSys Unit where
  init s := s.pc = .entry
  step := SleepStep n

/-- What the caller of `sleep(n)` can rely on. -/
structure Sleeps (n : Int32) (s : SleepSys) : Prop where
  -- There is nothing to wait for.
  none : n.toInt ≤ 0 → s.pc = .entry ∨ (s.pc = .check ∧ s.recheck n = .ret 0) ∨ s.pc = .ret 0
  -- It does not return early.
  enough : 0 < n.toInt → s.pc = .check → s.recheck n = .ret 0 → n.toInt ≤ s.elapsed
  -- It does not sleep on.
  done : 0 < n.toInt → s.pc = .check → n.toInt ≤ s.elapsed → s.elapsed < 2 ^ 32 →
    s.recheck n = .ret 0
  killed : s.pc = .check → s.recheck n = .ret (-1) → s.killed = true

variable {s : SleepSys} {n : Int32}

theorem ticks_eq (h : Reachable (sleepMachine n) s) :
    s.pc = .entry ∨ s.ticks = s.ticks0 + UInt32.ofNat s.elapsed := by
  induction h with
  | start h => exact .inl h
  | next _ hstep ih =>
    cases hstep with
    | acquire h => exact .inr (by simp)
    | check h | sleep h | reacquire h =>
      rw [h] at ih
      exact .inr (ih.resolve_left (by simp))
    | clockintr h =>
      refine ih.imp (fun hpc => ?_) fun heq => ?_
      · simp [SleepSys.wake, hpc]
      · show _ + 1 = _ + UInt32.ofNat (_ + 1)
        rw [heq, UInt32.ofNat_add, UInt32.add_assoc]
        rfl
    | wakeup | kill =>
      refine ih.imp_left fun hpc => ?_
      simp [SleepSys.wake, hpc]

theorem recheck_eq_zero_iff (hn : 0 ≤ n.toInt) (h : s.ticks = s.ticks0 + UInt32.ofNat s.elapsed) :
    s.recheck n = .ret 0 ↔ n.toInt ≤ (s.elapsed % 2 ^ 32 : Nat) := by
  have hdiff : s.ticks - s.ticks0 = UInt32.ofNat s.elapsed := by
    rw [h, UInt32.add_comm, UInt32.add_sub_cancel]
  have hn' := Bytes.toNat_toUInt32 n
  rw [if_neg (by omega)] at hn'
  have hlt : s.ticks - s.ticks0 < n.toUInt32 ↔ ¬ n.toInt ≤ (s.elapsed % 2 ^ 32 : Nat) := by
    rw [hdiff, UInt32.lt_iff_toNat_lt, UInt32.toNat_ofNat', ← hn']
    omega
  unfold SleepSys.recheck
  split_ifs with hc hk
  · exact iff_of_false (by simp) (hlt.mp hc)
  · exact iff_of_false (by simp) (hlt.mp hc)
  · exact iff_of_true rfl (not_not.mp fun hle => hc (hlt.mpr hle))

theorem killed_of_recheck (h : s.recheck n = .ret (-1)) : s.killed = true := by
  unfold SleepSys.recheck at h
  split_ifs at h with hc hk
  · exact hk
  · simp at h

theorem pc_of_zero (hn : n.toInt = 0) (h : Reachable (sleepMachine n) s) :
    s.pc = .entry ∨ (s.pc = .check ∧ s.recheck n = .ret 0) ∨ s.pc = .ret 0 := by
  have hall : ∀ s : SleepSys, s.recheck n = .ret 0 := by
    intro s
    obtain rfl : n = 0 := Int32.toInt_inj.mp hn
    exact if_neg UInt32.not_lt_zero
  induction h with
  | start h => exact .inl h
  | next _ hstep ih =>
    cases hstep with
    | acquire h => exact .inr (.inl ⟨rfl, hall _⟩)
    | check h => exact .inr (.inr (hall _))
    | sleep h | reacquire h => simp [h] at ih
    | clockintr h | wakeup | kill =>
      rcases ih with hpc | hpc | hpc
      · exact .inl (by simp [SleepSys.wake, hpc])
      · exact .inr (.inl ⟨by simp [SleepSys.wake, hpc.1], hall _⟩)
      · exact .inr (.inr (by simp [SleepSys.wake, hpc]))

/-- `sleep(n)` sleeps for `n` ticks, whatever the clock and other processes do meanwhile, exactly when
`n` is not negative. -/
theorem sleeps_iff (n : Int32) :
    (∀ s, Reachable (sleepMachine n) s → Sleeps n s) ↔ 0 ≤ n.toInt := by
  constructor
  · -- a call with a negative argument goes to sleep at its first test
    intro h
    by_contra hn
    have hentry : Reachable (sleepMachine n) ⟨0, 0, false, .entry, 0⟩ := .start rfl
    have hcheck := hentry.next (SleepStep.acquire rfl)
    have hn' := Bytes.toNat_toUInt32 n
    have hlo := n.le_toInt
    have hlt : (0 : UInt32) - 0 < n.toUInt32 := by
      rw [UInt32.lt_iff_toNat_lt]
      show 0 < _
      split at hn' <;> omega
    rcases (h _ hcheck).none (by omega) with hpc | ⟨-, hret⟩ | hpc
    · cases hpc
    · simp only [SleepSys.recheck, if_pos hlt] at hret
      cases hret
    · cases hpc
  · intro hn s h
    have hticks : s.pc = .check → s.ticks = s.ticks0 + UInt32.ofNat s.elapsed := by
      intro hpc
      refine (ticks_eq h).resolve_left ?_
      simp [hpc]
    refine ⟨fun hle => pc_of_zero (by omega) h, fun _ hpc hret => ?_, fun _ hpc hge hlt => ?_,
      fun _ => killed_of_recheck⟩
    · have := (recheck_eq_zero_iff hn (hticks hpc)).mp hret
      omega
    · refine (recheck_eq_zero_iff hn (hticks hpc)).mpr ?_
      rwa [Nat.mod_eq_of_lt hlt]

theorem sleep_negative :
    ∃ s, Reachable (sleepMachine (-1)) s ∧ s.pc = .sleeping := by
  have hentry : Reachable (sleepMachine (-1)) ⟨0, 0, false, .entry, 0⟩ := .start rfl
  have hcheck := hentry.next (SleepStep.acquire rfl)
  have hdoze := hcheck.next (SleepStep.check rfl)
  exact ⟨_, hdoze.next (SleepStep.sleep (by decide)), rfl⟩

end Xv6
