import Mathlib.Tactic

/-!
# Spin locks on one CPU

`kernel/spinlock.c` as seen by one CPU: its interrupt state and the locks it takes. A lock this
CPU holds already is a panic. A lock held by another CPU makes `acquire` spin until that CPU lets
go; what the other CPU writes meanwhile is not in this view, so the run ends there.
-/

namespace Xv6

/-- The part of `struct cpu` that spin locks use, and the CPU's interrupt enable bit. -/
structure Cpu where
  noff : Nat
  intena : Bool
  intr : Bool
  deriving DecidableEq, Repr

/-- `struct spinlock`; `cpu` is the number of the CPU that holds it. -/
structure Spinlock where
  locked : Bool
  cpu : Option Nat
  deriving DecidableEq, Repr

inductive SpinStop where
  | acquire
  -- No panic: another CPU has the lock, and may change what it protects.
  | spin
  | release
  | popOffInterruptible
  | popOff
  deriving DecidableEq, Repr

def pushOff (c : Cpu) : Cpu where
  noff := c.noff + 1
  intena := if c.noff = 0 then c.intr else c.intena
  intr := false

def popOff (c : Cpu) : Except SpinStop Cpu :=
  if c.intr then .error .popOffInterruptible
  else if c.noff < 1 then .error .popOff
  else
    let c := { c with noff := c.noff - 1 }
    .ok { c with intr := c.intr || (c.noff == 0 && c.intena) }

namespace Spinlock

def holding (lk : Spinlock) (n : Nat) : Bool := lk.locked && lk.cpu == some n

def acquire (lk : Spinlock) (n : Nat) (c : Cpu) : Except SpinStop (Spinlock × Cpu) :=
  let c := pushOff c
  if lk.holding n then .error .acquire
  else if lk.locked then .error .spin
  else .ok ({ locked := true, cpu := some n }, c)

def release (lk : Spinlock) (n : Nat) (c : Cpu) : Except SpinStop (Spinlock × Cpu) :=
  if lk.holding n then do
    let c ← popOff c
    return ({ locked := false, cpu := none }, c)
  else .error .release

def free : Spinlock := { locked := false, cpu := none }

theorem acquire_eq {lk : Spinlock} {n : Nat} (hfree : lk.locked = false) (c : Cpu) :
    lk.acquire n c = .ok ({ locked := true, cpu := some n }, pushOff c) := by
  simp [acquire, holding, hfree]

theorem acquire_held {lk : Spinlock} {n : Nat} (hheld : lk.holding n = true) (c : Cpu) :
    lk.acquire n c = .error .acquire := by
  simp [acquire, hheld]

theorem holding_taken (n : Nat) : holding { locked := true, cpu := some n } n = true := by
  simp [holding]

end Spinlock

/-- With a lock held already (interrupts off, `noff` above zero) another `acquire` and
`release` leave the interrupt state as it was. -/
theorem popOff_pushOff {c : Cpu} (hoff : c.intr = false) (hdepth : 0 < c.noff) :
    popOff (pushOff c) = .ok c := by
  obtain ⟨noff, intena, intr⟩ := c
  simp only at hoff hdepth
  have hne : noff ≠ 0 := by omega
  unfold popOff pushOff
  simp [hne, hoff]

theorem popOff_ok {c : Cpu} (hoff : c.intr = false) (hdepth : 0 < c.noff) :
    ∃ c', popOff c = .ok c' := by
  unfold popOff
  rw [if_neg (by simp [hoff]), if_neg (by omega)]
  exact ⟨_, rfl⟩

end Xv6
