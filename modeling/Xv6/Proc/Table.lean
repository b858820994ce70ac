import Mathlib.Tactic

/-!
# The process table

`struct proc` of `kernel/proc.h`, with the fields that `p->lock` and `wait_lock` protect. The
address space, the open files and the saved registers belong to other parts of the model.
-/

namespace Xv6

def NPROC : Nat := 64

instance : NeZero NPROC := ⟨by decide⟩

inductive ProcState where
  | UNUSED
  | USED
  | SLEEPING
  | RUNNABLE
  | RUNNING
  | ZOMBIE
  deriving DecidableEq, Repr

/-- A wait channel: the address of `ticks`, of a process table entry, or of something else. -/
inductive Chan where
  | null
  | ticks
  | proc (i : Fin NPROC)
  | other (addr : Nat)
  deriving DecidableEq, Repr

structure Proc where
  state : ProcState
  chan : Chan
  killed : Bool
  xstate : Int32
  pid : Int32
  cputime : Int32
  priority : Int32
  readytime : UInt64
  parent : Option (Fin NPROC)
  deriving DecidableEq

def Proc.SleepsOn (p : Proc) (chan : Chan) : Prop := p.state = .SLEEPING ∧ p.chan = chan

instance (p : Proc) (chan : Chan) : Decidable (p.SleepsOn chan) :=
  inferInstanceAs (Decidable (_ ∧ _))

end Xv6
