import Xv6.Proc.Tree

/-!
# Ready times

`readytime` of `struct proc`, followed through everything that makes a process RUNNABLE
(`kernel/proc.c`) while the clock ticks. Only `wakeup` sets the field: `yield`, `fork` and `kill` have
to find the right value there. The ghost `since` notes the tick at which an entry becomes RUNNABLE.
-/

namespace Xv6

open Machines Function

structure ReadySys where
  proc : Fin NPROC → Proc
  ticks : UInt32
  nextpid : Int32
  -- The tick at which each entry last became RUNNABLE.
  since : Fin NPROC → UInt64

inductive ReadyLabel where
  | tick
  | sched (i : Fin NPROC)
  | yield (i : Fin NPROC)
  | sleep (i : Fin NPROC) (chan : Chan)
  -- `wakeup(chan)`, called by process `p` or by an interrupt that it takes, gets to entry `i`.
  | wakeup (p : Fin NPROC) (chan : Chan) (i : Fin NPROC)
  | kill (i : Fin NPROC)
  -- `allocproc` goes past an entry.
  | allocSkip (i : Fin NPROC)
  | alloc (i : Fin NPROC)
  -- There is no memory for the new process.
  | allocFail (i : Fin NPROC)
  -- The end of `fork`, called by process `p`.
  | start (p i : Fin NPROC)
  | exit (i : Fin NPROC) (status : Int32)
  -- `wait` frees the entry.
  | free (i : Fin NPROC)

/-- The entry a critical section holds, the state it finds it in, if that matters, and what it
leaves there. -/
def ReadyLabel.apply (s : ReadySys) : ReadyLabel → Option (Fin NPROC × Option ProcState × Proc)
  | tick => none
  | sched i => some (i, some .RUNNABLE, { s.proc i with state := .RUNNING, chan := .null })
  | yield i => some (i, some .RUNNING, { s.proc i with state := .RUNNABLE })
  | sleep i chan => some (i, some .RUNNING, { s.proc i with state := .SLEEPING, chan := chan })
  | wakeup p chan i => some (i, none, wakeupProc p chan s.ticks.toUInt64 i (s.proc i))
  | kill i => some (i, none, killProc (s.proc i))
  | allocSkip i => some (i, none, { s.proc i with cputime := 0 })
  | alloc i => some (i, some .UNUSED, { s.proc i with pid := s.nextpid, state := .USED })
  | allocFail i => some (i, some .USED, freeproc (s.proc i))
  | start p i => some (i, some .USED, { s.proc i with parent := some p, state := .RUNNABLE })
  | exit i status => some (i, some .RUNNING, { s.proc i with xstate := status, state := .ZOMBIE })
  | free i => some (i, some .ZOMBIE, freeproc (s.proc i))

def ReadySys.put (s : ReadySys) (i : Fin NPROC) (x : Proc) : ReadySys :=
  { s with
    proc := update s.proc i x
    since :=
      if x.state = .RUNNABLE ∧ (s.proc i).state ≠ .RUNNABLE then
        update s.since i s.ticks.toUInt64
      else s.since }

def readyStep (s : ReadySys) (l : ReadyLabel) : Option ReadySys :=
  match l.apply s with
  | none => some { s with ticks := s.ticks + 1 }
  | some (i, found, x) =>
    if ∀ st ∈ found, (s.proc i).state = st then
      some { s.put i x with nextpid := match l with
        | .alloc _ => s.nextpid + 1
        | _ => s.nextpid }
    else none

/-- From `userinit` on, which comes before the first tick. -/
def readyMachine : Machine ReadySys ReadyLabel where
  init s := s = { proc := bootProcs.proc, ticks := 0, nextpid := 2, since := fun _ => 0 }
  step s l s' := readyStep s l = some s'

/-- Every RUNNABLE process is ready since its `readytime`. -/
def ReadyTimes (s : ReadySys) : Prop :=
  ∀ i, (s.proc i).state = .RUNNABLE → (s.proc i).readytime = s.since i

/-- An entry that becomes RUNNABLE other than by `wakeup` has the present tick as its `readytime`
already. -/
def Timely (s : ReadySys) : ReadyLabel → Prop
  | .yield i | .start _ i => (s.proc i).readytime = s.ticks.toUInt64
  | .kill i => (s.proc i).state = .SLEEPING → (s.proc i).readytime = s.ticks.toUInt64
  | _ => True

theorem ReadyTimes.put {s : ReadySys} {i : Fin NPROC} {x : Proc} (h : ReadyTimes s)
    (hnew : x.state = .RUNNABLE → (s.proc i).state ≠ .RUNNABLE → x.readytime = s.ticks.toUInt64)
    (hold : x.state = .RUNNABLE → (s.proc i).state = .RUNNABLE →
      x.readytime = (s.proc i).readytime) : ReadyTimes (s.put i x) := by
  intro j hj
  by_cases hij : j = i
  · subst hij
    simp only [ReadySys.put, update_self] at hj ⊢
    by_cases hst : (s.proc j).state = .RUNNABLE
    · rw [hold hj hst, if_neg (by simp [hst]), h j hst]
    · rw [hnew hj hst, if_pos ⟨hj, hst⟩, update_self]
  · simp only [ReadySys.put, update_of_ne hij] at hj ⊢
    rw [h j hj]
    split_ifs
    · rw [update_of_ne hij]
    · rfl

theorem ReadyLabel.apply_spec {s : ReadySys} {l : ReadyLabel} {i : Fin NPROC}
    {found : Option ProcState} {x : Proc} (h : l.apply s = some (i, found, x))
    (hfound : ∀ st ∈ found, (s.proc i).state = st) (ht : Timely s l) (hx : x.state = .RUNNABLE) :
    ((s.proc i).state ≠ .RUNNABLE → x.readytime = s.ticks.toUInt64) ∧
      ((s.proc i).state = .RUNNABLE → x.readytime = (s.proc i).readytime) := by
  -- only `wakeup` writes the field; for the others `Timely` says that it is right
  cases l with
  | tick => cases h
  | wakeup p chan j =>
    cases h
    unfold wakeupProc at hx ⊢
    split_ifs at hx ⊢ with hs
    · exact ⟨fun _ => rfl, fun hr => absurd (hs.2.1.symm.trans hr) (by simp)⟩
    · exact ⟨fun hne => absurd hx hne, fun _ => rfl⟩
  | kill j =>
    cases h
    refine ⟨fun hne => ?_, fun _ => rfl⟩
    simp only [killProc] at hx
    split_ifs at hx with hs
    · exact ht hs
    · exact absurd hx hne
  | yield j | start p j =>
    cases h
    exact ⟨fun _ => ht, fun hr => by simp [hfound _ rfl] at hr⟩
  | allocSkip j =>
    cases h
    exact ⟨fun hne => absurd hx hne, fun _ => rfl⟩
  | _ =>
    cases h
    cases hx

theorem ReadyTimes.step {s s' : ReadySys} {l : ReadyLabel} (h : ReadyTimes s) (ht : Timely s l)
    (hstep : readyStep s l = some s') : ReadyTimes s' := by
  unfold readyStep at hstep
  split at hstep
  · cases hstep
    exact h
  · rename_i i found x happly
    split_ifs at hstep with hfound
    cases hstep
    have hspec := ReadyLabel.apply_spec happly hfound ht
    exact h.put (fun hx => (hspec hx).1) fun hx => (hspec hx).2

/-- The ready times are right as long as every entry that `yield`, `fork` or `kill` makes RUNNABLE
has the right one. -/
theorem readyTimes_of_timely {s : ReadySys} (h : Reachable (readyMachine.restrict Timely) s) :
    ∀ i, (s.proc i).state = .RUNNABLE → (s.proc i).readytime = s.since i := by
  have hinv : ReadyTimes s := by
    refine Reachable.invariant ?_ (fun s l s' _ hs hstep => hs.step hstep.1 hstep.2) h
    rintro s rfl i -
    rfl
  exact hinv

/-- The first process sleeps, and is woken up after a tick. -/
theorem readyTimes_after_wakeup :
    ∃ s, Reachable (readyMachine.restrict Timely) s ∧ (s.proc 0).state = .RUNNABLE ∧
      s.ticks = 1 ∧ (s.proc 0).readytime = s.since 0 := by
  have h0 : Reachable (readyMachine.restrict Timely) _ := .start rfl
  have h1 := h0.go (.sched 0) trivial rfl
  have h2 := h1.go (.sleep 0 (.other 7)) trivial rfl
  have h3 := h2.go .tick trivial rfl
  have h4 := h3.go (.wakeup 1 (.other 7) 0) trivial rfl
  exact ⟨_, h4, rfl, rfl, readyTimes_of_timely h4 0 rfl⟩

/-- A process that runs through a tick and then yields keeps its old `readytime`. -/
theorem yield_keeps_readytime :
    ∃ s, Reachable readyMachine s ∧ (s.proc 0).state = .RUNNABLE ∧ (s.proc 0).readytime = 0 ∧
      s.since 0 = 1 := by
  have h0 : Reachable readyMachine _ := .start rfl
  have h1 := h0.next (show readyStep _ (.sched 0) = some _ from rfl)
  have h2 := h1.next (show readyStep _ .tick = some _ from rfl)
  have h3 := h2.next (show readyStep _ (.yield 0) = some _ from rfl)
  exact ⟨_, h3, rfl, rfl, rfl⟩

end Xv6
