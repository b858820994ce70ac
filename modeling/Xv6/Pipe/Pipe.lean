import Xv6.Lib.Machine
import Xv6.Lib.Ring
import Xv6.Proc.Table

/-!
# Pipes

`kernel/pipe.c` for one pipe and the processes that use it.

`sleep` gives up `pi->lock` while it holds the lock of the process (`Rest.dozing`), and only then
is the process asleep; `wakeup` and `kill` wait for that lock.

The memory of a pipe whose ends are both closed is not given to anybody else, so calls that are
still under way find the fields as they were left.
-/

namespace Xv6

def PIPESIZE : Nat := 512

/-- `struct pipe`, less its lock. -/
structure Pipe where
  data : Nat → UInt8
  nread : UInt32
  nwrite : UInt32
  readopen : Bool
  writeopen : Bool

/-- What processes sleep on: `&pi->nread` and `&pi->nwrite`. -/
inductive PipeChan where
  | nread
  | nwrite
  deriving DecidableEq

/-- A call, with the values of its variables when it takes `pi->lock`: when it starts, or when
`sleep` returns. `src j` is byte `j` of the source if it can be loaded, and `dst j` tells whether
byte `j` of the destination can be stored to. -/
inductive PipeCall where
  | pipewrite (src : Nat → Option UInt8) (n : Int) (i : Nat)
  | piperead (dst : Nat → Bool) (n : Int)
  | pipeclose (writable : Bool)

inductive AfterWakeup where
  -- `sleep(chan, &pi->lock)`, and then the loop of the call again.
  | sleep (chan : PipeChan) (c : PipeCall)
  -- `release(&pi->lock); return i` of `pipewrite`.
  | wrote (i : Nat)
  -- The same of `piperead`, which was asked for `n` bytes and has stored `got`.
  | read (n : Int) (i : Nat) (got : List UInt8)
  -- The end of `pipeclose`.
  | closed

inductive PipePc where
  | idle
  -- `acquire(&pi->lock)`.
  | want (c : PipeCall)
  -- At the loop of `pipewrite`; `i₀` is the value of `i` when the lock was taken.
  | writing (src : Nat → Option UInt8) (n : Int) (i₀ i : Nat)
  -- At the first loop of `piperead`.
  | waiting (dst : Nat → Bool) (n : Int)
  -- At the second loop of `piperead`; `got` is what the call has stored in its destination.
  | reading (dst : Nat → Bool) (n : Int) (i : Nat) (got : List UInt8)
  -- In the loop of `wakeup(chan)`, at process `j`.
  | waking (chan : PipeChan) (j : Nat) (k : AfterWakeup)
  -- `release(&pi->lock); return -1`.
  | fail

inductive Rest where
  | awake
  -- In `sleep`, with the lock of the process held.
  | dozing (chan : PipeChan)
  -- `SLEEPING` on `chan`.
  | sleeping (chan : PipeChan)
  deriving DecidableEq

structure PipeProc where
  pc : PipePc
  rest : Rest
  killed : Bool

/-- `written` are the bytes stored in the pipe by writers since it was made, and `returned` the calls
of `piperead` that have returned: the number each returned, and what it stored for its caller. -/
structure PipeSys where
  pi : Pipe
  lock : Option (Fin NPROC)
  proc : Fin NPROC → PipeProc
  written : List UInt8
  returned : List (Nat × List UInt8)

/-- What the return after a `wakeup` adds to `returned`. -/
def AfterWakeup.result : AfterWakeup → List (Nat × List UInt8)
  | .read _ i got => [(i, got)]
  | _ => []

namespace PipeSys

def setProc (s : PipeSys) (p : Fin NPROC) (q : PipeProc) : PipeSys :=
  { s with proc := Function.update s.proc p q }

def setPc (s : PipeSys) (p : Fin NPROC) (pc : PipePc) : PipeSys :=
  s.setProc p { s.proc p with pc := pc }

/-- `sleep(chan, &pi->lock)` up to the point where `pi->lock` is free. -/
def doze (s : PipeSys) (p : Fin NPROC) (chan : PipeChan) (c : PipeCall) : PipeSys :=
  { s with lock := none }.setProc p { s.proc p with pc := .want c, rest := .dozing chan }

/-- `release(&pi->lock)` and the return from the call. -/
def leave (s : PipeSys) (p : Fin NPROC) (result : List (Nat × List UInt8)) : PipeSys :=
  { s with lock := none, returned := s.returned ++ result }.setPc p .idle

end PipeSys

namespace Pipe

def Full (pi : Pipe) : Prop := pi.nwrite = pi.nread + UInt32.ofNat PIPESIZE

instance (pi : Pipe) : Decidable pi.Full := inferInstanceAs (Decidable (_ = _))

/-- `pi->data[pi->nwrite++ % PIPESIZE] = ch` -/
def put (pi : Pipe) (ch : UInt8) : Pipe :=
  { pi with
    data := Function.update pi.data (pi.nwrite.toNat % PIPESIZE) ch
    nwrite := pi.nwrite + 1 }

/-- `pi->data[pi->nread % PIPESIZE]` -/
def next (pi : Pipe) : UInt8 := pi.data (pi.nread.toNat % PIPESIZE)

/-- `pi->nread++` -/
def take (pi : Pipe) : Pipe := { pi with nread := pi.nread + 1 }

/-- The flag that `pipeclose` clears. -/
def close (pi : Pipe) (writable : Bool) : Pipe :=
  if writable then { pi with writeopen := false } else { pi with readopen := false }

end Pipe

/-- What `wakeup` and `kill` do to a process that sleeps on a channel in `P`. -/
def Rest.wake (P : PipeChan → Prop) [DecidablePred P] : Rest → Rest
  | .sleeping chan => if P chan then .awake else .sleeping chan
  | r => r

def PipeProc.wake (q : PipeProc) (P : PipeChan → Prop) [DecidablePred P] : PipeProc :=
  { q with rest := q.rest.wake P }

inductive PipeLabel where
  | call (p : Fin NPROC) (c : PipeCall)
  | go (p : Fin NPROC)
  | kill (p : Fin NPROC)

def PipeCall.Start : PipeCall → Prop
  | .pipewrite _ _ i => i = 0
  | _ => True

structure PipeSys.At (s : PipeSys) (p : Fin NPROC) (pc : PipePc) : Prop where
  pc : (s.proc p).pc = pc
  awake : (s.proc p).rest = .awake

/-- A step is what a process does between two points at which another process, or `kill`, can be
noticed: taking `pi->lock`, one round of a loop, one process of the loop of `wakeup`, the two halves
of `sleep`. -/
inductive PipeStep (s : PipeSys) : PipeLabel → PipeSys → Prop where
  | call {p c} (hp : s.At p .idle) (hc : c.Start) : PipeStep s (.call p c) (s.setPc p (.want c))
  -- `acquire(&pi->lock)`
  | acquireWrite {p src n i} (hp : s.At p (.want (.pipewrite src n i))) (hfree : s.lock = none) :
    PipeStep s (.go p) ({ s with lock := some p }.setPc p (.writing src n i i))
  | acquireRead {p dst n} (hp : s.At p (.want (.piperead dst n))) (hfree : s.lock = none) :
    PipeStep s (.go p) ({ s with lock := some p }.setPc p (.waiting dst n))
  | acquireClose {p w} (hp : s.At p (.want (.pipeclose w))) (hfree : s.lock = none) :
    PipeStep s (.go p) ({ s with lock := some p, pi := s.pi.close w }.setPc p
      (.waking (if w then .nread else .nwrite) 0 .closed))
  -- a round of the loop of `pipewrite`
  | writeFail {p src n i₀ i} (hp : s.At p (.writing src n i₀ i)) (hi : (i : Int) < n)
    (hstop : s.pi.readopen = false ∨ (s.proc p).killed = true) :
    PipeStep s (.go p) (s.setPc p .fail)
  | writeFull {p src n i₀ i} (hp : s.At p (.writing src n i₀ i)) (hi : (i : Int) < n)
    (hopen : s.pi.readopen = true) (hkilled : (s.proc p).killed = false) (hfull : s.pi.Full) :
    PipeStep s (.go p) (s.setPc p (.waking .nread 0 (.sleep .nwrite (.pipewrite src n i))))
  | writeFault {p src n i₀ i} (hp : s.At p (.writing src n i₀ i)) (hi : (i : Int) < n)
    (hopen : s.pi.readopen = true) (hkilled : (s.proc p).killed = false) (hroom : ¬ s.pi.Full)
    (hsrc : src i = none) : PipeStep s (.go p) (s.setPc p (.waking .nread 0 (.wrote i)))
  | writeByte {p src n i₀ i ch} (hp : s.At p (.writing src n i₀ i)) (hi : (i : Int) < n)
    (hopen : s.pi.readopen = true) (hkilled : (s.proc p).killed = false) (hroom : ¬ s.pi.Full)
    (hsrc : src i = some ch) :
    PipeStep s (.go p) ({ s with pi := s.pi.put ch, written := s.written ++ [ch] }.setPc p
      (.writing src n i₀ (i + 1)))
  | writeEnd {p src n i₀ i} (hp : s.At p (.writing src n i₀ i)) (hi : n ≤ i) :
    PipeStep s (.go p) (s.setPc p (.waking .nread 0 (.wrote i)))
  -- the first loop of `piperead`
  | readFail {p dst n} (hp : s.At p (.waiting dst n)) (hempty : s.pi.nread = s.pi.nwrite)
    (hopen : s.pi.writeopen = true) (hkilled : (s.proc p).killed = true) :
    PipeStep s (.go p) (s.setPc p .fail)
  | readSleep {p dst n} (hp : s.At p (.waiting dst n)) (hempty : s.pi.nread = s.pi.nwrite)
    (hopen : s.pi.writeopen = true) (hkilled : (s.proc p).killed = false) :
    PipeStep s (.go p) (s.doze p .nread (.piperead dst n))
  | readStart {p dst n} (hp : s.At p (.waiting dst n))
    (hready : s.pi.nread ≠ s.pi.nwrite ∨ s.pi.writeopen = false) :
    PipeStep s (.go p) (s.setPc p (.reading dst n 0 []))
  -- a round of the second loop
  | readByte {p dst n i got} (hp : s.At p (.reading dst n i got)) (hi : (i : Int) < n)
    (hsome : s.pi.nread ≠ s.pi.nwrite) (hdst : dst i = true) :
    PipeStep s (.go p) ({ s with pi := s.pi.take }.setPc p
      (.reading dst n (i + 1) (got ++ [s.pi.next])))
  | readFault {p dst n i got} (hp : s.At p (.reading dst n i got)) (hi : (i : Int) < n)
    (hsome : s.pi.nread ≠ s.pi.nwrite) (hdst : dst i = false) :
    PipeStep s (.go p) ({ s with pi := s.pi.take }.setPc p (.waking .nwrite 0 (.read n i got)))
  | readEnd {p dst n i got} (hp : s.At p (.reading dst n i got))
    (hend : n ≤ i ∨ s.pi.nread = s.pi.nwrite) :
    PipeStep s (.go p) (s.setPc p (.waking .nwrite 0 (.read n i got)))
  -- the loop of `wakeup`
  | wake {p chan k} (q : Fin NPROC) (hp : s.At p (.waking chan q k))
    (hq : ∀ c, (s.proc q).rest ≠ .dozing c) :
    PipeStep s (.go p) ((s.setProc q ((s.proc q).wake (· = chan))).setPc p
      (.waking chan (q + 1) k))
  -- what follows it
  | wakeSleep {p chan on c} (hp : s.At p (.waking chan NPROC (.sleep on c))) :
    PipeStep s (.go p) (s.doze p on c)
  | wakeReturn {p chan k} (hp : s.At p (.waking chan NPROC k)) (hk : ∀ on c, k ≠ .sleep on c) :
    PipeStep s (.go p) (s.leave p k.result)
  | failReturn {p} (hp : s.At p .fail) : PipeStep s (.go p) (s.leave p [])
  -- the second half of `sleep`
  | fallAsleep {p chan} (hp : (s.proc p).rest = .dozing chan) :
    PipeStep s (.go p) (s.setProc p { s.proc p with rest := .sleeping chan })
  | kill {q} (hq : ∀ c, (s.proc q).rest ≠ .dozing c) :
    PipeStep s (.kill q) (s.setProc q { (s.proc q).wake fun _ => True with killed := true })

/-- The pipe as `pipealloc` leaves it; its data has any value. -/
structure PipeSys.Fresh (s : PipeSys) : Prop where
  nread : s.pi.nread = 0
  nwrite : s.pi.nwrite = 0
  readopen : s.pi.readopen = true
  writeopen : s.pi.writeopen = true
  lock : s.lock = none
  proc : ∀ p, (s.proc p).pc = .idle ∧ (s.proc p).rest = .awake
  written : s.written = []
  returned : s.returned = []

def pipe0 : PipeSys where
  pi := ⟨fun _ => 0, 0, 0, true, true⟩
  lock := none
  proc _ := ⟨.idle, .awake, false⟩
  written := []
  returned := []

theorem pipe0_fresh : pipe0.Fresh :=
  ⟨rfl, rfl, rfl, rfl, rfl, fun _ => ⟨rfl, rfl⟩, rfl, rfl⟩

def pipeMachine : Machines.Machine PipeSys PipeLabel where
  init := PipeSys.Fresh
  step := PipeStep

/-! ## Who changes what -/

namespace PipeSys

variable (s : PipeSys) {p r : Fin NPROC}

@[simp] theorem setProc_self (p : Fin NPROC) (q : PipeProc) : (s.setProc p q).proc p = q :=
  Function.update_self ..

theorem setProc_of_ne (hr : r ≠ p) (q : PipeProc) : (s.setProc p q).proc r = s.proc r :=
  Function.update_of_ne hr ..

@[simp] theorem setPc_self (p : Fin NPROC) (pc : PipePc) :
    (s.setPc p pc).proc p = { s.proc p with pc := pc } := setProc_self ..

theorem setPc_of_ne (hr : r ≠ p) (pc : PipePc) : (s.setPc p pc).proc r = s.proc r :=
  setProc_of_ne s hr _

theorem setPc_setPc (a b : PipePc) (pi : Pipe) :
    { s.setPc p a with pi := pi }.setPc p b = { s with pi := pi }.setPc p b := by
  simp [setPc, setProc]

@[simp] theorem doze_self (p : Fin NPROC) (chan : PipeChan) (c : PipeCall) :
    (s.doze p chan c).proc p = { s.proc p with pc := .want c, rest := .dozing chan } :=
  setProc_self ..

theorem doze_of_ne (hr : r ≠ p) (chan : PipeChan) (c : PipeCall) :
    (s.doze p chan c).proc r = s.proc r := setProc_of_ne _ hr _

variable (x : List (Nat × List UInt8))

@[simp] theorem leave_self (p : Fin NPROC) :
    (s.leave p x).proc p = { s.proc p with pc := .idle } := setPc_self ..

theorem leave_of_ne (hr : r ≠ p) : (s.leave p x).proc r = s.proc r := setPc_of_ne _ hr _

theorem setProc_pc {q : PipeProc} (hq : q.pc = (s.proc p).pc) (r : Fin NPROC) :
    ((s.setProc p q).proc r).pc = (s.proc r).pc := by
  by_cases hr : r = p
  · rw [hr, setProc_self, hq]
  · rw [setProc_of_ne s hr]

end PipeSys

def PipeLabel.actor : PipeLabel → Option (Fin NPROC)
  | .call p _ | .go p => some p
  | .kill _ => none

variable {s s' : PipeSys} {l : PipeLabel}

theorem PipeStep.pc_other (h : PipeStep s l s') {r : Fin NPROC} (hr : l.actor ≠ some r) :
    (s'.proc r).pc = (s.proc r).pc := by
  have hne : ∀ {p}, l.actor = some p → r ≠ p := by
    rintro p hp rfl
    exact hr hp
  cases h with
  | wakeSleep | readSleep => rw [PipeSys.doze_of_ne _ (hne rfl)]
  | wakeReturn | failReturn => rw [PipeSys.leave_of_ne _ _ (hne rfl)]
  | fallAsleep => rw [PipeSys.setProc_of_ne _ (hne rfl)]
  | kill => rw [PipeSys.setProc_pc]; rfl
  | wake q =>
    rw [PipeSys.setPc_of_ne _ (hne rfl), PipeSys.setProc_pc]
    rfl
  | _ => rw [PipeSys.setPc_of_ne _ (hne rfl)]

def PipePc.Inside : PipePc → Prop
  | .idle | .want _ => False
  | _ => True

/-- The process in the critical section is the one that holds the lock. -/
def PipeSys.Locked (s : PipeSys) : Prop := ∀ p, (s.proc p).pc.Inside ↔ s.lock = some p

theorem PipeSys.Fresh.locked (h : s.Fresh) : s.Locked := by
  intro p
  rw [(h.proc p).1, h.lock]
  exact ⟨False.elim, nofun⟩

/-- A step of `p`, told by what it leaves `p` at: only `p` takes the lock or gives it up. -/
theorem PipeSys.Locked.of_self {p : Fin NPROC} (h : s.Locked) (hstep : PipeStep s l s')
    (hl : l.actor = some p) (hself : (s'.proc p).pc.Inside ↔ s'.lock = some p)
    (hlock : s'.lock = s.lock ∨
      (s.lock = none ∨ s.lock = some p) ∧ (s'.lock = none ∨ s'.lock = some p)) : s'.Locked := by
  intro r
  by_cases hr : r = p
  · rw [hr]
    exact hself
  · have hne : some p ≠ some r := fun heq => hr (Option.some.inj heq).symm
    rw [hstep.pc_other (hl ▸ hne), h r]
    rcases hlock with hsame | ⟨hbefore, hafter⟩
    · rw [hsame]
    · have hb : s.lock ≠ some r := by
        rcases hbefore with hb | hb <;> rw [hb]
        · exact nofun
        · exact hne
      have ha : s'.lock ≠ some r := by
        rcases hafter with ha | ha <;> rw [ha]
        · exact nofun
        · exact hne
      exact iff_of_false hb ha

theorem PipeSys.Locked.step (h : s.Locked) (hstep : PipeStep s l s') : s'.Locked := by
  -- who is in the critical section and stays there keeps the lock
  have hkeep : ∀ {p pc pc'}, s.At p pc → l.actor = some p → (s'.proc p).pc = pc' →
      (pc.Inside ↔ pc'.Inside) → s'.lock = s.lock → s'.Locked := by
    intro p pc pc' hp hl hpc hin hlock
    refine h.of_self hstep hl ?_ (.inl hlock)
    rw [hpc, ← hin, ← hp.pc, hlock]
    exact h p
  have henter : ∀ {p}, l.actor = some p → s.lock = none → (s'.proc p).pc.Inside →
      s'.lock = some p → s'.Locked := fun hl hfree hin hlock =>
    h.of_self hstep hl (iff_of_true hin hlock) (.inr ⟨.inl hfree, .inr hlock⟩)
  have hleave : ∀ {p pc}, s.At p pc → l.actor = some p → pc.Inside → ¬ (s'.proc p).pc.Inside →
      s'.lock = none → s'.Locked := by
    intro p pc hp hl hin hout hlock
    refine h.of_self hstep hl (iff_of_false hout (by rw [hlock]; exact nofun)) (.inr ⟨.inr ?_, .inl hlock⟩)
    rw [← h p, hp.pc]
    exact hin
  have hstep' := hstep
  cases hstep with
  | wake q hp => exact hkeep hp rfl (congrArg PipeProc.pc (PipeSys.setPc_self ..)) Iff.rfl rfl
  | acquireWrite _ hfree | acquireRead _ hfree | acquireClose _ hfree =>
    exact henter rfl hfree (by rw [PipeSys.setPc_self]; trivial) rfl
  | readSleep hp | wakeSleep hp =>
    exact hleave hp rfl trivial (by rw [PipeSys.doze_self]; exact id) rfl
  | wakeReturn hp | failReturn hp =>
    exact hleave hp rfl trivial (by rw [PipeSys.leave_self]; exact id) rfl
  | @fallAsleep p chan hp =>
    refine h.of_self hstep' rfl ?_ (.inl rfl)
    rw [PipeSys.setProc_self]
    exact h p
  | kill hq =>
    intro r
    rw [hstep'.pc_other nofun]
    exact h r
  | _ hp => exact hkeep hp rfl (congrArg PipeProc.pc (PipeSys.setPc_self ..)) Iff.rfl rfl

/-- While a process holds the lock, nobody else changes the pipe. -/
theorem PipeStep.pi_other (h : s.Locked) (hstep : PipeStep s l s') {r : Fin NPROC}
    (hr : (s.proc r).pc.Inside) (hl : l.actor ≠ some r) : s'.pi = s.pi := by
  have hlock := (h r).mp hr
  have hout : ∀ {p pc}, l.actor = some p → s.At p pc → pc.Inside → s'.pi = s.pi := by
    intro p pc hp hat hin
    rw [← hat.pc, h p, hlock] at hin
    exact absurd (hp.trans hin.symm) hl
  cases hstep with
  | acquireClose hp hfree =>
    rw [hfree] at hlock
    cases hlock
  | writeByte hp | readByte hp | readFault hp => exact hout rfl hp trivial
  | _ => rfl

end Xv6
