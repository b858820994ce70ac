import Mathlib.Tactic
import Mathlib.Data.Finset.Card
import Mathlib.Algebra.BigOperators.Group.Finset.Basic
import Xv6.Lib.Machine
import Xv6.Param

/-!
# Transactions: `begin_op`, `log_write`, `end_op`

The protocol by which file system calls share one log transaction (`kernel/log.c`), at the
granularity of `log.lock` critical sections.
-/

namespace Xv6

open Machines Function Finset

/-- The fields of `struct log` the protocol uses. The header `lh` is `block[0..n)`. -/
structure Log where
  size : Nat
  outstanding : Nat
  committing : Bool
  lh : List Nat

inductive LogPanic where
  | tooBig
  | outsideTrans
  | committing
  deriving DecidableEq, Repr

namespace Log

/-- `initlog` on a disk whose log has been recovered. -/
def initlog (sb : Superblock) : Log where
  size := sb.nlog
  outstanding := 0
  committing := false
  lh := []

/-- One turn of the loop of `begin_op`; `none` is `sleep(&log, &log.lock)`. -/
def beginOp (log : Log) : Option Log :=
  if log.committing then none
  else if log.lh.length + (log.outstanding + 1) * MAXOPBLOCKS > LOGSIZE then none
  else some { log with outstanding := log.outstanding + 1 }

/-- `log_write`; the flag says whether the block is new to the log and gets pinned. -/
def logWrite (log : Log) (blockno : Nat) : Except LogPanic (Log × Bool) :=
  if log.lh.length ≥ LOGSIZE ∨ log.lh.length ≥ log.size - 1 then .error .tooBig
  else if log.outstanding < 1 then .error .outsideTrans
  else if blockno ∈ log.lh then .ok (log, false)
  else .ok ({ log with lh := log.lh ++ [blockno] }, true)

/-- The first critical section of `end_op`; the flag is `do_commit`. -/
def endOp (log : Log) : Except LogPanic (Log × Bool) :=
  let log := { log with outstanding := log.outstanding - 1 }
  if log.committing then .error .committing
  else if log.outstanding = 0 then .ok ({ log with committing := true }, true)
  else .ok (log, false)

theorem beginOp_cases (log : Log) :
    (log.beginOp = none ∧ (log.committing = true ∨
      LOGSIZE < log.lh.length + (log.outstanding + 1) * MAXOPBLOCKS)) ∨
    (log.beginOp = some { log with outstanding := log.outstanding + 1 } ∧
      log.committing = false ∧ log.lh.length + (log.outstanding + 1) * MAXOPBLOCKS ≤ LOGSIZE) := by
  unfold beginOp
  split
  · rename_i hc
    exact .inl ⟨rfl, .inl hc⟩
  · rename_i hc
    split
    · rename_i hfull
      exact .inl ⟨rfl, .inr hfull⟩
    · rename_i hroom
      exact .inr ⟨rfl, by simpa using hc, by omega⟩

theorem logWrite_cases (log : Log) (blockno : Nat) :
    (log.logWrite blockno = .error .tooBig ∧
      (LOGSIZE ≤ log.lh.length ∨ log.size - 1 ≤ log.lh.length)) ∨
    (log.logWrite blockno = .error .outsideTrans ∧ log.outstanding = 0) ∨
    (log.logWrite blockno = .ok (log, false) ∧ blockno ∈ log.lh) ∨
    (log.logWrite blockno = .ok ({ log with lh := log.lh ++ [blockno] }, true) ∧
      blockno ∉ log.lh ∧ 1 ≤ log.outstanding ∧ log.lh.length < log.size - 1) := by
  unfold logWrite
  split
  · rename_i hfull
    exact .inl ⟨rfl, hfull⟩
  · rename_i hroom
    split
    · rename_i hout
      exact .inr (.inl ⟨rfl, by omega⟩)
    · rename_i hout
      split
      · rename_i hmem
        exact .inr (.inr (.inl ⟨rfl, hmem⟩))
      · rename_i hmem
        exact .inr (.inr (.inr ⟨rfl, hmem, by omega, by omega⟩))

theorem endOp_cases (log : Log) :
    (log.endOp = .error .committing ∧ log.committing = true) ∨
    (log.endOp = .ok ({ log with outstanding := log.outstanding - 1, committing := true }, true) ∧
      log.committing = false ∧ log.outstanding - 1 = 0) ∨
    (log.endOp = .ok ({ log with outstanding := log.outstanding - 1 }, false) ∧
      log.committing = false ∧ log.outstanding - 1 ≠ 0) := by
  unfold endOp
  dsimp only
  split
  · rename_i hc
    exact .inl ⟨rfl, hc⟩
  · rename_i hc
    split
    · rename_i hlast
      exact .inr (.inl ⟨rfl, by simpa using hc, hlast⟩)
    · rename_i hlast
      exact .inr (.inr ⟨rfl, by simpa using hc, hlast⟩)

end Log

/-! ## The machine -/

inductive OpState where
  -- Not in an operation.
  | outside
  -- `SLEEPING` in `begin_op`.
  | sleeping
  -- In `begin_op`, woken up and about to retest.
  | woken
  -- Between `begin_op` and `end_op`; `op` is the serial number of the operation.
  | inOp (op : Nat)
  -- In `end_op`, running `commit()`; `cleared` once `log.lh.n = 0` has been executed.
  | inCommit (cleared : Bool)
  deriving DecidableEq, Repr

/-- The log, the processes, and the history of the open transaction. -/
structure TransState (P : Type) where
  log : Log
  procs : P → OpState
  panic : Option LogPanic
  -- The serial number of the next operation.
  nextOp : Nat
  -- The operation and block of every `log_write` since `commit()` last emptied the log.
  writes : List (Nat × Nat)

inductive TransLabel (P : Type) where
  | beginOp (p : P)
  | logWrite (p : P) (blockno : Nat)
  | endOp (p : P)
  -- `commit()` up to `log.lh.n = 0`.
  | commit (p : P)
  -- The second critical section of `end_op`.
  | commitDone (p : P)
  -- A wakeup from elsewhere (`kill`).
  | wake (p : P)

def wakeup {P : Type} (procs : P → OpState) : P → OpState :=
  fun q => if procs q = .sleeping then .woken else procs q

variable {P : Type}

/-! A wakeup changes sleepers only, so a process found in another state was there before. -/

variable {procs : P → OpState}

theorem wakeup_eq_inCommit {p : P} {c : Bool} :
    wakeup procs p = .inCommit c ↔ procs p = .inCommit c := by
  unfold wakeup
  split <;> simp_all

variable {op : Nat}

theorem wakeup_eq_inOp {p : P} : wakeup procs p = .inOp op ↔ procs p = .inOp op := by
  unfold wakeup
  split <;> simp_all

theorem wakeup_ne_sleeping {p : P} : wakeup procs p ≠ .sleeping := by
  unfold wakeup
  split <;> simp_all

/-- The process is between `begin_op` and `end_op`. -/
def OpState.isInOp : OpState → Bool
  | .inOp _ => true
  | _ => false

def inOps [Fintype P] (procs : P → OpState) : Nat :=
  (Finset.univ.filter fun p => (procs p).isInOp = true).card

theorem inOps_eq_sum [Fintype P] (procs : P → OpState) :
    inOps procs = ∑ q, if (procs q).isInOp = true then 1 else 0 :=
  card_filter _ _

theorem isInOp_wakeup (procs : P → OpState) (p : P) :
    (wakeup procs p).isInOp = (procs p).isInOp := by
  unfold wakeup
  split
  · rename_i h
    rw [h]
    rfl
  · rfl

theorem inOps_wakeup [Fintype P] (procs : P → OpState) : inOps (wakeup procs) = inOps procs := by
  simp only [inOps, isInOp_wakeup]

theorem inOps_pos [Fintype P] {p : P} (hp : procs p = .inOp op) : 0 < inOps procs :=
  card_pos.mpr ⟨p, by simp only [mem_filter_univ, hp]; rfl⟩

theorem exists_inOp_of_pos [Fintype P] (h : 0 < inOps procs) : ∃ p op, procs p = .inOp op := by
  obtain ⟨p, hp⟩ := card_pos.mp h
  have hin := (mem_filter.mp hp).2
  cases hcase : procs p with
  | inOp op => exact ⟨p, op, hcase⟩
  | _ => simp [hcase, OpState.isInOp] at hin

section Machine

variable [DecidableEq P]

/-- One step; `none` when the process is not at a point where it can take it. -/
def trans (s : TransState P) (l : TransLabel P) : Option (TransState P) :=
  if s.panic.isSome then none
  else match l with
  | .beginOp p =>
    if s.procs p = .outside ∨ s.procs p = .woken then
      match s.log.beginOp with
      | none => some { s with procs := update s.procs p .sleeping }
      | some log => some { s with
          log := log
          procs := update s.procs p (.inOp s.nextOp)
          nextOp := s.nextOp + 1 }
    else none
  | .logWrite p blockno =>
    match s.procs p with
    | .inOp op =>
      match s.log.logWrite blockno with
      | .error e => some { s with panic := some e }
      | .ok (log, _) => some { s with log := log, writes := s.writes ++ [(op, blockno)] }
    | _ => none
  | .endOp p =>
    match s.procs p with
    | .inOp _ =>
      match s.log.endOp with
      | .error e => some { s with panic := some e }
      | .ok (log, true) =>
        some { s with log := log, procs := update s.procs p (.inCommit false) }
      | .ok (log, false) =>
        some { s with log := log, procs := wakeup (update s.procs p .outside) }
    | _ => none
  | .commit p =>
    if s.procs p = .inCommit false then
      some { s with
        log := { s.log with lh := [] }
        procs := update s.procs p (.inCommit true)
        writes := [] }
    else none
  | .commitDone p =>
    if s.procs p = .inCommit true then
      some { s with
        log := { s.log with committing := false }
        procs := wakeup (update s.procs p .outside) }
    else none
  | .wake p =>
    if s.procs p = .sleeping then
      some { s with procs := update s.procs p .woken }
    else none

/-- The log after `initlog` and the processes before their first operation. -/
def bootState (P : Type) (sb : Superblock) : TransState P where
  log := Log.initlog sb
  procs := fun _ => .outside
  panic := none
  nextOp := 0
  writes := []

/-- Any number of processes `P` sharing the log of a file system with superblock `sb`. A process
that finds no room sleeps on `&log` and retests when it is woken; `end_op` of the last operation
runs `commit()` with the lock dropped. Every operation has a serial number and every `log_write` is
recorded, so that a commit can be related to the operations it writes. -/
def transMachine (P : Type) [DecidableEq P] (sb : Superblock) :
    Machine (TransState P) (TransLabel P) where
  init s := s = bootState P sb
  step s l s' := trans s l = some s'

/-! ## What a step can do

`trans` unfolded once: every outcome of a step with its guard. The invariants below are case
analyses over this relation. -/

inductive TransStep (s : TransState P) : TransLabel P → TransState P → Prop where
  | sleep (p : P) (hp : s.procs p = .outside ∨ s.procs p = .woken)
      (hfull : s.log.committing = true ∨
        LOGSIZE < s.log.lh.length + (s.log.outstanding + 1) * MAXOPBLOCKS) :
      TransStep s (.beginOp p) { s with procs := update s.procs p .sleeping }
  | enter (p : P) (hp : s.procs p = .outside ∨ s.procs p = .woken)
      (hidle : s.log.committing = false)
      (hroom : s.log.lh.length + (s.log.outstanding + 1) * MAXOPBLOCKS ≤ LOGSIZE) :
      TransStep s (.beginOp p) { s with
        log := { s.log with outstanding := s.log.outstanding + 1 }
        procs := update s.procs p (.inOp s.nextOp)
        nextOp := s.nextOp + 1 }
  | absorb (p : P) (op blockno : Nat) (hp : s.procs p = .inOp op) (hmem : blockno ∈ s.log.lh) :
      TransStep s (.logWrite p blockno) { s with writes := s.writes ++ [(op, blockno)] }
  | append (p : P) (op blockno : Nat) (hp : s.procs p = .inOp op)
      (hnew : blockno ∉ s.log.lh) (hout : 1 ≤ s.log.outstanding)
      (hroom : s.log.lh.length < s.log.size - 1) :
      TransStep s (.logWrite p blockno) { s with
        log := { s.log with lh := s.log.lh ++ [blockno] }
        writes := s.writes ++ [(op, blockno)] }
  | tooBig (p : P) (op blockno : Nat) (hp : s.procs p = .inOp op)
      (hfull : LOGSIZE ≤ s.log.lh.length ∨ s.log.size - 1 ≤ s.log.lh.length) :
      TransStep s (.logWrite p blockno) { s with panic := some .tooBig }
  | outsideTrans (p : P) (op blockno : Nat) (hp : s.procs p = .inOp op)
      (hout : s.log.outstanding = 0) :
      TransStep s (.logWrite p blockno) { s with panic := some .outsideTrans }
  | endPanic (p : P) (op : Nat) (hp : s.procs p = .inOp op) (hcommit : s.log.committing = true) :
      TransStep s (.endOp p) { s with panic := some .committing }
  | endLast (p : P) (op : Nat) (hp : s.procs p = .inOp op) (hidle : s.log.committing = false)
      (hlast : s.log.outstanding - 1 = 0) :
      TransStep s (.endOp p) { s with
        log := { s.log with outstanding := s.log.outstanding - 1, committing := true }
        procs := update s.procs p (.inCommit false) }
  | endMore (p : P) (op : Nat) (hp : s.procs p = .inOp op) (hidle : s.log.committing = false)
      (hmore : s.log.outstanding - 1 ≠ 0) :
      TransStep s (.endOp p) { s with
        log := { s.log with outstanding := s.log.outstanding - 1 }
        procs := wakeup (update s.procs p .outside) }
  | commit (p : P) (hp : s.procs p = .inCommit false) :
      TransStep s (.commit p) { s with
        log := { s.log with lh := [] }
        procs := update s.procs p (.inCommit true)
        writes := [] }
  | commitDone (p : P) (hp : s.procs p = .inCommit true) :
      TransStep s (.commitDone p) { s with
        log := { s.log with committing := false }
        procs := wakeup (update s.procs p .outside) }
  | wake (p : P) (hp : s.procs p = .sleeping) :
      TransStep s (.wake p) { s with procs := update s.procs p .woken }

theorem transStep_of_trans {s s' : TransState P} {l : TransLabel P} (h : trans s l = some s') :
    s.panic = none ∧ TransStep s l s' := by
  by_cases hpanic : s.panic.isSome = true
  · simp [trans, hpanic] at h
  refine ⟨by simpa using hpanic, ?_⟩
  simp only [trans, if_neg hpanic] at h
  cases l with
  | beginOp p =>
    dsimp only at h
    split at h
    · rename_i hp
      rcases s.log.beginOp_cases with ⟨heq, hfull⟩ | ⟨heq, hidle, hroom⟩
      · rw [heq] at h
        cases h
        exact .sleep p hp hfull
      · rw [heq] at h
        cases h
        exact .enter p hp hidle hroom
    · cases h
  | logWrite p blockno =>
    dsimp only at h
    split at h
    · rename_i op hp
      rcases s.log.logWrite_cases blockno with ⟨heq, hfull⟩ | ⟨heq, hout⟩ | ⟨heq, hmem⟩ |
        ⟨heq, hnew, hout, hroom⟩
      · rw [heq] at h
        cases h
        exact .tooBig p op blockno hp hfull
      · rw [heq] at h
        cases h
        exact .outsideTrans p op blockno hp hout
      · rw [heq] at h
        cases h
        exact .absorb p op blockno hp hmem
      · rw [heq] at h
        cases h
        exact .append p op blockno hp hnew hout hroom
    · cases h
  | endOp p =>
    dsimp only at h
    split at h
    · rename_i op hp
      rcases s.log.endOp_cases with ⟨heq, hc⟩ | ⟨heq, hidle, hlast⟩ | ⟨heq, hidle, hmore⟩
      · rw [heq] at h
        cases h
        exact .endPanic p op hp hc
      · rw [heq] at h
        cases h
        exact .endLast p op hp hidle hlast
      · rw [heq] at h
        cases h
        exact .endMore p op hp hidle hmore
    · cases h
  | commit p =>
    dsimp only at h
    split at h
    · rename_i hp
      cases h
      exact .commit p hp
    · cases h
  | commitDone p =>
    dsimp only at h
    split at h
    · rename_i hp
      cases h
      exact .commitDone p hp
    · cases h
  | wake p =>
    dsimp only at h
    split at h
    · rename_i hp
      cases h
      exact .wake p hp
    · cases h

end Machine

/-! ## The transaction protocol -/

/-- The joint invariant of counter, flag, header and sleepers. -/
structure TransInv [Fintype P] (s : TransState P) : Prop where
  -- `log.outstanding` counts the processes inside an operation.
  counts : s.log.outstanding = inOps s.procs
  -- The flag is set exactly while some process is inside `commit()`.
  flag : s.log.committing = true ↔ ∃ p c, s.procs p = .inCommit c
  -- Only one process commits at a time.
  single : ∀ p q c c', s.procs p = .inCommit c → s.procs q = .inCommit c' → p = q
  quiet : s.log.committing = true → s.log.outstanding = 0
  -- An idle log is empty: the last `end_op` has committed it.
  empty : s.log.committing = false → s.log.outstanding = 0 → s.log.lh = []
  -- `commit()` leaves the log empty.
  cleared : ∀ p, s.procs p = .inCommit true → s.log.lh = []
  -- Nobody sleeps on an idle log.
  sleepers : ∀ p, s.procs p = .sleeping → s.log.committing = true ∨ 0 < s.log.outstanding
  -- The header lists exactly the blocks written since the last commit.
  header : ∀ b, b ∈ s.log.lh ↔ ∃ op, (op, b) ∈ s.writes
  -- Serial numbers are fresh and not shared.
  fresh : ∀ p op, s.procs p = .inOp op → op < s.nextOp
  writers : ∀ e ∈ s.writes, e.1 < s.nextOp
  distinct : ∀ p q op, s.procs p = .inOp op → s.procs q = .inOp op → p = q
  noPanic : s.panic ≠ some .committing

section Invariant

variable [Fintype P] {s s' : TransState P} {p : P}

theorem transInv_init (sb : Superblock) : TransInv (bootState P sb) := by
  constructor <;> simp [bootState, Log.initlog, inOps, OpState.isInOp]

/-- The flag is clear while an operation is outstanding, so `end_op` does not panic. -/
theorem TransInv.not_committing (h : TransInv s) (hp : s.procs p = .inOp op) :
    s.log.committing = false := by
  by_contra hc
  have hquiet := h.quiet (by simpa using hc)
  have := inOps_pos hp
  rw [← h.counts] at this
  omega

/-- `log_write`: the header grows with the history of writes, absorbed or not. -/
theorem TransInv.logWrite {b : Nat} (h : TransInv s) (lh : List Nat) (hp : s.procs p = .inOp op)
    (hlh : ∀ x, x ∈ lh ↔ x ∈ s.log.lh ∨ x = b) :
    TransInv { s with
      log := { s.log with lh := lh }, writes := s.writes ++ [(op, b)] } where
  __ := h
  empty := by
    intro _ hzero
    have := inOps_pos hp
    rw [← h.counts] at this
    simp only at hzero
    omega
  cleared := by
    intro q hq
    have hflag := h.flag.mpr ⟨q, true, hq⟩
    rw [h.not_committing hp] at hflag
    exact absurd hflag (by simp)
  header := by
    intro x
    simp only [hlh, h.header, List.mem_append, List.mem_singleton, Prod.mk.injEq]
    grind
  writers := by
    intro e he
    rw [List.mem_append, List.mem_singleton] at he
    rcases he with he | rfl
    · exact h.writers e he
    · exact h.fresh p op hp

theorem TransInv.panic {e : LogPanic} (h : TransInv s) (he : e ≠ .committing) :
    TransInv { s with panic := some e } :=
  { h with noPanic := by simpa using he }

variable [DecidableEq P]

theorem sum_add_of_eq_off {f g : P → Nat} (h : ∀ q, q ≠ p → f q = g q) :
    ∑ q, f q + g p = ∑ q, g q + f p := by
  have hrest : ∑ q ∈ Finset.univ.erase p, f q = ∑ q ∈ Finset.univ.erase p, g q :=
    sum_congr rfl fun q hq => h q (ne_of_mem_erase hq)
  have hf := add_sum_erase Finset.univ f (mem_univ p)
  have hg := add_sum_erase Finset.univ g (mem_univ p)
  omega

theorem sum_update (w : OpState → Nat) (procs : P → OpState) (p : P) (x : OpState) :
    ∑ q, w (update procs p x q) + w (procs p) = ∑ q, w (procs q) + w x := by
  have h := sum_add_of_eq_off (p := p) (f := fun q => w (update procs p x q))
    (g := fun q => w (procs q)) fun q hq => by rw [update_of_ne hq]
  simpa only [update_self] using h

theorem inOps_update (procs : P → OpState) (p : P) (x : OpState) :
    inOps (update procs p x) + (if (procs p).isInOp = true then 1 else 0)
      = inOps procs + (if x.isInOp = true then 1 else 0) := by
  rw [inOps_eq_sum, inOps_eq_sum]
  exact sum_update (fun o => if o.isInOp = true then 1 else 0) procs p x

theorem inOps_update_waiting {x : OpState} (hp : (s.procs p).isInOp = false)
    (hx : x.isInOp = false) : inOps (update s.procs p x) = inOps s.procs := by
  have h := inOps_update s.procs p x
  simpa [hp, hx] using h

variable (h : TransInv s)

include h

/-- A process goes to sleep in `begin_op` or is woken up; nobody goes to sleep on an idle log. -/
theorem TransInv.doze {x : OpState}
    (hp : s.procs p = .outside ∨ s.procs p = .woken ∨ s.procs p = .sleeping)
    (hx : x = .sleeping ∧ (s.log.committing = true ∨ 0 < s.log.outstanding) ∨ x = .woken) :
    TransInv { s with procs := update s.procs p x } where
  __ := h
  counts := by
    rw [h.counts, inOps_update_waiting]
    · rcases hp with hp | hp | hp <;> rw [hp] <;> rfl
    · rcases hx with ⟨rfl, -⟩ | rfl <;> rfl
  flag := by
    rw [h.flag]
    simp only [update_apply]
    grind
  single := by
    have := h.single
    simp only [update_apply]
    grind
  cleared := by
    have := h.cleared
    simp only [update_apply]
    grind
  sleepers := by
    have := h.sleepers
    simp only [update_apply]
    grind
  fresh := by
    have := h.fresh
    simp only [update_apply]
    grind
  distinct := by
    have := h.distinct
    simp only [update_apply]
    grind

theorem TransInv.sleep (hp : s.procs p = .outside ∨ s.procs p = .woken)
    (hfull : s.log.committing = true ∨
      LOGSIZE < s.log.lh.length + (s.log.outstanding + 1) * MAXOPBLOCKS) :
    TransInv { s with procs := update s.procs p .sleeping } := by
  refine h.doze (hp.imp_right .inl) (.inl ⟨rfl, ?_⟩)
  rcases hfull with hc | hfull
  · exact .inl hc
  · -- an idle log is empty, so one operation always fits
    by_contra hidle
    simp only [not_or, Bool.not_eq_true, Nat.not_lt, Nat.le_zero] at hidle
    rw [h.empty hidle.1 hidle.2, hidle.2] at hfull
    exact absurd hfull (by decide)

theorem TransInv.enter (hp : s.procs p = .outside ∨ s.procs p = .woken)
    (hidle : s.log.committing = false) :
    TransInv { s with
      log := { s.log with outstanding := s.log.outstanding + 1 }
      procs := update s.procs p (.inOp s.nextOp)
      nextOp := s.nextOp + 1 } where
  __ := h
  counts := by
    have hcount := inOps_update s.procs p (.inOp s.nextOp)
    have hout : (s.procs p).isInOp = false := by rcases hp with hp | hp <;> rw [hp] <;> rfl
    have hin : (OpState.inOp s.nextOp).isInOp = true := rfl
    simp only [hout, hin, Bool.false_eq_true, if_false, if_true, Nat.add_zero] at hcount
    simp only [hcount, h.counts]
  flag := by
    have := h.flag
    simp only [update_apply]
    grind
  single := by
    have := h.single
    simp only [update_apply]
    grind
  quiet := by simp [hidle]
  empty := by simp
  cleared := by
    have := h.cleared
    simp only [update_apply]
    grind
  sleepers := by simp
  fresh := by
    have := h.fresh
    simp only [update_apply]
    grind
  writers := fun e he => Nat.lt_succ_of_lt (h.writers e he)
  distinct := by
    have := h.distinct
    have := h.fresh
    simp only [update_apply]
    grind

theorem TransInv.counts_leave {x : OpState} (hp : s.procs p = .inOp op) (hx : x.isInOp = false) :
    s.log.outstanding - 1 = inOps (update s.procs p x) := by
  have hcount := inOps_update s.procs p x
  have hin : (s.procs p).isInOp = true := by rw [hp]; rfl
  simp only [hin, hx, if_true, Bool.false_eq_true, if_false, Nat.add_zero] at hcount
  rw [h.counts]
  omega

theorem TransInv.endLast (hp : s.procs p = .inOp op) (hlast : s.log.outstanding - 1 = 0) :
    TransInv { s with
      log := { s.log with outstanding := s.log.outstanding - 1, committing := true }
      procs := update s.procs p (.inCommit false) } where
  __ := h
  counts := h.counts_leave hp rfl
  flag := by
    simp only [true_iff]
    exact ⟨p, false, update_self ..⟩
  single := by
    -- nobody was committing before
    have hnone : ∀ q c, s.procs q ≠ .inCommit c := by
      intro q c hq
      have := h.flag.mpr ⟨q, c, hq⟩
      rw [h.not_committing hp] at this
      exact absurd this (by simp)
    simp only [update_apply]
    grind
  quiet := fun _ => hlast
  empty := by simp
  cleared := by
    have := h.cleared
    simp only [update_apply]
    grind
  sleepers := by simp
  fresh := by
    have := h.fresh
    simp only [update_apply]
    grind
  distinct := by
    have := h.distinct
    simp only [update_apply]
    grind

theorem TransInv.endMore (hp : s.procs p = .inOp op) (hmore : s.log.outstanding - 1 ≠ 0) :
    TransInv { s with
      log := { s.log with outstanding := s.log.outstanding - 1 }
      procs := wakeup (update s.procs p .outside) } where
  __ := h
  counts := by
    rw [inOps_wakeup]
    exact h.counts_leave hp rfl
  flag := by
    rw [h.flag]
    simp only [wakeup_eq_inCommit, update_apply]
    grind
  single := by
    have := h.single
    simp only [wakeup_eq_inCommit, update_apply]
    grind
  quiet := by simp [h.not_committing hp]
  empty := fun _ hzero => absurd hzero hmore
  cleared := by
    have := h.cleared
    simp only [wakeup_eq_inCommit, update_apply]
    grind
  sleepers := fun _ hq => absurd hq wakeup_ne_sleeping
  fresh := by
    have := h.fresh
    simp only [wakeup_eq_inOp, update_apply]
    grind
  distinct := by
    have := h.distinct
    simp only [wakeup_eq_inOp, update_apply]
    grind

theorem TransInv.commit (hp : s.procs p = .inCommit false) :
    TransInv { s with
      log := { s.log with lh := [] }
      procs := update s.procs p (.inCommit true)
      writes := [] } where
  __ := h
  counts := by
    rw [h.counts, inOps_update_waiting (by rw [hp]; rfl) rfl]
  flag := by
    rw [h.flag]
    simp only [update_apply]
    grind
  single := by
    have := h.single
    simp only [update_apply]
    grind
  empty := fun _ _ => rfl
  cleared := fun _ _ => rfl
  sleepers := by
    have := h.sleepers
    simp only [update_apply]
    grind
  header := by simp
  fresh := by
    have := h.fresh
    simp only [update_apply]
    grind
  writers := by simp
  distinct := by
    have := h.distinct
    simp only [update_apply]
    grind

theorem TransInv.commitDone (hp : s.procs p = .inCommit true) :
    TransInv { s with
      log := { s.log with committing := false }
      procs := wakeup (update s.procs p .outside) } where
  __ := h
  counts := by
    rw [inOps_wakeup, h.counts, inOps_update_waiting (by rw [hp]; rfl) rfl]
  flag := by
    -- the committing process was the only one
    have := h.single
    simp only [wakeup_eq_inCommit, update_apply]
    grind
  single := by
    have := h.single
    simp only [wakeup_eq_inCommit, update_apply]
    grind
  quiet := by simp
  empty := fun _ _ => h.cleared p hp
  cleared := fun _ _ => h.cleared p hp
  sleepers := fun _ hq => absurd hq wakeup_ne_sleeping
  fresh := by
    have := h.fresh
    simp only [wakeup_eq_inOp, update_apply]
    grind
  distinct := by
    have := h.distinct
    simp only [wakeup_eq_inOp, update_apply]
    grind

theorem TransInv.step {l : TransLabel P} (hstep : TransStep s l s') :
    TransInv s' := by
  cases hstep with
  | sleep p hp hfull => exact h.sleep hp hfull
  | enter p hp hidle _ => exact h.enter hp hidle
  | absorb p op b hp hmem =>
    exact h.logWrite _ hp fun x => ⟨.inl, fun hx => hx.elim id fun hx => by rw [hx]; exact hmem⟩
  | append p op b hp _ _ _ => exact h.logWrite _ hp fun x => by simp
  | tooBig | outsideTrans => exact h.panic (by decide)
  | endPanic p op hp hcommit =>
    rw [h.not_committing hp] at hcommit
    exact absurd hcommit (by simp)
  | endLast p op hp _ hlast => exact h.endLast hp hlast
  | endMore p op hp _ hmore => exact h.endMore hp hmore
  | commit p hp => exact h.commit hp
  | commitDone p hp => exact h.commitDone hp
  | wake p hp => exact h.doze (.inr (.inr hp)) (.inr rfl)

omit h

theorem transInv_of_reachable {sb : Superblock} (h : Reachable (transMachine P sb) s) :
    TransInv s := by
  refine Reachable.invariant (I := TransInv) ?_ ?_ h
  · rintro s rfl
    exact transInv_init sb
  · exact fun s l s' _ hinv hstep => hinv.step (transStep_of_trans hstep).2

/-- While the flag is set only `commit()` itself changes the header: `log_write` would need an
outstanding operation. -/
theorem TransInv.lh_eq {l : TransLabel P} (h : TransInv s) (hstep : TransStep s l s')
    (hcommitting : s.log.committing = true) (hl : ∀ p, l ≠ .commit p) : s'.log.lh = s.log.lh := by
  cases hstep with
  | append p op b hp _ _ _ =>
    rw [h.not_committing hp] at hcommitting
    exact absurd hcommitting (by simp)
  | commit p hp => exact absurd rfl (hl p)
  | _ => rfl

/-- **The transaction protocol.** In every state reached by any number of processes:

* while `log.committing` is set no operation is outstanding, no step but `commit()`'s own
  changes `log.lh`, and the blocks in `log.lh` are exactly those written by `log_write` since
  the last commit, every one of them by an operation that has called `end_op`;
* `panic("log.committing")` has not been reached;
* `log.outstanding` is the number of processes between `begin_op` and `end_op`;
* a process sleeps in `begin_op` only while a commit runs or another process is inside an
  operation. -/
theorem trans_protocol {sb : Superblock} (h : Reachable (transMachine P sb) s) :
    (s.log.committing = true →
      s.log.outstanding = 0 ∧
      (∀ l s', trans s l = some s' → (∀ p, l ≠ .commit p) → s'.log.lh = s.log.lh) ∧
      (∀ b, b ∈ s.log.lh ↔ ∃ op, (op, b) ∈ s.writes) ∧
      ∀ e ∈ s.writes, e.1 < s.nextOp ∧ ∀ p, s.procs p ≠ .inOp e.1) ∧
    s.panic ≠ some .committing ∧
    s.log.outstanding = inOps s.procs ∧
    ∀ p, s.procs p = .sleeping →
      s.log.committing = true ∨ ∃ q, q ≠ p ∧ ∃ op, s.procs q = .inOp op := by
  have hinv := transInv_of_reachable h
  refine ⟨fun hc => ⟨hinv.quiet hc, ?_, hinv.header, fun e he => ⟨hinv.writers e he, ?_⟩⟩,
    hinv.noPanic, hinv.counts, ?_⟩
  · exact fun l s' hstep hl => hinv.lh_eq (transStep_of_trans hstep).2 hc hl
  · intro q hq
    rw [hinv.not_committing hq] at hc
    exact absurd hc (by simp)
  · intro p hp
    refine (hinv.sleepers p hp).imp id fun hpos => ?_
    rw [hinv.counts] at hpos
    obtain ⟨q, op, hq⟩ := exists_inOp_of_pos hpos
    refine ⟨q, fun hqp => ?_, op, hq⟩
    rw [hqp, hp] at hq
    cases hq

end Invariant

/-- Process `0` commits a block while process `1`, which came too late, sleeps. -/
def lateSchedule : List (TransLabel (Fin 2)) :=
  [.beginOp 0, .logWrite 0 100, .endOp 0, .beginOp 1]

theorem trans_protocol_late :
    ∃ s : TransState (Fin 2), Reachable (transMachine (Fin 2) Mkfs.sb) s ∧
      s.log.committing = true ∧ s.log.lh = [100] ∧ s.procs 1 = .sleeping ∧
      s.log.outstanding = 0 ∧ s.panic ≠ some .committing ∧ s.log.outstanding = inOps s.procs := by
  obtain ⟨s, hrun, hc, hlh, hsleep⟩ : ∃ s, lateSchedule.foldlM trans (bootState (Fin 2) Mkfs.sb)
      = some s ∧ s.log.committing = true ∧ s.log.lh = [100] ∧ s.procs 1 = .sleeping :=
    ⟨_, rfl, by decide, by decide, by decide⟩
  have hs : Reachable (transMachine (Fin 2) Mkfs.sb) s :=
    Reachable.schedule (fun _ _ _ h => h) (.start rfl) hrun
  obtain ⟨hcommit, hpanic, hcount, -⟩ := trans_protocol hs
  exact ⟨s, hs, hc, hlh, hsleep, (hcommit hc).1, hpanic, hcount⟩

end Xv6
