import Xv6.Bio.Commit
import Xv6.Log.Commit
import Xv6.Log.Trans

/-!
# The cache and the log as a block store

Any number of processes use the cache (`kernel/bio.c`) and the log (`kernel/log.c`) of one device. A
process modifies a buffer only while it holds its lock, passes a modified buffer to `log_write` or
`bwrite` before `brelse`, modifies no block of the log area, and starts no modification while a commit
runs.
-/

namespace Xv6

open Machines Function

variable {P : Type}

/-- The cache, the transaction protocol, the thread inside `commit()`, and the processes
waiting for a buffer. `dirty` and `mods` are history. -/
structure StoreState (P : Type) where
  mem : Bcache P
  trans : TransState P
  phase : Phase
  -- The buffer a process waits for in `bread`, and the block it asked for.
  waiting : P → Option (Fin NBUF × Nat)
  panic : Option BioPanic
  -- Buffers modified since they were last logged or written.
  dirty : Fin NBUF → Bool
  -- Every modification so far.
  mods : List (Nat × Block)

inductive StoreLabel (P : Type) where
  -- `bread` up to `acquiresleep`.
  | bget (p : P) (blockno : Nat)
  -- The rest of `bread`.
  | lock (p : P)
  | modify (p : P) (i : Fin NBUF) (data : Block)
  | bwrite (p : P) (i : Fin NBUF)
  | logWrite (p : P) (i : Fin NBUF)
  | brelse (p : P) (i : Fin NBUF)
  | beginOp (p : P)
  | endOp (p : P)
  | wake (p : P)
  -- The next step of `commit()` and of the end of `end_op`.
  | commit (p : P)

/-- The contents of the store: the initial disk and the modifications since. -/
def contents (d₀ : Disk) (s : StoreState P) : Disk := Writes.perform s.mods d₀

/-- The blocks of `log.lh` that `install_trans` has not written home. -/
def uninstalled (s : StoreState P) : List Nat :=
  match s.phase with
  | .installTrans _ tail => s.trans.log.lh.drop tail
  | _ => s.trans.log.lh

section Machine

variable [DecidableEq P]

/-- One step of the process that runs `commit()`. -/
def commitStep (dev : Nat) (L : LogArea) (s : StoreState P) (p : P) : Option (StoreState P) :=
  let lh := s.trans.log.lh
  match s.trans.procs p with
  | .inCommit cleared =>
    match s.phase with
    | .writeLog tail =>
      if tail < lh.length then
        match s.mem.writeLog p dev L lh tail with
        | .ok (data, m) => some { s with
            mem := m
            phase := .writeLog (tail + 1)
            mods := s.mods ++ [(L.slot tail, data)] }
        | .error (.panic e) => some { s with panic := some e }
        | .error .blocked => none
      else some { s with phase := .writeHead }
    | .writeHead =>
      match s.mem.writeHead p dev L lh with
      | .ok (data, m) => some { s with
          mem := m
          phase := .installTrans false 0
          mods := s.mods ++ [(L.start, data)] }
      | .error (.panic e) => some { s with panic := some e }
      | .error .blocked => none
    | .installTrans recovering tail =>
      if tail < lh.length then
        match s.mem.installTrans p dev L lh tail with
        | .ok m => some { s with mem := m, phase := .installTrans recovering (tail + 1) }
        | .error (.panic e) => some { s with panic := some e }
        | .error .blocked => none
      else
        -- `log.lh.n = 0`
        (trans s.trans (.commit p)).map fun t => { s with trans := t, phase := .clearHead false }
    | .clearHead _ =>
      match s.mem.writeHead p dev L lh with
      | .ok (data, m) => some { s with
          mem := m
          phase := .idle
          mods := s.mods ++ [(L.start, data)] }
      | .error (.panic e) => some { s with panic := some e }
      | .error .blocked => none
    | .idle =>
      -- an empty log is not written, and the end of `end_op`
      (trans s.trans (if cleared then .commitDone p else .commit p)).map fun t =>
        { s with trans := t }
    | .readHead => none
  | _ => none

/-- One step; `none` when the process cannot take it, or sleeps. -/
def store (dev : Nat) (L : LogArea) (s : StoreState P) (l : StoreLabel P) :
    Option (StoreState P) :=
  if s.panic.isSome ∨ s.trans.panic.isSome then none
  else match l with
  | .bget p blockno =>
    if s.waiting p = none then
      match s.mem.bget dev blockno with
      | .ok (i, m) => some { s with
          mem := m, waiting := update s.waiting p (some (i, blockno)) }
      | .error (.panic e) => some { s with panic := some e }
      | .error .blocked => none
    else none
  | .lock p =>
    match s.waiting p with
    | some (i, _) =>
      match s.mem.acquiresleep p i with
      | .ok m => some { s with mem := m.fill i, waiting := update s.waiting p none }
      | .error _ => none
    | none => none
  | .modify p i data =>
    if (s.mem.buf i).holder = some p ∧ L.Home (s.mem.buf i).blockno ∧
        s.trans.log.committing = false then
      some { s with
        mem := s.mem.modify i data
        dirty := update s.dirty i true
        mods := s.mods ++ [((s.mem.buf i).blockno, data)] }
    else none
  | .bwrite p i =>
    match s.mem.bwrite p i with
    | .ok m => some { s with mem := m, dirty := update s.dirty i false }
    | .error (.panic e) => some { s with panic := some e }
    | .error .blocked => none
  | .logWrite p i =>
    if (s.mem.buf i).holder = some p ∧ L.Home (s.mem.buf i).blockno then
      match trans s.trans (.logWrite p (s.mem.buf i).blockno) with
      | some t =>
        if t.panic.isSome then some { s with trans := t }
        else some { s with
          trans := t
          -- a block new to the log is pinned
          mem := if s.trans.log.lh.length < t.log.lh.length then s.mem.bpin i else s.mem
          dirty := update s.dirty i false }
      | none => none
    else none
  | .brelse p i =>
    if s.dirty i then none
    else match s.mem.brelse p i with
      | .ok m => some { s with mem := m }
      | .error (.panic e) => some { s with panic := some e }
      | .error .blocked => none
  | .beginOp p => (trans s.trans (.beginOp p)).map fun t => { s with trans := t }
  | .endOp p => (trans s.trans (.endOp p)).map fun t =>
      { s with
        trans := t
        -- `commit()` writes nothing when `log.lh.n == 0`
        phase := if t.procs p = .inCommit false ∧ t.log.lh ≠ [] then .writeLog 0 else s.phase }
  | .wake p => (trans s.trans (.wake p)).map fun t => { s with trans := t }
  | .commit p => commitStep dev L s p

/-- The processes `P` sharing the cache and the log of device `dev`, from a disk `d₀` with an empty
log, after `binit` and `initlog`: their calls in any order, over the transaction protocol of
`Xv6.Log.Trans`. `bread` takes two steps, since a process may sleep on the buffer's lock in between;
`commit()` takes one step per loop iteration, so that other processes run while it does. -/
def storeMachine (P : Type) [DecidableEq P] (dev : Nat) (L : LogArea) (d₀ : Disk) :
    Machine (StoreState P) (StoreLabel P) where
  init s := ∃ sb : Superblock, sb.logstart = L.start ∧ sb.nlog = L.size ∧ s =
    { mem := Bcache.binit d₀
      trans := bootState P sb
      phase := .idle
      waiting := fun _ => none
      panic := none
      dirty := fun _ => false
      mods := [] }
  step s l s' := store dev L s l = some s'

end Machine

/-! ## What a step writes -/

section Writes

variable [DecidableEq P] {dev : Nat} {L : LogArea} {s s' : StoreState P}

theorem store_mods {l : StoreLabel P} (hstep : store dev L s l = some s')
    (hl : ∀ p i data, l ≠ .modify p i data) :
    s'.mods = s.mods ∨ ∃ b data, s'.mods = s.mods ++ [(b, data)] ∧
      (b = L.start ∨ ∃ tail, tail < s.trans.log.lh.length ∧ b = L.slot tail) := by
  by_cases hpanic : s.panic.isSome ∨ s.trans.panic.isSome
  · simp [store, hpanic] at hstep
  simp only [store, if_neg hpanic] at hstep
  cases l with
  | modify p i data => exact absurd rfl (hl p i data)
  | commit p =>
    simp only [Xv6.commitStep] at hstep
    split at hstep
    case h_2 => cases hstep
    split at hstep
    · split at hstep
      · rename_i tail _ htail
        split at hstep <;> cases hstep
        · exact .inr ⟨_, _, rfl, .inr ⟨tail, htail, rfl⟩⟩
        · exact .inl rfl
      · cases hstep
        exact .inl rfl
    · split at hstep <;> cases hstep
      · exact .inr ⟨_, _, rfl, .inl rfl⟩
      · exact .inl rfl
    · split at hstep
      · split at hstep <;> cases hstep <;> exact .inl rfl
      · obtain ⟨t, -, rfl⟩ := Option.map_eq_some_iff.mp hstep
        exact .inl rfl
    · split at hstep <;> cases hstep
      · exact .inr ⟨_, _, rfl, .inl rfl⟩
      · exact .inl rfl
    · obtain ⟨t, -, rfl⟩ := Option.map_eq_some_iff.mp hstep
      exact .inl rfl
    · cases hstep
  | bget p b =>
    dsimp only at hstep
    split at hstep
    · split at hstep <;> cases hstep <;> exact .inl rfl
    · cases hstep
  | lock p =>
    dsimp only at hstep
    split at hstep
    · split at hstep <;> cases hstep
      exact .inl rfl
    · cases hstep
  | bwrite p i =>
    dsimp only at hstep
    split at hstep <;> cases hstep <;> exact .inl rfl
  | logWrite p i =>
    dsimp only at hstep
    split at hstep
    · split at hstep
      · split at hstep <;> cases hstep <;> exact .inl rfl
      · cases hstep
    · cases hstep
  | brelse p i =>
    dsimp only at hstep
    split at hstep
    · cases hstep
    · split at hstep <;> cases hstep <;> exact .inl rfl
  | beginOp | endOp | wake =>
    obtain ⟨t, -, rfl⟩ := Option.map_eq_some_iff.mp hstep
    exact .inl rfl

end Writes

end Xv6
