import Xv6.Param
import Xv6.Proc.Reap

/-!
# Table entries across the processes that use them

The process table of `Xv6.Proc.Tree` with the rest of an entry that `fork` hands on (`ofile`,
`cwd`), the steps that write `cputime` and `priority`, and a count of the timer interrupts each
process has taken.
-/

namespace Xv6

open Machines Function

structure SlotSys where
  sys : ProcSys
  -- The open files, as indices of the file table.
  ofile : Fin NPROC → Fin NOFILE → Option Nat
  -- The current directory, as an index of the inode table.
  cwd : Fin NPROC → Option Nat
  -- The entry whose `cputime` the `allocproc` of a process is about to clear.
  pending : Fin NPROC → Option (Fin NPROC)
  -- The timer interrupts taken by each incarnation.
  taken : Nat → Nat
  -- What the calls of `wait2` have stored as `cputime`, and for whom.
  reports : List (Nat × Int32)

/-- The process is inside `exit`, or a zombie. -/
def Gone (s : ProcSys) (i : Fin NPROC) : Prop :=
  (s.proc i).state = .ZOMBIE ∨ (s.pc i).exitStatus ≠ none

/-- The critical sections that neither take nor free an entry, nor write one that is `UNUSED`, nor
any `cputime`. They come from `ProcStep` as they are. -/
structure Quiet (s t : ProcSys) : Prop where
  uid : t.uid = s.uid
  nextUid : t.nextUid = s.nextUid
  reaps : t.reaps = s.reaps
  scan : ∀ p n, s.pc p = .forkScan n → t.pc p = .forkScan n
  gone : ∀ i, Gone t i → Gone s i
  cputime : ∀ i, (t.proc i).cputime = (s.proc i).cputime
  unused : ∀ i, (t.proc i).state = .UNUSED ↔ (s.proc i).state = .UNUSED
  keep : ∀ i, (s.proc i).state = .UNUSED → t.proc i = s.proc i

/-- What `usertrap` or `kerneltrap` does to the running process on a timer interrupt: `usertrap`
calls `exit` before it counts, if the process has been killed. -/
def timerTrap (user : Bool) (x : Proc) : Proc :=
  if user = true ∧ x.killed = true then x else { x with cputime := x.cputime + 1 }

/-- `fork` copies the open files the parent has and leaves the others as they are. -/
def forkFiles (parent child : Fin NOFILE → Option Nat) : Fin NOFILE → Option Nat :=
  fun fd => (parent fd).or (child fd)

inductive SlotLabel where
  | quiet
  | files
  | setpriority
  | kill (i : Fin NPROC)
  | timer (user : Bool) (p : Fin NPROC)
  | forkSkip
  -- `p->cputime = 0` in `allocproc`.
  | clear (i : Fin NPROC)
  | forkNone
  | forkFail
  | forkAlloc (p i : Fin NPROC)
  | exit
  | reap (i : Fin NPROC)
  deriving DecidableEq, Repr

/-- The other critical sections, one by one, with the system calls and traps that `ProcStep` does
not have. `allocproc` clears `cputime` of an entry it passes after it has released the lock, so that
is a step of its own. -/
inductive SlotStep (s : SlotSys) : SlotLabel → SlotSys → Prop where
  | quiet (t : ProcSys) (hstep : ProcStep s.sys t) (hquiet : Quiet s.sys t) :
      SlotStep s .quiet { s with sys := t }
  -- `open`, `close`, `dup`, `pipe` and `chdir`.
  | files (p : Fin NPROC) (ofile : Fin NOFILE → Option Nat) (cwd : Option Nat)
      (hp : s.sys.At p .user) :
      SlotStep s .files { s with
        ofile := update s.ofile p ofile
        cwd := update s.cwd p cwd }
  | setpriority (p : Fin NPROC) (priority : Int32) (hp : s.sys.At p .user) :
      SlotStep s .setpriority { s with
        sys := s.sys.set p { s.sys.proc p with priority := priority } }
  | kill (i : Fin NPROC) :
      SlotStep s (.kill i) { s with sys := s.sys.set i (killProc (s.sys.proc i)) }
  -- Interrupts are off while a spin lock is held.
  | timer (user : Bool) (p : Fin NPROC) (hp : (s.sys.proc p).state = .RUNNING)
      (hlock : s.sys.waitLock ≠ some p) (huser : user = true → s.sys.pc p = .user) :
      SlotStep s (.timer user p) { s with
        sys := s.sys.set p (timerTrap user (s.sys.proc p))
        taken := update s.taken (s.sys.uid p) (s.taken (s.sys.uid p) + 1) }
  | forkSkip (p i : Fin NPROC) (hp : s.sys.At p (.forkScan i))
      (hi : (s.sys.proc i).state ≠ .UNUSED) (hidle : s.pending p = none) :
      SlotStep s .forkSkip { s with
        sys := s.sys.goto p (.forkScan (i + 1))
        pending := update s.pending p (some i) }
  | clear (p i : Fin NPROC) (hp : s.pending p = some i) :
      SlotStep s (.clear i) { s with
        sys := s.sys.set i { s.sys.proc i with cputime := 0 }
        pending := update s.pending p none }
  | forkNone (p : Fin NPROC) (hp : s.sys.At p (.forkScan NPROC)) (hidle : s.pending p = none) :
      SlotStep s .forkNone { s with sys := s.sys.goto p .user }
  | forkFail (p i : Fin NPROC) (hp : s.sys.At p (.forkScan i))
      (hi : (s.sys.proc i).state = .UNUSED) (hidle : s.pending p = none) :
      SlotStep s .forkFail { s with
        sys := { (s.sys.set i (freeproc (s.sys.proc i))).goto p .user with
          nextpid := s.sys.nextpid + 1 } }
  | forkAlloc (p i : Fin NPROC) (hp : s.sys.At p (.forkScan i))
      (hi : (s.sys.proc i).state = .UNUSED) (hidle : s.pending p = none) :
      SlotStep s (.forkAlloc p i) { s with
        sys := { (s.sys.set i { s.sys.proc i with pid := s.sys.nextpid, state := .USED }).goto p
            (.forkLink i) with
          nextpid := s.sys.nextpid + 1
          uid := update s.sys.uid i s.sys.nextUid
          nextUid := s.sys.nextUid + 1
          pidOf := update s.sys.pidOf s.sys.nextUid s.sys.nextpid }
        ofile := update s.ofile i (forkFiles (s.ofile p) (s.ofile i))
        cwd := update s.cwd i (s.cwd p) }
  -- `exit` has closed the files and put the current directory when it takes `wait_lock`.
  | exit (p : Fin NPROC) (status : Int32) (hp : s.sys.At p .user) (hinit : p ≠ initproc)
      (hlock : s.sys.waitLock = none) :
      SlotStep s .exit { s with
        sys := { s.sys.goto p (.exitReparent status 0) with
          waitLock := some p
          exits := s.sys.exits ++ [(s.sys.uid p, status)] }
        ofile := update s.ofile p fun _ => none
        cwd := update s.cwd p none }
  | reap (p i : Fin NPROC) (call : WaitCall) (havekids : Bool)
      (hp : s.sys.At p (.waitScan call i havekids)) (hi : (s.sys.proc i).parent = some p)
      (hz : (s.sys.proc i).state = .ZOMBIE) :
      SlotStep s (.reap i) { s with
        sys := { (s.sys.set i (freeproc (s.sys.proc i))).goto p .user with
          waitLock := none
          reaps := s.sys.reaps ++ [
            { child := s.sys.uid i
              parent := (s.sys.proc i).parent.map s.sys.uid
              reaper := s.sys.uid p
              ret := (s.sys.proc i).pid
              status := (s.sys.proc i).xstate
              stored := if call.addr then some (s.sys.proc i).xstate else none }] }
        reports := if call.addr2 then s.reports ++ [(s.sys.uid i, (s.sys.proc i).cputime)]
          else s.reports }

/-- `userinit` opens the root directory for the first process. -/
def bootSlots : SlotSys where
  sys := bootProcs
  ofile _ _ := none
  cwd i := if i = initproc then some 0 else none
  pending _ := none
  taken _ := 0
  reports := []

def slotMachine : Machine SlotSys SlotLabel where
  init s := s = bootSlots
  step := SlotStep

/-! ## Quiet critical sections -/

section Quiet

variable {s t : ProcSys} {p i : Fin NPROC} {b : Pc}

theorem Quiet.refl (s : ProcSys) : Quiet s s where
  uid := rfl
  nextUid := rfl
  reaps := rfl
  scan _ _ hp := hp
  gone _ hi := hi
  cputime _ := rfl
  unused _ := Iff.rfl
  keep _ _ := rfl

theorem Quiet.set {x : Proc} (hi : (s.proc i).state ≠ .UNUSED) (hx : x.state ≠ .UNUSED)
    (hz : x.state = .ZOMBIE → Gone s i) (hcpu : x.cputime = (s.proc i).cputime) :
    Quiet s (s.set i x) where
  uid := rfl
  nextUid := rfl
  reaps := rfl
  scan _ _ hp := hp
  gone k hk := by
    by_cases hki : k = i
    · subst hki
      unfold Gone at hk
      rw [ProcSys.set_self] at hk
      exact hk.elim hz .inr
    · unfold Gone at hk
      rw [ProcSys.set_of_ne s hki] at hk
      exact hk
  cputime k := by
    by_cases hki : k = i
    · rw [hki, ProcSys.set_self, hcpu]
    · rw [ProcSys.set_of_ne s hki]
  unused k := by
    by_cases hki : k = i
    · rw [hki, ProcSys.set_self]
      exact ⟨fun hu => absurd hu hx, fun hu => absurd hu hi⟩
    · rw [ProcSys.set_of_ne s hki]
  keep k hk := by
    have hki : k ≠ i := by
      rintro rfl
      exact hi hk
    exact ProcSys.set_of_ne s hki x

theorem ProcSys.set_eq (s : ProcSys) (i : Fin NPROC) : s.set i (s.proc i) = s := by
  unfold ProcSys.set
  rw [update_eq_self]

/-- A quiet change after which a process that was at `a` goes to `b`, outside the scan of
`allocproc`; `wait_lock` may be taken or released there. -/
theorem Quiet.goto {a : Pc} {l : Option (Fin NPROC)} (h : Quiet s t) (hp : s.At p a)
    (ha : ∀ n, a ≠ .forkScan n) (hb : b.exitStatus ≠ none → a.exitStatus ≠ none) :
    Quiet s { t.goto p b with waitLock := l } where
  __ := h
  scan q n hq := by
    have hqp : q ≠ p := by
      rintro rfl
      exact ha n (hp.pc.symm.trans hq)
    exact (ProcSys.goto_of_ne t hqp b).trans (h.scan q n hq)
  gone k hk := by
    rcases hk with hz | hex
    · exact h.gone k (.inl hz)
    · by_cases hkp : k = p
      · subst hkp
        have hbex : b.exitStatus ≠ none := (ProcSys.goto_self t k b) ▸ hex
        exact .inr (hp.pc ▸ hb hbex)
      · exact h.gone k (.inr ((ProcSys.goto_of_ne t hkp b) ▸ hex))

theorem Quiet.sched (hi : (s.proc i).state = .RUNNABLE) :
    Quiet s (s.set i { s.proc i with state := .RUNNING, chan := .null }) :=
  .set (by simp [hi]) (by simp) (by simp) rfl

theorem Quiet.forkLink {np : Fin NPROC} (ht : TreeInv s) (hp : s.At p (.forkLink np)) :
    Quiet s ((s.set np { s.proc np with parent := some p }).goto p (.forkRun np)) := by
  have hnp := (ht.link p np hp.pc).1
  have hset : Quiet s (s.set np { s.proc np with parent := some p }) :=
    .set (by simp [hnp]) (by simp [hnp]) (by simp [hnp]) rfl
  exact hset.goto (l := s.waitLock) hp (by simp) (by simp [Pc.exitStatus])

theorem Quiet.forkRun {np : Fin NPROC} (ht : TreeInv s) (hp : s.At p (.forkRun np)) :
    Quiet s ((s.set np { s.proc np with state := .RUNNABLE }).goto p .user) := by
  have hnp := (ht.run p np hp.pc).1
  have hset : Quiet s (s.set np { s.proc np with state := .RUNNABLE }) :=
    .set (by simp [hnp]) (by simp) (by simp) rfl
  exact hset.goto (l := s.waitLock) hp (by simp) (by simp [Pc.exitStatus])

end Quiet

/-! ## The invariants of the process tree -/

variable {s : SlotSys}

/-- The entry as the process tree sees it: `cputime` and `priority` aside. -/
structure SameTree (x y : Proc) : Prop where
  state : y.state = x.state
  pid : y.pid = x.pid
  parent : y.parent = x.parent
  xstate : y.xstate = x.xstate

theorem timerTrap_sameTree (user : Bool) (x : Proc) : SameTree x (timerTrap user x) := by
  unfold timerTrap
  split <;> exact ⟨rfl, rfl, rfl, rfl⟩

theorem SameTree.touch {s : ProcSys} {i : Fin NPROC} {x : Proc} (h : TreeInv s)
    (hx : SameTree (s.proc i) x) : Touch s i x :=
  ⟨hx.parent, hx.pid, hx.xstate, .inl hx.state, fun hpc => hx.state.trans (h.holder i hpc)⟩

structure SlotTree (s : ProcSys) : Prop where
  tree : TreeInv s
  hist : HistInv s

theorem SlotTree.next {s t : ProcSys} (h : SlotTree s) (hstep : ProcStep s t) : SlotTree t :=
  ⟨h.tree.step hstep, h.hist.step h.tree hstep⟩

theorem SlotTree.touch {s : ProcSys} {i : Fin NPROC} {x : Proc} (h : SlotTree s)
    (hx : Touch s i x) : SlotTree (s.set i x) :=
  ⟨h.tree.touch hx, h.hist.set hx.kept⟩

variable {s' : SlotSys}

theorem SlotTree.step {l : SlotLabel} (h : SlotTree s.sys) (hstep : SlotStep s l s') :
    SlotTree s'.sys := by
  cases hstep with
  | quiet t hstep _ => exact h.next hstep
  | files => exact h
  | setpriority | clear => exact h.touch (SameTree.touch h.tree ⟨rfl, rfl, rfl, rfl⟩)
  | kill i => exact h.touch (h.tree.touch_kill i)
  | timer user p _ _ _ => exact h.touch (SameTree.touch h.tree (timerTrap_sameTree ..))
  | forkSkip p i hp _ _ =>
    refine ⟨h.tree.stay hp.running (Entry.plain rfl rfl rfl) (by rw [hp.pc]; rfl), ?_⟩
    exact h.hist.moveTo (l := s.sys.waitLock) (by rw [hp.pc]; rfl)
  | forkNone p hp _ => exact h.next (.forkNone p hp)
  | forkFail p i hp hi _ => exact h.next (.forkFail p i hp hi)
  | forkAlloc p i hp hi _ => exact h.next (.forkAlloc p i hp hi)
  | exit p status hp hinit hlock => exact h.next (.exit p status hp hinit hlock)
  | reap p i call hk hp hi hz => exact h.next (.waitReap p i call hk hp hi hz)

theorem slotTree_of_reachable (h : Reachable slotMachine s) : SlotTree s.sys :=
  h.invariant (I := fun s => SlotTree s.sys) (fun _ hinit => hinit ▸ ⟨treeInv_boot, histInv_boot⟩)
    fun _ _ _ _ hi hstep => hi.step hstep

/-! ## What a free entry holds -/

structure Clean (x : Proc) : Prop where
  killed : x.killed = false
  chan : x.chan = .null
  xstate : x.xstate = 0
  cputime : x.cputime = 0
  priority : x.priority = 0
  readytime : x.readytime = 0

/-- `kill` finds no entry that is not in use, and who is reaped leaves nothing in the fields
that `freeproc` keeps. -/
def LeavesNothing (s : SlotSys) : SlotLabel → Prop
  | .kill i => (s.sys.proc i).state ≠ .UNUSED
  | .reap i => (s.sys.proc i).cputime = 0 ∧ (s.sys.proc i).priority = 0 ∧
      (s.sys.proc i).readytime = 0
  | _ => True

/-- What a free entry holds, in the runs in which no slip has left anything in it. -/
structure CleanInv (s : SlotSys) : Prop where
  clean : ∀ i, (s.sys.proc i).state = .UNUSED → Clean (s.sys.proc i)
  closed : ∀ i, (s.sys.proc i).state = .UNUSED ∨ Gone s.sys i → s.ofile i = fun _ => none

theorem cleanInv_boot : CleanInv bootSlots where
  clean _ _ := ⟨rfl, rfl, rfl, rfl, rfl, rfl⟩
  closed _ _ := rfl

theorem freeproc_clean {x : Proc} (hcpu : x.cputime = 0) (hpri : x.priority = 0)
    (hready : x.readytime = 0) : Clean (freeproc x) :=
  ⟨rfl, rfl, rfl, hcpu, hpri, hready⟩

section CleanStep

variable {s : SlotSys} {p i : Fin NPROC}

theorem exitStatus_update {pc : Fin NPROC → Pc} {b : Pc} (hb : b.exitStatus = none) (k : Fin NPROC)
    (hk : (update pc p b k).exitStatus ≠ none) : (pc k).exitStatus ≠ none := by
  by_cases hkp : k = p
  · subst hkp
    rw [update_self] at hk
    exact absurd hb hk
  · rw [update_of_ne hkp] at hk
    exact hk

theorem CleanInv.move (h : CleanInv s) (hproc : s'.sys.proc = s.sys.proc)
    (hofile : s'.ofile = s.ofile) (hpc : ∀ k, (s'.sys.pc k).exitStatus ≠ none →
      (s.sys.pc k).exitStatus ≠ none ∨ s.ofile k = fun _ => none) : CleanInv s' where
  clean k hk := by
    rw [hproc] at hk ⊢
    exact h.clean k hk
  closed k hk := by
    rw [hofile]
    unfold Gone at hk
    rw [hproc] at hk
    rcases hk with hu | hz | hex
    · exact h.closed k (.inl hu)
    · exact h.closed k (.inr (.inl hz))
    · exact (hpc k hex).elim (fun hold => h.closed k (.inr (.inr hold))) id

theorem CleanInv.set {x : Proc} (h : CleanInv s) (hproc : s'.sys.proc = update s.sys.proc i x)
    (hofile : s'.ofile = s.ofile)
    (hpc : ∀ k, (s'.sys.pc k).exitStatus ≠ none → (s.sys.pc k).exitStatus ≠ none)
    (hx : x.state = .UNUSED → Clean x) (hclosed : x.state = .UNUSED ∨ x.state = .ZOMBIE →
      (s.sys.proc i).state = .UNUSED ∨ Gone s.sys i) : CleanInv s' where
  clean k hk := by
    rw [hproc] at hk ⊢
    by_cases hki : k = i
    · subst hki
      rw [update_self] at hk ⊢
      exact hx hk
    · rw [update_of_ne hki] at hk ⊢
      exact h.clean k hk
  closed k hk := by
    rw [hofile]
    -- who is free or gone now was so before, and had no open file
    refine h.closed k ?_
    unfold Gone at hk
    rw [hproc] at hk
    by_cases hki : k = i
    · subst hki
      rw [update_self] at hk
      rcases hk with hu | hz | hex
      · exact hclosed (.inl hu)
      · exact hclosed (.inr hz)
      · exact .inr (.inr (hpc k hex))
    · rw [update_of_ne hki] at hk
      exact hk.imp id fun hgone => hgone.imp id (hpc k)

theorem CleanInv.setFiles {ofile : Fin NOFILE → Option Nat} {cwd : Fin NPROC → Option Nat}
    (h : CleanInv s) (hi : (s.sys.proc i).state = .UNUSED ∨ Gone s.sys i → ofile = fun _ => none) :
    CleanInv { s with ofile := update s.ofile i ofile, cwd := cwd } where
  clean := h.clean
  closed k hk := by
    dsimp only
    by_cases hki : k = i
    · subst hki
      rw [update_self]
      exact hi hk
    · rw [update_of_ne hki]
      exact h.closed k hk

theorem CleanInv.step {l : SlotLabel} (h : CleanInv s) (ht : TreeInv s.sys) (hl : LeavesNothing s l)
    (hstep : SlotStep s l s') : CleanInv s' := by
  cases hstep with
  | quiet t _ hq =>
    refine ⟨fun k hk => ?_, fun k hk => ?_⟩
    · have hu := (hq.unused k).mp hk
      show Clean (t.proc k)
      rw [hq.keep k hu]
      exact h.clean k hu
    · exact h.closed k (hk.imp (hq.unused k).mp (hq.gone k))
  | files p ofile cwd hp =>
    refine h.setFiles fun hk => ?_
    simp [Gone, hp.running, hp.pc, Pc.exitStatus] at hk
  | setpriority p v hp =>
    exact h.set rfl rfl (fun _ hex => hex) (by simp [hp.running]) (by simp [hp.running])
  | kill i =>
    have hkept := (ht.touch_kill i).kept
    refine h.set rfl rfl (fun _ hex => hex) (fun hu => absurd (hkept.unused.mp hu) hl) fun hc => ?_
    exact hc.imp hkept.unused.mp fun hz => .inl (hkept.zombie.mp hz)
  | timer user p hp _ _ =>
    have hstate := (timerTrap_sameTree user (s.sys.proc p)).state.trans hp
    exact h.set rfl rfl (fun _ hex => hex) (by simp [hstate]) (by simp [hstate])
  | forkSkip p i hp _ _ =>
    exact h.move rfl rfl fun k hk => .inl (exitStatus_update rfl k hk)
  | clear p i _ =>
    exact h.set rfl rfl (fun _ hex => hex) (fun hu => { h.clean i hu with cputime := rfl })
      fun hc => hc.imp id .inl
  | forkNone p hp _ => exact h.move rfl rfl fun k hk => .inl (exitStatus_update rfl k hk)
  | forkFail p i hp hi _ =>
    have hc := h.clean i hi
    exact h.set rfl rfl (exitStatus_update rfl)
      (fun _ => freeproc_clean hc.cputime hc.priority hc.readytime) fun _ => .inl hi
  | forkAlloc p i hp hi _ =>
    have hidle : s.sys.pc i = .user := ht.idle (by rw [hi]; rfl)
    have hip : i ≠ p := by
      rintro rfl
      rw [hp.running] at hi
      cases hi
    -- the entry is `USED` now, so its files are nobody's business here
    refine CleanInv.setFiles (s := { s with sys := _ }) (i := i)
      (h.set rfl rfl (exitStatus_update rfl) (by simp) (by simp)) fun hk => ?_
    exfalso
    unfold Gone at hk
    dsimp only at hk
    rw [ProcSys.set, ProcSys.goto] at hk
    simp [update_of_ne hip, hidle, Pc.exitStatus] at hk
  | exit p status hp hinit hlock =>
    have hfiles : CleanInv { s with
        ofile := update s.ofile p fun _ => none
        cwd := update s.cwd p none } := h.setFiles fun _ => rfl
    refine hfiles.move rfl rfl fun k hk => ?_
    by_cases hkp : k = p
    · subst hkp
      exact .inr (update_self ..)
    · exact .inl (ProcSys.goto_of_ne s.sys hkp _ ▸ hk)
  | reap p i call hk hp hi hz =>
    obtain ⟨hcpu, hpri, hready⟩ := hl
    exact h.set rfl rfl (exitStatus_update rfl) (fun _ => freeproc_clean hcpu hpri hready)
      fun _ => .inr (.inl hz)

end CleanStep

theorem cleanInv_of_reachable (h : Reachable (slotMachine.restrict LeavesNothing) s) : CleanInv s :=
  h.invariant (fun _ hinit => hinit ▸ cleanInv_boot) fun _ _ _ hs hi hstep =>
    hi.step (slotTree_of_reachable hs.of_restrict).tree hstep.1 hstep.2

def initRuns : SlotSys :=
  { bootSlots with
    sys := bootProcs.set initproc { bootProcs.proc initproc with state := .RUNNING, chan := .null } }

/-- It calls `fork`, and the scan of `allocproc` has passed its entry. -/
def SlotSys.initScans (s : SlotSys) : SlotSys :=
  let s₁ := s.sys.goto initproc (.forkScan 0)
  let s₂ := s₁.goto initproc (.forkScan 1)
  { s with
    sys := s₂.set initproc { s₂.proc initproc with cputime := 0 }
    pending := update (update s.pending initproc (some initproc)) initproc none }

section InitRuns

variable {C : SlotSys → SlotLabel → Prop}

theorem reachable_initRuns (hC : ∀ s, C s .quiet) : Reachable (slotMachine.restrict C) initRuns := by
  exact Reachable.next (.start rfl) ⟨hC _, .quiet _ (.sched initproc rfl) (.sched rfl)⟩

theorem reachable_initScans (hs : Reachable (slotMachine.restrict C) s)
    (hp : s.sys.At initproc .user) (hidle : s.pending initproc = none)
    (hC : ∀ s, C s .quiet ∧ C s .forkSkip)
    (hclear : ∀ s, (s.sys.proc initproc).cputime = 0 → C s (.clear initproc))
    (hcpu : (s.sys.proc initproc).cputime = 0) :
    Reachable (slotMachine.restrict C) s.initScans := by
  have h1 := hs.next ⟨(hC _).1, .quiet _ (.fork initproc hp)
    ((Quiet.refl _).goto (l := s.sys.waitLock) hp (by simp) (by simp [Pc.exitStatus]))⟩
  have hscan : (s.sys.goto initproc (.forkScan 0)).At initproc (.forkScan 0) :=
    ⟨hp.running, ProcSys.goto_self ..⟩
  have h2 := h1.next ⟨(hC _).2, .forkSkip initproc initproc hscan
    (by rw [hscan.running]; simp) hidle⟩
  exact h2.next ⟨hclear _ hcpu, .clear initproc initproc
    (update_self initproc (some initproc) s.pending)⟩

end InitRuns

/-- What a process starts with, apart from its `pid` and its memory. -/
structure Start where
  killed : Bool
  chan : Chan
  xstate : Int32
  cputime : Int32
  priority : Int32
  readytime : UInt64
  ofile : Fin NOFILE → Option Nat
  cwd : Option Nat

def SlotSys.start (s : SlotSys) (i : Fin NPROC) : Start where
  killed := (s.sys.proc i).killed
  chan := (s.sys.proc i).chan
  xstate := (s.sys.proc i).xstate
  cputime := (s.sys.proc i).cputime
  priority := (s.sys.proc i).priority
  readytime := (s.sys.proc i).readytime
  ofile := s.ofile i
  cwd := s.cwd i

theorem CleanInv.forkAlloc {p i : Fin NPROC} (h : CleanInv s)
    (hstep : SlotStep s (.forkAlloc p i) s') : s'.start i =
      { killed := false, chan := .null, xstate := 0, cputime := 0, priority := 0, readytime := 0
        ofile := s.ofile p, cwd := s.cwd p } := by
  cases hstep with
  | forkAlloc _ _ hp hi _ =>
    have hc := h.clean i hi
    have hfiles : forkFiles (s.ofile p) (s.ofile i) = s.ofile p := by
      rw [h.closed i (.inl hi)]
      funext fd
      exact Option.or_none
    simp [SlotSys.start, ProcSys.goto, ProcSys.set, hc.killed, hc.chan, hc.xstate, hc.cputime,
      hc.priority, hc.readytime, hfiles]

/-- **A new process does not depend on the past of its entry**, in any two runs without a `kill`
that finds a free entry and without a process that is reaped with `cputime`, `priority` or
`readytime` set: children of parents with the same files and current directory start alike. -/
theorem fork_forgets_slot {s₁ s₂ s₁' s₂' : SlotSys} {p₁ p₂ i₁ i₂ : Fin NPROC}
    (h₁ : Reachable (slotMachine.restrict LeavesNothing) s₁)
    (h₂ : Reachable (slotMachine.restrict LeavesNothing) s₂)
    (hofile : s₁.ofile p₁ = s₂.ofile p₂) (hcwd : s₁.cwd p₁ = s₂.cwd p₂)
    (hstep₁ : SlotStep s₁ (.forkAlloc p₁ i₁) s₁') (hstep₂ : SlotStep s₂ (.forkAlloc p₂ i₂) s₂') :
    s₁'.start i₁ = s₂'.start i₂ ∧ (s₁'.sys.proc i₁).killed = false ∧
      (s₁'.sys.proc i₁).cputime = 0 := by
  have hchild1 := (cleanInv_of_reachable h₁).forkAlloc hstep₁
  have hchild2 := (cleanInv_of_reachable h₂).forkAlloc hstep₂
  refine ⟨?_, congrArg Start.killed hchild1, congrArg Start.cputime hchild1⟩
  rw [hchild1, hchild2, hofile, hcwd]

/-- The first `fork` finds no memory for its child. -/
def initFails : SlotSys :=
  let s := initRuns.initScans
  { s with
    sys := { (s.sys.set 1 (freeproc (s.sys.proc 1))).goto initproc .user with
      nextpid := s.sys.nextpid + 1 } }

theorem fork_forgets_slot_failed :
    ∃ s₁' s₂' : SlotSys, SlotStep initRuns.initScans (.forkAlloc initproc 1) s₁' ∧
      SlotStep initFails.initScans (.forkAlloc initproc 1) s₂' ∧ s₁'.start 1 = s₂'.start 1 ∧
        (s₁'.sys.proc 1).killed = false ∧ (s₁'.sys.proc 1).cputime = 0 := by
  have h0 := reachable_initRuns (C := LeavesNothing) fun _ => trivial
  have h1 := reachable_initScans h0 ⟨rfl, rfl⟩ rfl (fun _ => ⟨trivial, trivial⟩)
    (fun _ _ => trivial) rfl
  have hfail : Reachable (slotMachine.restrict LeavesNothing) initFails :=
    h1.next (l := .forkFail) ⟨trivial, .forkFail initproc 1 ⟨rfl, rfl⟩ rfl rfl⟩
  have h2 := reachable_initScans hfail ⟨rfl, rfl⟩ rfl (fun _ => ⟨trivial, trivial⟩)
    (fun _ _ => trivial) rfl
  have hstep1 := SlotStep.forkAlloc (s := initRuns.initScans) initproc 1 ⟨rfl, rfl⟩ rfl rfl
  have hstep2 := SlotStep.forkAlloc (s := initFails.initScans) initproc 1 ⟨rfl, rfl⟩ rfl rfl
  exact ⟨_, _, hstep1, hstep2, fork_forgets_slot h1 h2 rfl rfl hstep1 hstep2⟩

/-- `kill(0)` finds the first free entry, whose `pid` is 0, and the next `fork` hands `killed` to
its child. -/
theorem fork_inherits_killed :
    ∃ s₁ s₂ s₁' s₂' : SlotSys, Reachable slotMachine s₁ ∧ Reachable slotMachine s₂ ∧
      s₁.sys.proc initproc = s₂.sys.proc initproc ∧ s₁.sys.nextpid = s₂.sys.nextpid ∧
      s₁.ofile initproc = s₂.ofile initproc ∧ s₁.cwd initproc = s₂.cwd initproc ∧
      SlotStep s₁ (.forkAlloc initproc 1) s₁' ∧ SlotStep s₂ (.forkAlloc initproc 1) s₂' ∧
      (s₁'.sys.proc 1).killed = false ∧ (s₂'.sys.proc 1).killed = true := by
  have h0 := reachable_initRuns (C := fun _ _ => True) fun _ => trivial
  have h1 := reachable_initScans h0 ⟨rfl, rfl⟩ rfl (fun _ => ⟨trivial, trivial⟩)
    (fun _ _ => trivial) rfl
  have hkill := h0.next ⟨trivial, .kill 1⟩
  have h2 := reachable_initScans hkill ⟨rfl, rfl⟩ rfl (fun _ => ⟨trivial, trivial⟩)
    (fun _ _ => trivial) rfl
  exact ⟨_, _, _, _, h1.of_restrict, h2.of_restrict, rfl, rfl, rfl, rfl,
    .forkAlloc initproc 1 ⟨rfl, rfl⟩ rfl rfl, .forkAlloc initproc 1 ⟨rfl, rfl⟩ rfl rfl, rfl, rfl⟩

end Xv6
