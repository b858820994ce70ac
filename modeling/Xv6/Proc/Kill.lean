import Xv6.Proc.Tree

/-!
# `kill`

`kill(pid)` walks the process table and stops at the first entry whose `pid` is the one it looks
for, whether the entry is in use or not. The `pid` of an entry that is not in use is 0. `kill_exact_iff`
says when it does what it is for, on a table that nobody else changes.
-/

namespace Xv6

open Machines Function List

/-! ## One call -/

/-- `kill(pid)`: what it returns, and the table. -/
def kill (table : Fin NPROC → Proc) (pid : Int32) : Int × (Fin NPROC → Proc) :=
  match (List.finRange NPROC).find? fun i => (table i).pid = pid with
  | some i => (0, update table i (killProc (table i)))
  | none => (-1, table)

def Named (table : Fin NPROC → Proc) (pid : Int32) (i : Fin NPROC) : Prop :=
  (table i).state ≠ .UNUSED ∧ (table i).pid = pid

/-- A call that returned `res` has reached the process it names, and no other. -/
structure KillExact (table : Fin NPROC → Proc) (pid : Int32) (res : Int × (Fin NPROC → Proc)) :
    Prop where
  found : res.1 = 0 ↔ ∃ i, Named table pid i
  one : res.1 = 0 → ∃ i, Named table pid i ∧ res.2 = update table i (killProc (table i))
  none : res.1 ≠ 0 → res.1 = -1 ∧ res.2 = table

/-- The first entry with this `pid` is in use; or else it has been killed already, and so has a
process with this `pid`, which is not asleep. -/
def FirstInUse (table : Fin NPROC → Proc) (pid : Int32) : Prop :=
  ∀ i, (table i).pid = pid → (∀ j, j < i → (table j).pid ≠ pid) → (table i).state = .UNUSED →
    (table i).killed = true ∧
      ∃ j, Named table pid j ∧ (table j).killed = true ∧ (table j).state ≠ .SLEEPING

theorem killProc_eq_self {x : Proc} : killProc x = x ↔ x.killed = true ∧ x.state ≠ .SLEEPING := by
  obtain ⟨state, chan, killed, xstate, pid, cputime, priority, readytime, parent⟩ := x
  cases state <;> cases killed <;> simp [killProc]

theorem find?_finRange {n : Nat} {P : Fin n → Bool} {i : Fin n}
    (h : (List.finRange n).find? P = some i) : P i = true ∧ ∀ j, j < i → P j = false := by
  obtain ⟨hi, before, after, hsplit, hbefore⟩ := List.find?_eq_some_iff_append.mp h
  refine ⟨hi, fun j hj => ?_⟩
  have hmem := mem_finRange j
  rw [hsplit] at hmem
  rcases mem_append.mp hmem with hmem | hmem
  · simpa using hbefore j hmem
  -- what comes after `i` is larger
  have hsorted := pairwise_lt_finRange n
  rw [hsplit] at hsorted
  have hafter := (pairwise_cons.mp (pairwise_append.mp hsorted).2.1).1
  rcases mem_cons.mp hmem with rfl | hmem
  · exact absurd hj (lt_irrefl j)
  · exact absurd (hafter j hmem) hj.asymm

theorem first_unique {table : Fin NPROC → Proc} {pid : Int32} {i j : Fin NPROC}
    (hi : (table i).pid = pid) (hi' : ∀ k, k < i → (table k).pid ≠ pid)
    (hj : (table j).pid = pid) (hj' : ∀ k, k < j → (table k).pid ≠ pid) : j = i := by
  rcases lt_trichotomy j i with hlt | heq | hgt
  · exact absurd hj (hi' j hlt)
  · exact heq
  · exact absurd hi (hj' i hgt)

theorem killExact_unused {table : Fin NPROC → Proc} {pid : Int32} {i : Fin NPROC}
    (hunused : (table i).state = .UNUSED) :
    KillExact table pid (0, update table i (killProc (table i))) ↔
      (table i).killed = true ∧
        ∃ j, Named table pid j ∧ (table j).killed = true ∧ (table j).state ≠ .SLEEPING := by
  constructor
  · rintro ⟨-, hone, -⟩
    obtain ⟨j, hj, heq⟩ := hone rfl
    dsimp only at heq
    have hne : i ≠ j := by
      rintro rfl
      exact hj.1 hunused
    -- nothing has changed at either entry
    have hi : killProc (table i) = table i := by
      have := congrFun heq i
      rwa [update_self, update_of_ne hne] at this
    have hj' : killProc (table j) = table j := by
      have := congrFun heq j
      rw [update_self, update_of_ne hne.symm] at this
      exact this.symm
    exact ⟨(killProc_eq_self.mp hi).1, j, hj, killProc_eq_self.mp hj'⟩
  · rintro ⟨hkilled, j, hj, hjkilled⟩
    have hi : killProc (table i) = table i := killProc_eq_self.mpr ⟨hkilled, by simp [hunused]⟩
    refine ⟨iff_of_true rfl ⟨j, hj⟩, fun _ => ⟨j, hj, ?_⟩, fun h => absurd rfl h⟩
    dsimp only
    rw [hi, killProc_eq_self.mpr hjkilled, update_eq_self, update_eq_self]

theorem kill_exact_iff (table : Fin NPROC → Proc) (pid : Int32) :
    KillExact table pid (kill table pid) ↔ FirstInUse table pid := by
  -- the loop stops at the first entry with this `pid`, in use or not
  unfold kill
  cases hfind : (List.finRange NPROC).find? fun i => (table i).pid = pid with
  | none =>
    have hno : ∀ i, (table i).pid ≠ pid := by
      intro i heq
      have := List.find?_eq_none.mp hfind i (mem_finRange i)
      simp [heq] at this
    refine iff_of_true ⟨iff_of_false nofun fun ⟨i, hi⟩ => hno i hi.2, nofun, fun _ => ⟨rfl, rfl⟩⟩ ?_
    exact fun i hi => absurd hi (hno i)
  | some i =>
    obtain ⟨hpid, hfirst⟩ := find?_finRange hfind
    simp only [decide_eq_true_eq, decide_eq_false_iff_not] at hpid hfirst
    dsimp only
    by_cases hunused : (table i).state = .UNUSED
    · rw [killExact_unused hunused]
      refine ⟨fun h j hj hbefore _ => ?_, fun h => h i hpid hfirst hunused⟩
      obtain rfl := first_unique hpid hfirst hj hbefore
      exact h
    · refine iff_of_true ⟨iff_of_true rfl ⟨i, hunused, hpid⟩, fun _ => ⟨i, ⟨hunused, hpid⟩, rfl⟩,
        fun h => absurd rfl h⟩ fun j hj hbefore hj' => ?_
      obtain rfl := first_unique hpid hfirst hj hbefore
      exact absurd hj' hunused

/-! ## Runs -/

/-- The life cycle of `Xv6.Proc.Tree` with the calls of `kill`, one entry at a time, and unexpected
traps, as the only ways to set `killed`. `struck` and `trapped` record whom they met. -/
structure KillSys where
  sys : ProcSys
  -- The call of `kill` that a process is in: for which `pid`, and the entry it looks at next.
  call : Fin NPROC → Option (Int32 × Nat)
  -- The processes that a call of `kill` has found, with the `pid` it was called with.
  struck : List (Nat × Int32)
  -- The processes that have taken an unexpected trap.
  trapped : List Nat

inductive KillLabel where
  | tree
  | call (p : Fin NPROC) (pid : Int32)
  | miss (p : Fin NPROC)
  -- The call of `p` finds entry `i`.
  | found (p i : Fin NPROC)
  | none (p : Fin NPROC)
  | trap (p : Fin NPROC)

inductive KillStep (s : KillSys) : KillLabel → KillSys → Prop where
  -- A critical section that sets no `killed`.
  | tree (t : ProcSys) (hstep : ProcStep s.sys t)
      (hkilled : ∀ i, (t.proc i).killed = true → (s.sys.proc i).killed = true) :
      KillStep s .tree { s with sys := t }
  | call (p : Fin NPROC) (pid : Int32) (hp : s.sys.At p .user) (hidle : s.call p = none) :
      KillStep s (.call p pid) { s with call := update s.call p (some (pid, 0)) }
  | miss (p i : Fin NPROC) (pid : Int32) (hp : s.call p = some (pid, (i : Nat)))
      (hi : (s.sys.proc i).pid ≠ pid) :
      KillStep s (.miss p) { s with call := update s.call p (some (pid, (i : Nat) + 1)) }
  | found (p i : Fin NPROC) (pid : Int32) (hp : s.call p = some (pid, (i : Nat)))
      (hi : (s.sys.proc i).pid = pid) :
      KillStep s (.found p i) { s with
        sys := s.sys.set i (killProc (s.sys.proc i))
        call := update s.call p none
        struck := (s.sys.uid i, pid) :: s.struck }
  | none (p : Fin NPROC) (pid : Int32) (hp : s.call p = some (pid, NPROC)) :
      KillStep s (.none p) { s with call := update s.call p none }
  -- `usertrap` does not know the cause.
  | trap (p : Fin NPROC) (hp : s.sys.At p .user) (hidle : s.call p = none) :
      KillStep s (.trap p) { s with
        sys := s.sys.set p { s.sys.proc p with killed := true }
        trapped := s.sys.uid p :: s.trapped }

def bootKill : KillSys := ⟨bootProcs, fun _ => none, [], []⟩

def killMachine : Machine KillSys KillLabel where
  init s := s = bootKill
  step := KillStep

/-- `kill` stops only at entries that are in use. -/
def FindsUsed (s : KillSys) : KillLabel → Prop
  | .found _ i => (s.sys.proc i).state ≠ .UNUSED
  | _ => True

/-- The same process is in entry `i`, if one was, and it has not been killed just now. -/
structure SameOccupant (s t : ProcSys) (i : Fin NPROC) : Prop where
  uid : t.uid i = s.uid i
  pid : (t.proc i).pid = (s.proc i).pid
  used : (t.proc i).state = .UNUSED → (s.proc i).state = .UNUSED
  killed : (t.proc i).killed = (s.proc i).killed

section Occupants

variable {s t : ProcSys} {i j : Fin NPROC} {x : Proc}

theorem SameOccupant.of_eq (huid : t.uid i = s.uid i) (hproc : t.proc i = s.proc i) :
    SameOccupant s t i :=
  ⟨huid, by rw [hproc], by rw [hproc]; exact id, by rw [hproc]⟩

theorem SameOccupant.of_ne (huid : t.uid i = s.uid i) (hproc : t.proc = update s.proc j x)
    (hij : i ≠ j) : SameOccupant s t i :=
  .of_eq huid (by rw [hproc, update_of_ne hij])

theorem SameOccupant.of_update (huid : t.uid = s.uid) (hproc : t.proc = update s.proc j x)
    (hpid : x.pid = (s.proc j).pid) (hx : x.state = .UNUSED → (s.proc j).state = .UNUSED)
    (hkilled : x.killed = (s.proc j).killed) : SameOccupant s t i := by
  by_cases hij : i = j
  · have hi : t.proc i = x := by rw [hproc, hij, update_self]
    refine ⟨by rw [huid], ?_, ?_, ?_⟩
    · rw [hi, hpid, hij]
    · rw [hi, hij]
      exact hx
    · rw [hi, hkilled, hij]
  · exact .of_ne (congrFun huid i) hproc hij

theorem SameOccupant.wakeup {p : Fin NPROC} {chan : Chan} {now : UInt64} (huid : t.uid = s.uid)
    (hproc : t.proc = update s.proc j (wakeupProc p chan now j (s.proc j))) :
    SameOccupant s t i := by
  have hbody : wakeupProc p chan now j (s.proc j) = s.proc j ∨
      wakeupProc p chan now j (s.proc j)
        = { s.proc j with state := .RUNNABLE, readytime := now } := by
    unfold wakeupProc
    split
    · exact .inr rfl
    · exact .inl rfl
  rcases hbody with hsame | hwoken
  · rw [hsame] at hproc
    exact .of_update huid hproc rfl id rfl
  · rw [hwoken] at hproc
    exact .of_update huid hproc rfl nofun rfl

/-- A critical section leaves the occupant of an entry in place, or frees the entry, or takes one that
is free, or is the end of a `kill`. -/
theorem ProcStep.occupant (h : ProcStep s t) (i : Fin NPROC) :
    SameOccupant s t i ∨ t.proc i = freeproc (s.proc i) ∨
      (s.proc i).state = .UNUSED ∧ (t.proc i).killed = (s.proc i).killed ∨
      t = s.set i (killProc (s.proc i)) := by
  -- by the kind of change: same process, freed, allocated, or hit by `kill`
  cases h with
  | sched j | wakeup j => exact .inl (.of_update (j := j) rfl rfl rfl nofun rfl)
  | yield p | sleep p | exitZombie p | waitSleep p =>
    exact .inl (.of_update (j := p) rfl rfl rfl nofun rfl)
  | kill j =>
    by_cases hij : i = j
    · exact .inr (.inr (.inr (by rw [hij])))
    · exact .inl (.of_ne (j := j) rfl rfl hij)
  | forkSkip _ j | reparent _ j => exact .inl (.of_update (j := j) rfl rfl rfl id rfl)
  | forkFail _ j | waitReap _ j =>
    by_cases hij : i = j
    · refine .inr (.inl ?_)
      rw [hij]
      exact update_self ..
    · exact .inl (.of_ne (j := j) rfl rfl hij)
  | forkAlloc p j hp hj =>
    by_cases hij : i = j
    · refine .inr (.inr (.inl ⟨hij ▸ hj, ?_⟩))
      show (update s.proc j _ i).killed = _
      rw [hij, update_self]
    · exact .inl (.of_ne (j := j) (update_of_ne hij ..) rfl hij)
  | forkLink p np hp hlock => exact .inl (.of_update (j := np) rfl rfl rfl id rfl)
  | forkRun p np hp => exact .inl (.of_update (j := np) rfl rfl rfl nofun rfl)
  | reparentWake _ j | exitWakeup _ j => exact .inl (.wakeup (j := j) rfl rfl)
  | _ => exact .inl (.of_eq rfl rfl)

theorem ProcStep.occupant_quiet (h : ProcStep s t)
    (hquiet : (t.proc i).killed = true → (s.proc i).killed = true) :
    SameOccupant s t i ∨ t.proc i = freeproc (s.proc i) ∨ (s.proc i).state = .UNUSED := by
  rcases h.occupant i with hsame | hfree | ⟨hunused, -⟩ | hkill
  · exact .inl hsame
  · exact .inr (.inl hfree)
  · exact .inr (.inr hunused)
  · -- a `kill` of somebody who has been killed before
    have hproc : t.proc = update s.proc i (killProc (s.proc i)) := by rw [hkill]; rfl
    refine .inl (.of_update (by rw [hkill]; rfl) hproc rfl ?_ ?_)
    · unfold killProc
      dsimp only
      split
      · exact nofun
      · exact id
    · rw [hproc, update_self] at hquiet
      exact (hquiet rfl).symm

end Occupants

/-- Who has been killed was named by a `kill`, or trapped; nobody who is not there has been. -/
structure KillInv (s : KillSys) : Prop where
  cause : ∀ i, (s.sys.proc i).state ≠ .UNUSED → (s.sys.proc i).killed = true →
    (s.sys.uid i, (s.sys.proc i).pid) ∈ s.struck ∨ s.sys.uid i ∈ s.trapped
  free : ∀ i, (s.sys.proc i).state = .UNUSED → (s.sys.proc i).killed = false

theorem killInv_boot : KillInv bootKill where
  cause _ _ hkilled := nomatch hkilled
  free _ _ := rfl

theorem KillInv.set {s s' : KillSys} {i : Fin NPROC} {x : Proc} (h : KillInv s)
    (hproc : s'.sys.proc = update s.sys.proc i x) (huid : s'.sys.uid = s.sys.uid)
    (hstruck : s.struck ⊆ s'.struck) (htrapped : s.trapped ⊆ s'.trapped) (hx : x.state ≠ .UNUSED)
    (hcause : (s'.sys.uid i, x.pid) ∈ s'.struck ∨ s'.sys.uid i ∈ s'.trapped) : KillInv s' := by
  have hi : s'.sys.proc i = x := by rw [hproc, update_self]
  have hne : ∀ j, j ≠ i → s'.sys.proc j = s.sys.proc j := fun j hj => by
    rw [hproc, update_of_ne hj]
  constructor
  · intro j hused hkilled
    by_cases hj : j = i
    · rw [hj, hi]
      exact hcause
    · rw [hne j hj] at hused hkilled ⊢
      rw [huid]
      exact (h.cause j hused hkilled).imp (fun hm => hstruck hm) fun hm => htrapped hm
  · intro j hunused
    by_cases hj : j = i
    · rw [hj, hi] at hunused
      exact absurd hunused hx
    · rw [hne j hj] at hunused ⊢
      exact h.free j hunused

theorem KillInv.step {s s' : KillSys} {l : KillLabel} (h : KillInv s) (hl : FindsUsed s l)
    (hstep : KillStep s l s') : KillInv s' := by
  cases hstep with
  | tree t hstep hkilled =>
    constructor
    · intro i hused hset
      -- it was killed before, so there was a process
      have hset' := hkilled i hset
      have hused' : (s.sys.proc i).state ≠ .UNUSED := fun hunused => by
        rw [h.free i hunused] at hset'
        cases hset'
      rcases hstep.occupant_quiet (hkilled i) with hsame | hfree | hunused
      · dsimp only
        rw [hsame.uid, hsame.pid]
        exact h.cause i hused' hset'
      · exact absurd (congrArg Proc.state hfree) hused
      · exact absurd hunused hused'
    · intro i hunused
      by_contra hset
      have hset' := hkilled i (by simpa using hset)
      rcases hstep.occupant_quiet (hkilled i) with hsame | hfree | hfree
      · rw [h.free i (hsame.used hunused)] at hset'
        cases hset'
      · exact hset (congrArg Proc.killed hfree)
      · rw [h.free i hfree] at hset'
        cases hset'
  | call | miss | none => exact ⟨h.cause, h.free⟩
  | found p i pid hp hi =>
    refine h.set (i := i) rfl rfl (subset_cons_self ..) (List.Subset.refl _) ?_
      (.inl (mem_cons.mpr (.inl ?_)))
    · unfold killProc
      dsimp only
      split
      · exact nofun
      · exact hl
    · show (_, (s.sys.proc i).pid) = _
      rw [hi]
      rfl
  | trap p hp hidle =>
    refine h.set (i := p) rfl rfl (List.Subset.refl _) (subset_cons_self ..) ?_
      (.inr (mem_cons_self ..))
    show (s.sys.proc p).state ≠ _
    rw [hp.running]
    exact nofun

theorem killInv_of_reachable {s : KillSys} (h : Reachable (killMachine.restrict FindsUsed) s) :
    KillInv s :=
  h.invariant (fun _ hinit => hinit ▸ killInv_boot) fun _ _ _ _ hi hstep => hi.step hstep.1 hstep.2

/-- **`kill` reaches the process it names.** A call does so exactly when the first entry with the
`pid` is in use. In every run in which the calls of `kill` stop only at such entries, a process has
been killed only by a `kill` with its `pid`, or by an unexpected trap. -/
theorem kill_names_process (table : Fin NPROC → Proc) (pid : Int32) {s : KillSys}
    (h : Reachable (killMachine.restrict FindsUsed) s) :
    (KillExact table pid (kill table pid) ↔ FirstInUse table pid) ∧
      ∀ i, (s.sys.proc i).state ≠ .UNUSED → (s.sys.proc i).killed = true →
        (s.sys.uid i, (s.sys.proc i).pid) ∈ s.struck ∨ s.sys.uid i ∈ s.trapped :=
  ⟨kill_exact_iff table pid, (killInv_of_reachable h).cause⟩

/-! ## `kill(0)` -/

section Zero

variable {C : KillSys → KillLabel → Prop}

def initUp : KillSys :=
  { bootKill with
    sys := bootProcs.set initproc { bootProcs.proc initproc with state := .RUNNING, chan := .null } }

theorem reachable_initUp (hC : ∀ s, C s .tree) : Reachable (killMachine.restrict C) initUp :=
  (Reachable.start (m := killMachine.restrict C) rfl).go .tree (hC _)
    (.tree _ (.sched initproc rfl) (by decide))

/-- Entry 1, which is free, has been hit by `kill(0)`. -/
def initKilled : KillSys :=
  { initUp with
    sys := initUp.sys.set 1 (killProc (initUp.sys.proc 1))
    struck := [(0, 0)] }

theorem reachable_initKilled : Reachable killMachine initKilled := by
  have h0 := (reachable_initUp (C := fun _ _ => True) fun _ => trivial).of_restrict
  have h1 := h0.next (.call initproc 0 ⟨rfl, rfl⟩ rfl)
  have h2 := h1.next (.miss initproc initproc 0 (by rfl) (by decide))
  have h3 := h2.next (.found initproc 1 0 (by rfl) (by rfl))
  have hidle : update initUp.call initproc none = initUp.call :=
    update_eq_self initproc initUp.call
  simp only [update_idem] at h3
  rw [hidle] at h3
  exact h3

/-- `kill(1)` by the first process itself: the call is exact, and in the run that makes it the
process has been killed because it was struck. -/
theorem kill_names_process_init : KillExact bootProcs.proc 1 (kill bootProcs.proc 1) ∧
    ∃ s, Reachable (killMachine.restrict FindsUsed) s ∧ (s.sys.proc initproc).killed = true ∧
      s.trapped = [] ∧ (s.sys.uid initproc, 1) ∈ s.struck := by
  have h1 := (reachable_initUp (C := FindsUsed) fun _ => trivial).go (.call initproc 1) trivial
    (.call initproc 1 ⟨rfl, rfl⟩ rfl)
  have h2 := h1.go (.found initproc initproc) (by unfold FindsUsed; decide)
    (.found initproc initproc 1 (by rfl) (by rfl))
  obtain ⟨hexact, hcause⟩ := kill_names_process bootProcs.proc 1 h2
  refine ⟨hexact.mpr fun i hpid _ hunused => absurd hunused ?_, _, h2, rfl, rfl, ?_⟩
  · revert i
    decide
  · exact (hcause initproc (by decide) rfl).resolve_right not_mem_nil

/-- `kill(0)` finds the first free entry, whose `pid` is 0, and returns 0; the child that `fork` puts
there next has been killed, though nobody has named it. -/
theorem kill_zero_finds_free : (kill bootProcs.proc 0).1 = 0 ∧
    ¬ KillExact bootProcs.proc 0 (kill bootProcs.proc 0) ∧
    ∃ s, Reachable killMachine s ∧ (s.sys.proc 1).state = .USED ∧ (s.sys.proc 1).pid = 2 ∧
      (s.sys.proc 1).killed = true ∧ s.sys.uid 1 = 1 ∧ s.struck = [(0, 0)] ∧ s.trapped = [] := by
  have hzero : (kill bootProcs.proc 0).1 = 0 := by decide
  refine ⟨hzero, fun hexact => ?_, ?_⟩
  · obtain ⟨i, hused, hpid⟩ := hexact.found.mp hzero
    revert i
    decide
  · have h1 := reachable_initKilled.next (.tree _ (.fork initproc ⟨rfl, rfl⟩) fun _ h => h)
    have h2 := h1.next (.tree _ (.forkSkip initproc initproc ⟨rfl, rfl⟩ (by decide)) ?_)
    · have h3 := h2.next (.tree _ (.forkAlloc initproc 1 ⟨rfl, rfl⟩ (by decide)) ?_)
      · exact ⟨_, h3, rfl, rfl, rfl, rfl, rfl, rfl⟩
      · decide
    · decide

end Zero

end Xv6
