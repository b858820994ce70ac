import Xv6.Proc.Slot

/-!
# `cputime`

`usertrap` and `kerneltrap` count the timer interrupts a process takes, `wait2` reports the
count. The count is right in the runs in which `allocproc` never passes, nor takes, an entry
with a count in it, and no timer interrupt takes a process that has been killed out of user
space: `allocproc` clears the count of every entry it passes and keeps that of the one it takes,
and `usertrap` leaves by `exit` before it counts.
-/

namespace Xv6

open Machines Function List

/-- The clearing of `cputime` in `allocproc` finds nothing to clear, the entry that `allocproc`
takes has no count, and a process that takes a timer interrupt in `usertrap` is not killed. -/
def CountsOnce (s : SlotSys) : SlotLabel → Prop
  | .clear i => (s.sys.proc i).cputime = 0
  | .forkAlloc _ i => (s.sys.proc i).cputime = 0
  | .timer user p => user = true → (s.sys.proc p).killed = false
  | _ => True

/-- The field `cputime` of an entry in use is the number of interrupts its process has taken, and
what `wait2` has reported is the final number. -/
structure CountInv (s : SlotSys) : Prop where
  count : ∀ i, (s.sys.proc i).state ≠ .UNUSED →
    (s.sys.proc i).cputime = Int32.ofNat (s.taken (s.sys.uid i))
  fresh : ∀ u, s.sys.nextUid ≤ u → s.taken u = 0
  -- Who has been reported is gone, and takes no more interrupts.
  reaped : ∀ r ∈ s.reports, r.1 ∈ s.sys.reaps.map Reap.child
  report : ∀ r ∈ s.reports, r.2 = Int32.ofNat (s.taken r.1)

theorem countInv_boot : CountInv bootSlots where
  count _ _ := rfl
  fresh _ _ := rfl
  reaped := by simp [bootSlots]
  report := by simp [bootSlots]

section Steps

variable {s s' : SlotSys} {i : Fin NPROC}

theorem CountInv.same (h : CountInv s) (huid : s'.sys.uid = s.sys.uid)
    (hnext : s'.sys.nextUid = s.sys.nextUid) (hreaps : s'.sys.reaps = s.sys.reaps)
    (htaken : s'.taken = s.taken) (hreports : s'.reports = s.reports)
    (hproc : ∀ k, (s'.sys.proc k).state ≠ .UNUSED → (s.sys.proc k).state ≠ .UNUSED ∧
      (s'.sys.proc k).cputime = (s.sys.proc k).cputime) : CountInv s' where
  count k hk := by
    obtain ⟨hk', hcpu⟩ := hproc k hk
    rw [hcpu, huid, htaken]
    exact h.count k hk'
  fresh u hu := by
    rw [hnext] at hu
    rw [htaken]
    exact h.fresh u hu
  reaped r hr := by
    rw [hreports] at hr
    rw [hreaps]
    exact h.reaped r hr
  report r hr := by
    rw [hreports] at hr
    rw [htaken]
    exact h.report r hr

theorem forall_update {x : Proc} {proc : Fin NPROC → Proc}
    (hx : x.state ≠ .UNUSED → (proc i).state ≠ .UNUSED ∧ x.cputime = (proc i).cputime)
    (k : Fin NPROC) (hk : (update proc i x k).state ≠ .UNUSED) :
    (proc k).state ≠ .UNUSED ∧ (update proc i x k).cputime = (proc k).cputime := by
  by_cases hki : k = i
  · subst hki
    rw [update_self] at hk ⊢
    exact hx hk
  · rw [update_of_ne hki] at hk ⊢
    exact ⟨hk, rfl⟩

theorem ofNat_succ (n : Nat) : Int32.ofNat (n + 1) = Int32.ofNat n + 1 := by
  rw [Int32.ofNat_add]
  rfl

theorem CountInv.timer {p : Fin NPROC} {x : Proc} (h : CountInv s) (hs : SlotTree s.sys)
    (hp : (s.sys.proc p).state = .RUNNING) (hcpu : x.cputime = (s.sys.proc p).cputime + 1) :
    CountInv { s with
      sys := s.sys.set p x
      taken := update s.taken (s.sys.uid p) (s.taken (s.sys.uid p) + 1) } := by
  have hused : (s.sys.proc p).state ≠ .UNUSED := by
    rw [hp]
    simp
  refine ⟨fun k hk => ?_, fun u hu => ?_, h.reaped, fun r hr => ?_⟩
  · dsimp only at hk ⊢
    by_cases hkp : k = p
    · subst hkp
      show ((s.sys.set k x).proc k).cputime = _
      rw [ProcSys.set_self, hcpu, h.count k hused]
      show _ = Int32.ofNat (update s.taken (s.sys.uid k) _ (s.sys.uid k))
      rw [update_self, ofNat_succ]
    · rw [ProcSys.set_of_ne _ hkp] at hk ⊢
      -- the interrupt is counted for nobody else
      have huid : s.sys.uid k ≠ s.sys.uid p := fun heq => hkp (hs.hist.inj k p hk hused heq)
      show _ = Int32.ofNat (update s.taken (s.sys.uid p) _ (s.sys.uid k))
      rw [update_of_ne huid]
      exact h.count k hk
  · have hlt := hs.tree.fresh p hused
    have hu' : s.sys.nextUid ≤ u := hu
    have hne : u ≠ s.sys.uid p := by omega
    show update s.taken _ _ u = 0
    rw [update_of_ne hne]
    exact h.fresh u hu
  · have hne : r.1 ≠ s.sys.uid p := by
      intro heq
      exact hs.hist.unreaped p hused (heq ▸ h.reaped r hr)
    show _ = Int32.ofNat (update s.taken _ _ r.1)
    rw [update_of_ne hne]
    exact h.report r hr

theorem CountInv.step {l : SlotLabel} (h : CountInv s) (hs : SlotTree s.sys)
    (hl : CountsOnce s l) (hstep : SlotStep s l s') : CountInv s' := by
  cases hstep with
  | quiet t _ hq =>
    refine h.same hq.uid hq.nextUid hq.reaps rfl rfl fun k hk => ⟨fun hu => ?_, hq.cputime k⟩
    exact hk ((hq.unused k).mpr hu)
  | files | forkSkip | forkNone | exit => exact h.same rfl rfl rfl rfl rfl fun k hk => ⟨hk, rfl⟩
  | setpriority p v hp =>
    exact h.same rfl rfl rfl rfl rfl (forall_update fun hk => ⟨hk, rfl⟩)
  | kill i =>
    have hkept := (hs.tree.touch_kill i).kept
    refine h.same rfl rfl rfl rfl rfl (forall_update fun hk => ⟨fun hu => ?_, rfl⟩)
    exact hk (hkept.unused.mpr hu)
  -- a killed process would exit before it is counted, which the condition rules out
  | timer user p hp _ _ =>
    have hcount : timerTrap user (s.sys.proc p) =
        { s.sys.proc p with cputime := (s.sys.proc p).cputime + 1 } := by
      refine if_neg ?_
      rintro ⟨huser, hkilled⟩
      rw [hl huser] at hkilled
      cases hkilled
    rw [hcount]
    exact h.timer hs hp rfl
  | clear p i _ =>
    exact h.same rfl rfl rfl rfl rfl (forall_update fun hk => ⟨hk, Eq.symm hl⟩)
  | forkFail p i hp hi _ =>
    exact h.same rfl rfl rfl rfl rfl (forall_update fun hk => absurd rfl hk)
  | forkAlloc p i hp hi _ =>
    have hnext : s.taken s.sys.nextUid = 0 := h.fresh _ (Nat.le_refl _)
    refine ⟨fun k hk => ?_, fun u hu => ?_, h.reaped, h.report⟩
    · dsimp only at hk ⊢
      by_cases hki : k = i
      · subst hki
        simp only [ProcSys.goto, ProcSys.set, update_self, hnext]
        exact hl
      · simp only [ProcSys.goto, ProcSys.set, update_of_ne hki] at hk ⊢
        exact h.count k hk
    · have hu' : s.sys.nextUid + 1 ≤ u := hu
      exact h.fresh u (by omega)
  | reap p i call hk hp hi hz =>
    have hused : (s.sys.proc i).state ≠ .UNUSED := by
      rw [hz]
      simp
    have hcount := h.count i hused
    refine ⟨fun k hk => ?_, h.fresh, fun r hr => ?_, fun r hr => ?_⟩
    · obtain ⟨hk', hcpu⟩ := forall_update (fun hx => absurd rfl hx) k hk
      exact hcpu.trans (h.count k hk')
    · simp only [map_append, mem_append, map_cons, map_nil,
        mem_singleton]
      dsimp only at hr
      split at hr
      · rcases mem_append.mp hr with hold | hnew
        · exact .inl (h.reaped r hold)
        · rw [mem_singleton.mp hnew]
          exact .inr rfl
      · exact .inl (h.reaped r hr)
    · dsimp only at hr
      split at hr
      · rcases mem_append.mp hr with hold | hnew
        · exact h.report r hold
        · rw [mem_singleton.mp hnew]
          exact hcount
      · exact h.report r hr

end Steps

theorem countInv_of_reachable {s : SlotSys}
    (h : Reachable (slotMachine.restrict CountsOnce) s) : CountInv s :=
  h.invariant (fun _ hinit => hinit ▸ countInv_boot) fun _ _ _ hs hi hstep =>
    hi.step (slotTree_of_reachable hs.of_restrict) hstep.1 hstep.2

/-- **CPU accounting.** In every run in which `allocproc` neither passes nor takes an entry with a
count in it and no killed process takes a timer interrupt in `usertrap`, `wait2` reports the
timer interrupts the child has taken, from its `fork` to its `exit`. -/
theorem wait2_reports_cputime {s : SlotSys} (h : Reachable (slotMachine.restrict CountsOnce) s) :
    ∀ r ∈ s.reports, r.2 = Int32.ofNat (s.taken r.1) :=
  (countInv_of_reachable h).report

/-! ## Runs of a child that takes one timer interrupt -/

section Run

variable {C : SlotSys → SlotLabel → Prop} {s : SlotSys} {t : ProcSys} {p : Fin NPROC}

theorem ProcSys.goto_goto (s : ProcSys) (p : Fin NPROC) (a b : Pc) :
    (s.goto p a).goto p b = s.goto p b := by
  unfold ProcSys.goto
  rw [update_idem]

theorem reachable_quiet (hC : ∀ s, C s .quiet)
    (h : Reachable (slotMachine.restrict C) s) (hstep : ProcStep s.sys t)
    (hquiet : Quiet s.sys t) : Reachable (slotMachine.restrict C) { s with sys := t } :=
  h.next ⟨hC s, .quiet t hstep hquiet⟩

theorem reachable_loop (hC : ∀ s, C s .quiet) (f : Nat → Pc) (hf : ∀ n, (f n).exitStatus ≠ none)
    (hrun : (t.proc p).state = .RUNNING) (hstep : ∀ i : Fin NPROC, (t.goto p (f i)).At p (f i) →
      ProcStep (t.goto p (f i)) (t.goto p (f (i + 1))))
    (h : Reachable (slotMachine.restrict C) { s with sys := t.goto p (f 0) }) :
    ∀ n ≤ NPROC, Reachable (slotMachine.restrict C) { s with sys := t.goto p (f n) } := by
  intro n
  induction n with
  | zero => exact fun _ => h
  | succ n ih =>
    intro hn
    have hat : (t.goto p (f n)).At p (f n) := ⟨hrun, ProcSys.goto_self ..⟩
    have hscan : ∀ m, f n ≠ .forkScan m := by
      intro m heq
      exact hf n (by rw [heq]; rfl)
    have hquiet : Quiet (t.goto p (f n)) (t.goto p (f (n + 1))) := by
      have := (Quiet.refl (t.goto p (f n))).goto (b := f (n + 1)) (l := t.waitLock) hat hscan
        fun _ => hf n
      rw [ProcSys.goto_goto] at this
      exact this
    exact reachable_quiet (s := { s with sys := t.goto p (f n) }) hC (ih (by omega))
      (hstep ⟨n, hn⟩ hat) hquiet

/-- `exit` in a process without children, when nobody sleeps. -/
def SlotSys.exited (s : SlotSys) (p : Fin NPROC) (status : Int32) : SlotSys :=
  { s with
    sys := { (s.sys.set p { s.sys.proc p with xstate := status, state := .ZOMBIE }).goto p .user with
      waitLock := none
      exits := s.sys.exits ++ [(s.sys.uid p, status)] }
    ofile := update s.ofile p fun _ => none
    cwd := update s.cwd p none }

theorem reachable_exited (status : Int32) (hC : ∀ s, C s .quiet ∧ C s .exit)
    (h : Reachable (slotMachine.restrict C) s) (hp : s.sys.At p .user) (hinit : p ≠ initproc)
    (hlock : s.sys.waitLock = none) (hkids : ∀ i, (s.sys.proc i).parent ≠ some p)
    (hawake : ∀ i, (s.sys.proc i).state ≠ .SLEEPING) :
    Reachable (slotMachine.restrict C) (s.exited p status) := by
  have hC' : ∀ s, C s .quiet := fun s => (hC s).1
  -- `exit` holds `wait_lock` in both loops
  let base : ProcSys :=
    { s.sys with waitLock := some p, exits := s.sys.exits ++ [(s.sys.uid p, status)] }
  let frame : SlotSys :=
    { s with
      ofile := update s.ofile p fun _ => none
      cwd := update s.cwd p none }
  have hat : ∀ a, (base.goto p a).At p a := fun a => ⟨hp.running, ProcSys.goto_self ..⟩
  have h1 : Reachable (slotMachine.restrict C)
      { frame with sys := base.goto p (.exitReparent status 0) } :=
    h.next ⟨(hC _).2, .exit p status hp hinit hlock⟩
  have h2 := reachable_loop (s := frame) (t := base) hC' (fun n => .exitReparent status n) (by simp [Pc.exitStatus])
    hp.running (fun i hi => by
      have hstep := ProcStep.reparentSkip p i status hi (hkids i)
      rw [ProcSys.goto_goto] at hstep
      exact hstep) h1 NPROC (Nat.le_refl _)
  have h3 := reachable_quiet (s := { frame with sys := _ }) hC' h2 (.reparentDone p status (hat _))
    ((Quiet.refl _).goto (l := some p) (hat _) (by simp) (by simp [Pc.exitStatus]))
  dsimp only at h3
  rw [ProcSys.goto_goto] at h3
  have h4 := reachable_loop (s := frame) (t := base) hC' (fun n => .exitWakeup status n) (by simp [Pc.exitStatus])
    hp.running (fun i hi => by
      have hstep := ProcStep.exitWakeup p i status 0 hi
      have hnone : ∀ chan, wakeupProc p chan 0 i ((base.goto p (.exitWakeup status i)).proc i) =
          (base.goto p (.exitWakeup status i)).proc i :=
        fun chan => if_neg fun hsleep => hawake i hsleep.2.1
      rw [hnone, ProcSys.set_eq, ProcSys.goto_goto] at hstep
      exact hstep) h3 NPROC (Nat.le_refl _)
  have hgone : Gone (base.goto p (.exitWakeup status NPROC)) p :=
    .inr (by rw [(hat _).pc]; simp [Pc.exitStatus])
  have hzombie : Quiet (base.goto p (.exitWakeup status NPROC))
      ((base.goto p (.exitWakeup status NPROC)).set p
        { base.proc p with xstate := status, state := .ZOMBIE }) :=
    .set (by rw [(hat _).running]; simp) (by simp) (fun _ => hgone) rfl
  have h5 := reachable_quiet (s := { frame with sys := _ }) hC' h4 (.exitZombie p status (hat _))
    (hzombie.goto (l := none) (hat _) (by simp) (by simp [Pc.exitStatus]))
  have hend : ∀ x, (((base.goto p (.exitWakeup status NPROC)).set p x).goto p .user) =
      (base.set p x).goto p .user := fun x => ProcSys.goto_goto (base.set p x) p _ _
  dsimp only at h5
  rw [hend] at h5
  exact h5

theorem reachable_reaped (hC : ∀ s, C s .quiet ∧ C s (.reap 1))
    (h : Reachable (slotMachine.restrict C) s) (hp : s.sys.At initproc .user)
    (hlock : s.sys.waitLock = none) (hroot : (s.sys.proc initproc).parent = none)
    (hchild : (s.sys.proc 1).parent = some initproc) (hz : (s.sys.proc 1).state = .ZOMBIE) :
    ∃ s', Reachable (slotMachine.restrict C) s' ∧ s'.taken = s.taken ∧
      s'.reports = s.reports ++ [(s.sys.uid 1, (s.sys.proc 1).cputime)] := by
  let call := WaitCall.wait2 true true
  have h1 := reachable_quiet (fun s => (hC s).1) h (.wait initproc call hp hlock)
    ((Quiet.refl _).goto hp (by simp) (by simp [Pc.exitStatus]))
  have hat : ∀ (t : ProcSys) a, (t.proc initproc).state = .RUNNING →
      (t.goto initproc a).At initproc a := fun t a hrun => ⟨hrun, ProcSys.goto_self ..⟩
  have hscan0 := hat { s.sys with waitLock := some initproc } (.waitScan call 0 false) hp.running
  have h2 := reachable_quiet (fun s => (hC s).1) h1
    (.waitOther initproc initproc call false hscan0 (by
      show (s.sys.proc initproc).parent ≠ _
      rw [hroot]
      simp))
    ((Quiet.refl _).goto (l := some initproc) hscan0 (by simp) (by simp [Pc.exitStatus]))
  have hscan1 := hat ({ s.sys with waitLock := some initproc }.goto initproc
    (.waitScan call 0 false)) (.waitScan call 1 false) hp.running
  have h3 := h2.next ⟨(hC _).2, .reap initproc 1 call false hscan1 hchild hz⟩
  exact ⟨_, h3, rfl, rfl⟩

end Run

/-- The first process has forked a child, which runs on another CPU. -/
def childRuns : SlotSys :=
  let s₀ := initRuns.initScans
  let s₁ : ProcSys :=
    { (s₀.sys.set 1 { s₀.sys.proc 1 with pid := s₀.sys.nextpid, state := .USED }).goto initproc
        (.forkLink 1) with
      nextpid := s₀.sys.nextpid + 1
      uid := update s₀.sys.uid 1 s₀.sys.nextUid
      nextUid := s₀.sys.nextUid + 1
      pidOf := update s₀.sys.pidOf s₀.sys.nextUid s₀.sys.nextpid }
  let s₂ := (s₁.set 1 { s₁.proc 1 with parent := some initproc }).goto initproc (.forkRun 1)
  let s₃ := (s₂.set 1 { s₂.proc 1 with state := .RUNNABLE }).goto initproc .user
  { s₀ with
    sys := s₃.set 1 { s₃.proc 1 with state := .RUNNING, chan := .null }
    ofile := update s₀.ofile 1 (forkFiles (s₀.ofile initproc) (s₀.ofile 1))
    cwd := update s₀.cwd 1 (s₀.cwd initproc) }

def childTicked : SlotSys :=
  { childRuns with
    sys := childRuns.sys.set 1 (timerTrap true (childRuns.sys.proc 1))
    taken := update childRuns.taken (childRuns.sys.uid 1)
      (childRuns.taken (childRuns.sys.uid 1) + 1) }

theorem reachable_childTicked : Reachable (slotMachine.restrict CountsOnce) childTicked := by
  have hC : ∀ s, CountsOnce s .quiet := fun _ => trivial
  have h0 := reachable_initScans (reachable_initRuns hC) ⟨rfl, rfl⟩ rfl
    (fun _ => ⟨trivial, trivial⟩) (fun _ h => h) rfl
  have h1 := h0.next ⟨show CountsOnce _ (.forkAlloc initproc 1) from rfl,
    .forkAlloc initproc 1 ⟨rfl, rfl⟩ rfl rfl⟩
  have h2 := reachable_quiet hC h1 (.forkLink initproc 1 ⟨rfl, rfl⟩ rfl)
    (.forkLink (slotTree_of_reachable h1.of_restrict).tree ⟨rfl, rfl⟩)
  have h3 := reachable_quiet hC h2 (.forkRun initproc 1 ⟨rfl, rfl⟩)
    (.forkRun (slotTree_of_reachable h2.of_restrict).tree ⟨rfl, rfl⟩)
  have h4 := reachable_quiet hC h3 (.sched 1 rfl) (.sched rfl)
  exact h4.next (l := .timer true 1) ⟨fun _ => rfl, .timer true 1 rfl (by decide) fun _ => rfl⟩

theorem childTicked_orphans (i : Fin NPROC) : (childTicked.sys.proc i).parent ≠ some 1 := by
  revert i
  decide

theorem childTicked_awake (i : Fin NPROC) : (childTicked.sys.proc i).state ≠ .SLEEPING := by
  revert i
  decide

/-- The child exits and is reaped: one interrupt taken, one reported. -/
theorem wait2_reports_cputime_one :
    ∃ s, Reachable (slotMachine.restrict CountsOnce) s ∧ (1, 1) ∈ s.reports ∧
      (1 : Int32) = Int32.ofNat (s.taken 1) := by
  have h1 := reachable_exited 0 (fun _ => ⟨trivial, trivial⟩) reachable_childTicked
    (p := 1) ⟨rfl, rfl⟩ (by decide) rfl childTicked_orphans childTicked_awake
  obtain ⟨s, hs, -, hreports⟩ := reachable_reaped (fun _ => ⟨trivial, trivial⟩) h1 ⟨rfl, rfl⟩ rfl
    rfl rfl rfl
  have hmem : (1, 1) ∈ s.reports := by
    rw [hreports]
    decide
  exact ⟨s, hs, hmem, wait2_reports_cputime hs (1, 1) hmem⟩

/-- The first process forks once more, without success, before the child exits: the scan of
`allocproc` clears the count on its way, and `wait2` reports 0. -/
theorem wait2_reports_zero :
    ∃ s, Reachable slotMachine s ∧ (1, 0) ∈ s.reports ∧ s.taken 1 = 1 := by
  have h0 : Reachable (slotMachine.restrict fun _ _ => True) childTicked :=
    reachable_childTicked.restrict_mono fun _ _ _ => trivial
  have h1 := reachable_initScans h0 ⟨rfl, rfl⟩ rfl (fun _ => ⟨trivial, trivial⟩)
    (fun _ _ => trivial) rfl
  have h2 := h1.next ⟨trivial, .forkSkip initproc 1 ⟨rfl, rfl⟩ (by decide) rfl⟩
  have h3 := h2.next ⟨trivial, .clear initproc 1 rfl⟩
  have h4 := h3.next ⟨trivial, .forkFail initproc 2 ⟨rfl, rfl⟩ rfl rfl⟩
  have h5 := reachable_exited 0 (fun _ => ⟨trivial, trivial⟩) h4 (p := 1) ⟨rfl, rfl⟩ (by decide) rfl
    (by decide) (by decide)
  obtain ⟨s, hs, htaken, hreports⟩ := reachable_reaped (fun _ => ⟨trivial, trivial⟩) h5 ⟨rfl, rfl⟩
    rfl rfl rfl rfl
  refine ⟨s, hs.of_restrict, ?_, ?_⟩
  · rw [hreports]
    decide
  · rw [htaken]
    rfl

end Xv6
