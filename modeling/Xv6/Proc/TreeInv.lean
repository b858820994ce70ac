import Xv6.Proc.Tree

/-!
# The process tree

What holds of `wait_lock`, of the parent links and of entries that `fork` has not finished with,
in every state of the life cycle.

Every critical section moves one process on (`TreeInv.moveTo`) and changes at most one entry of the
table: it touches an entry without changing what it is (`Touch`), or it allocates, links, starts,
reparents, kills off or frees one. There is one lemma for each.
-/

namespace Xv6

open Function

def ProcState.alive : ProcState → Bool
  | .SLEEPING | .RUNNABLE | .RUNNING => true
  | .UNUSED | .USED | .ZOMBIE => false

namespace Pc

/-- The process holds `wait_lock` between steps. -/
def holds : Pc → Bool
  | .exitReparent .. | .exitReparentWake .. | .exitWakeup .. | .waitScan .. => true
  | .user | .forkScan _ | .forkLink _ | .forkRun _ | .waitSleep _ => false

def exitStatus : Pc → Option Int32
  | .exitReparent status _ | .exitReparentWake status _ _ | .exitWakeup status _ => some status
  | .user | .forkScan _ | .forkLink _ | .forkRun _ | .waitScan .. | .waitSleep _ => none

/-- The entry `fork` has allocated and not started yet. -/
def newborn : Pc → Option (Fin NPROC)
  | .forkLink np | .forkRun np => some np
  | .user | .forkScan _ | .exitReparent .. | .exitReparentWake .. | .exitWakeup .. | .waitScan ..
  | .waitSleep _ => none

def passed : Pc → Nat
  | .exitReparent _ i => i
  | .exitReparentWake _ i _ => i + 1
  | .exitWakeup .. => NPROC
  | .user | .forkScan _ | .forkLink _ | .forkRun _ | .waitScan .. | .waitSleep _ => 0

end Pc

namespace ProcSys

variable (s : ProcSys) {i k : Fin NPROC}

theorem set_self (i : Fin NPROC) (x : Proc) : (s.set i x).proc i = x :=
  update_self ..

theorem set_of_ne (hk : k ≠ i) (x : Proc) : (s.set i x).proc k = s.proc k :=
  update_of_ne hk ..

theorem goto_self (i : Fin NPROC) (b : Pc) : (s.goto i b).pc i = b :=
  update_self ..

theorem goto_of_ne (hk : k ≠ i) (b : Pc) : (s.goto i b).pc k = s.pc k :=
  update_of_ne hk ..

theorem set_all {x : Proc} {P : Fin NPROC → Proc → Prop} (hx : P i x) (h : ∀ k, P k (s.proc k))
    (k : Fin NPROC) : P k ((s.set i x).proc k) :=
  (forall_update_iff s.proc P).mpr ⟨hx, fun k _ => h k⟩ k

theorem goto_all {b : Pc} {P : Fin NPROC → Pc → Prop} (hb : P i b) (h : ∀ k, P k (s.pc k))
    (k : Fin NPROC) : P k ((s.goto i b).pc k) :=
  (forall_update_iff s.pc P).mpr ⟨hb, fun k _ => h k⟩ k

end ProcSys

/-- `wait_lock` is held exactly by the process inside a `wait_lock` critical section; a parent is
alive and older than its children; `exit` has no children left among the entries `reparent` has
passed. -/
structure TreeInv (s : ProcSys) : Prop where
  lock : ∀ p, s.waitLock = some p ↔ (s.pc p).holds = true
  holder : ∀ p, (s.pc p).holds = true → (s.proc p).state = .RUNNING
  busy : ∀ p, s.pc p ≠ .user → (s.proc p).state.alive = true
  initAlive : (s.proc initproc).state.alive = true
  initStays : (s.pc initproc).exitStatus = none
  root : (s.proc initproc).parent = none
  link : ∀ p np, s.pc p = .forkLink np → (s.proc np).state = .USED ∧ (s.proc np).parent = none
  run : ∀ p np, s.pc p = .forkRun np → (s.proc np).state = .USED ∧ (s.proc np).parent = some p
  owner : ∀ p q np, (s.pc p).newborn = some np → (s.pc q).newborn = some np → p = q
  younger : ∀ p np, (s.pc p).newborn = some np → s.uid p < s.uid np
  parent : ∀ i p, (s.proc i).parent = some p → (s.proc p).state.alive = true ∧ s.uid p < s.uid i
  left : ∀ i, i ≠ initproc → (s.proc i).state.alive = true ∨ (s.proc i).state = .ZOMBIE →
    (s.proc i).parent ≠ none
  unused : ∀ i, (s.proc i).state = .UNUSED → (s.proc i).parent = none
  fresh : ∀ i, (s.proc i).state ≠ .UNUSED → s.uid i < s.nextUid
  eldest : ∀ i, i ≠ initproc → (s.proc i).state ≠ .UNUSED → s.uid initproc < s.uid i
  reparented : ∀ p (k : Fin NPROC), k.val < (s.pc p).passed → (s.proc k).parent ≠ some p

theorem treeInv_boot : TreeInv bootProcs where
  lock := by simp [bootProcs, Pc.holds]
  holder := by simp [bootProcs, Pc.holds]
  busy := by simp [bootProcs]
  initAlive := rfl
  initStays := rfl
  root := rfl
  link := by simp [bootProcs]
  run := by simp [bootProcs]
  owner := by simp [bootProcs, Pc.newborn]
  younger := by simp [bootProcs, Pc.newborn]
  parent := by simp [bootProcs]
  left := by
    intro i hi hstate
    simp [bootProcs, hi, ProcState.alive] at hstate
  unused := fun _ _ => rfl
  fresh := fun _ _ => Nat.one_pos
  eldest := by
    intro i hi hstate
    simp [bootProcs, hi] at hstate
  reparented := by simp [bootProcs, Pc.passed]

section Changes

variable {s : ProcSys} {p i np : Fin NPROC} {b : Pc}

variable (h : TreeInv s)

include h

theorem TreeInv.newborn_used (hnp : (s.pc p).newborn = some np) :
    (s.proc np).state = .USED := by
  cases hpc : s.pc p with
  | forkLink k =>
    rw [hpc] at hnp
    cases hnp
    exact (h.link p _ hpc).1
  | forkRun k =>
    rw [hpc] at hnp
    cases hnp
    exact (h.run p _ hpc).1
  | _ => rw [hpc] at hnp; cases hnp

theorem TreeInv.idle (hdead : (s.proc i).state.alive = false) : s.pc i = .user := by
  by_contra hpc
  rw [h.busy i hpc] at hdead
  cases hdead

theorem TreeInv.ne_init (hdead : (s.proc i).state.alive = false) : i ≠ initproc := by
  rintro rfl
  rw [h.initAlive] at hdead
  cases hdead

theorem TreeInv.childless (hdead : (s.proc i).state.alive = false) (k : Fin NPROC) :
    (s.proc k).parent ≠ some i := by
  intro hk
  rw [(h.parent k i hk).1] at hdead
  cases hdead

theorem TreeInv.ne_init_of_exit (hp : (s.pc p).exitStatus ≠ none) : p ≠ initproc := by
  rintro rfl
  exact hp h.initStays

theorem TreeInv.known (hi : (s.proc i).state ≠ .UNUSED) :
    s.uid i < s.nextUid ∧ (i ≠ initproc → s.uid initproc < s.uid i) :=
  ⟨h.fresh i hi, fun hne => h.eldest i hne hi⟩

theorem TreeInv.parent_ok {q : Fin NPROC} (hi : (s.proc i).parent = some q) :
    (s.proc q).state.alive = true ∧ s.uid q < s.uid i ∧ (s.pc q).passed ≤ i.val := by
  obtain ⟨hq, hlt⟩ := h.parent i q hi
  exact ⟨hq, hlt, Nat.le_of_not_lt fun hk => h.reparented q i hk hi⟩

/-! ### Moving a process on -/

omit h

/-- What the point `b` promises when process `p` gets there. -/
structure Entry (s : ProcSys) (p : Fin NPROC) (b : Pc) : Prop where
  init : b.exitStatus ≠ none → p ≠ initproc
  link : ∀ np, b = .forkLink np → (s.proc np).state = .USED ∧ (s.proc np).parent = none
  run : ∀ np, b = .forkRun np → (s.proc np).state = .USED ∧ (s.proc np).parent = some p
  owner : ∀ np q, b.newborn = some np → (s.pc q).newborn = some np → q = p
  younger : ∀ np, b.newborn = some np → s.uid p < s.uid np
  passed : ∀ k : Fin NPROC, k.val < b.passed → (s.proc k).parent ≠ some p

theorem Entry.plain (hexit : b.exitStatus = none) (hborn : b.newborn = none) (hpassed : b.passed = 0) :
    Entry s p b where
  init := fun hne => absurd hexit hne
  link := by rintro np rfl; cases hborn
  run := by rintro np rfl; cases hborn
  owner := by simp [hborn]
  younger := by simp [hborn]
  passed := by simp [hpassed]

theorem TreeInv.moveTo {l : Option (Fin NPROC)} (h : TreeInv s) (hrun : (s.proc p).state = .RUNNING)
    (hb : Entry s p b) (hlock : ∀ q, l = some q ↔ ((s.goto p b).pc q).holds = true) :
    TreeInv { s.goto p b with waitLock := l } :=
  { h with
    lock := hlock
    holder := s.goto_all (P := fun q c => c.holds = true → (s.proc q).state = .RUNNING)
      (fun _ => hrun) h.holder
    busy := s.goto_all (P := fun q c => c ≠ .user → (s.proc q).state.alive = true)
      (fun _ => by rw [hrun]; rfl) h.busy
    initStays := s.goto_all (P := fun q c => q = initproc → c.exitStatus = none)
      (fun hp => by_contra fun hne => hb.init hne hp) (fun _ hq => hq ▸ h.initStays) initproc rfl
    link := s.goto_all (P := fun _ c => ∀ np, c = .forkLink np →
      (s.proc np).state = .USED ∧ (s.proc np).parent = none) hb.link h.link
    run := s.goto_all (P := fun q c => ∀ np, c = .forkRun np →
      (s.proc np).state = .USED ∧ (s.proc np).parent = some q) hb.run h.run
    owner := by
      intro q r np
      refine s.goto_all (P := fun q c => c.newborn = some np →
        ((s.goto p b).pc r).newborn = some np → q = r) (fun hp => ?_) (fun q hq => ?_) q
      · exact s.goto_all (P := fun r c => c.newborn = some np → p = r) (fun _ => rfl)
          (fun r hr => (hb.owner np r hp hr).symm) r
      · exact s.goto_all (P := fun r c => c.newborn = some np → q = r)
          (fun hp => hb.owner np q hp hq) (fun r hr => h.owner q r np hq hr) r
    younger := s.goto_all (P := fun q c => ∀ np, c.newborn = some np → s.uid q < s.uid np)
      hb.younger h.younger
    reparented := s.goto_all (P := fun q c => ∀ k : Fin NPROC, k.val < c.passed →
      (s.proc k).parent ≠ some q) hb.passed h.reparented }

theorem TreeInv.stay (h : TreeInv s) (hrun : (s.proc p).state = .RUNNING) (hb : Entry s p b)
    (hholds : b.holds = (s.pc p).holds) : TreeInv (s.goto p b) := by
  refine h.moveTo (l := s.waitLock) hrun hb fun q => ?_
  by_cases hqp : q = p
  · rw [hqp, ProcSys.goto_self, hholds]
    exact h.lock p
  · rw [ProcSys.goto_of_ne s hqp]
    exact h.lock q

theorem TreeInv.acquire (h : TreeInv s) (hrun : (s.proc p).state = .RUNNING) (hb : Entry s p b)
    (hfree : s.waitLock = none) (hholds : b.holds = true) :
    TreeInv { s.goto p b with waitLock := some p } := by
  refine h.moveTo hrun hb fun q => ?_
  by_cases hqp : q = p
  · rw [hqp, ProcSys.goto_self, hholds]
    simp
  · rw [ProcSys.goto_of_ne s hqp, ← h.lock q, hfree]
    simp [Ne.symm hqp]

theorem TreeInv.release (h : TreeInv s) (hrun : (s.proc p).state = .RUNNING) (hb : Entry s p b)
    (hheld : (s.pc p).holds = true) (hholds : b.holds = false) :
    TreeInv { s.goto p b with waitLock := none } := by
  refine h.moveTo hrun hb fun q => ?_
  by_cases hqp : q = p
  · rw [hqp, ProcSys.goto_self, hholds]
    simp
  · rw [ProcSys.goto_of_ne s hqp, ← h.lock q, (h.lock p).mpr hheld]
    simp [Ne.symm hqp]

/-! ### Changing an entry -/

structure EntryOk (s : ProcSys) (i : Fin NPROC) (x : Proc) : Prop where
  holder : (s.pc i).holds = true → x.state = .RUNNING
  busy : s.pc i ≠ .user → x.state.alive = true
  init : i = initproc → x.state.alive = true ∧ x.parent = none
  born : ∀ q, (s.pc q).newborn = some i → x.state = .USED ∧ x.parent = (s.proc i).parent
  children : ∀ k, (s.proc k).parent = some i → x.state.alive = true
  parent : ∀ q, x.parent = some q →
    (s.proc q).state.alive = true ∧ s.uid q < s.uid i ∧ (s.pc q).passed ≤ i.val
  left : i ≠ initproc → x.state.alive = true ∨ x.state = .ZOMBIE → x.parent ≠ none
  unused : x.state = .UNUSED → x.parent = none
  fresh : x.state ≠ .UNUSED → s.uid i < s.nextUid ∧ (i ≠ initproc → s.uid initproc < s.uid i)

variable {x : Proc}

theorem TreeInv.set (h : TreeInv s) (hx : EntryOk s i x) : TreeInv (s.set i x) :=
  { h with
    holder := s.set_all (P := fun q y => (s.pc q).holds = true → y.state = .RUNNING)
      hx.holder h.holder
    busy := s.set_all (P := fun q y => s.pc q ≠ .user → y.state.alive = true) hx.busy h.busy
    initAlive := s.set_all (P := fun q y => q = initproc → y.state.alive = true)
      (fun hi => (hx.init hi).1) (fun _ hq => hq ▸ h.initAlive) initproc rfl
    root := s.set_all (P := fun q y => q = initproc → y.parent = none)
      (fun hi => (hx.init hi).2) (fun _ hq => hq ▸ h.root) initproc rfl
    link := by
      intro q
      refine s.set_all (P := fun k y => s.pc q = .forkLink k → y.state = .USED ∧ y.parent = none)
        (fun hq => ?_) (h.link q)
      obtain ⟨hused, hsame⟩ := hx.born q (by rw [hq]; rfl)
      exact ⟨hused, hsame.trans (h.link q i hq).2⟩
    run := by
      intro q
      refine s.set_all (P := fun k y => s.pc q = .forkRun k → y.state = .USED ∧ y.parent = some q)
        (fun hq => ?_) (h.run q)
      obtain ⟨hused, hsame⟩ := hx.born q (by rw [hq]; rfl)
      exact ⟨hused, hsame.trans (h.run q i hq).2⟩
    parent := by
      intro k q
      -- the parent is alive before the change, and if it is the entry itself, after it
      have halive : (s.proc q).state.alive = true → (q = i → x.state.alive = true) →
          ((s.set i x).proc q).state.alive = true :=
        s.set_all (P := fun q y => (s.proc q).state.alive = true → (q = i → x.state.alive = true) →
          y.state.alive = true) (fun _ hi => hi rfl) (fun _ hq _ => hq) q
      refine s.set_all (P := fun k y => y.parent = some q → ((s.set i x).proc q).state.alive = true ∧
        s.uid q < s.uid k) (fun hk => ?_) (fun k hk => ?_) k
      · obtain ⟨hq, hlt, -⟩ := hx.parent q hk
        exact ⟨halive hq fun hqi => absurd (hqi ▸ hlt) (lt_irrefl _), hlt⟩
      · obtain ⟨hq, hlt⟩ := h.parent k q hk
        exact ⟨halive hq fun hqi => hx.children k (hqi ▸ hk), hlt⟩
    left := s.set_all (P := fun k y => k ≠ initproc → y.state.alive = true ∨ y.state = .ZOMBIE →
      y.parent ≠ none) hx.left h.left
    unused := s.set_all (P := fun _ y => y.state = .UNUSED → y.parent = none) hx.unused h.unused
    fresh := s.set_all (P := fun k y => y.state ≠ .UNUSED → s.uid k < s.nextUid)
      (fun hi => (hx.fresh hi).1) h.fresh
    eldest := s.set_all (P := fun k y => k ≠ initproc → y.state ≠ .UNUSED →
      s.uid initproc < s.uid k) (fun hne hi => (hx.fresh hi).2 hne) h.eldest
    reparented := fun q => s.set_all (P := fun k y => k.val < (s.pc q).passed → y.parent ≠ some q)
      (fun hk hi => absurd hk (Nat.not_lt.mpr (hx.parent q hi).2.2)) (h.reparented q) }

theorem TreeInv.setDead (h : TreeInv s) (hdead : (s.proc i).state.alive = false)
    (hborn : ∀ q, (s.pc q).newborn ≠ some i) (hparent : ∀ q, x.parent = some q →
      (s.proc q).state.alive = true ∧ s.uid q < s.uid i ∧ (s.pc q).passed ≤ i.val)
    (hleft : x.state.alive = true ∨ x.state = .ZOMBIE → x.parent ≠ none)
    (hunused : x.state = .UNUSED → x.parent = none) (hfresh : x.state ≠ .UNUSED →
      s.uid i < s.nextUid ∧ (i ≠ initproc → s.uid initproc < s.uid i)) : TreeInv (s.set i x) := by
  have hidle := h.idle hdead
  refine h.set ⟨fun hpc => ?_, fun hpc => absurd hidle hpc, fun hi => absurd hi (h.ne_init hdead),
    fun q hq => absurd hq (hborn q), fun k hk => absurd hk (h.childless hdead k), hparent,
    fun _ => hleft, hunused, hfresh⟩
  rw [hidle] at hpc
  cases hpc

/-- A change that leaves an entry what it is: alive or not, of the same parent. -/
structure Touch (s : ProcSys) (i : Fin NPROC) (x : Proc) : Prop where
  parent : x.parent = (s.proc i).parent
  pid : x.pid = (s.proc i).pid
  xstate : x.xstate = (s.proc i).xstate
  state : x.state = (s.proc i).state ∨ (s.proc i).state.alive = true ∧ x.state.alive = true
  running : (s.pc i).holds = true → x.state = .RUNNING

theorem Touch.alive (ht : Touch s i x) (h : (s.proc i).state.alive = true) :
    x.state.alive = true := by
  rcases ht.state with heq | ⟨-, hx⟩
  · rw [heq]
    exact h
  · exact hx

theorem Touch.same (ht : Touch s i x) (h : x.state.alive = false) : x.state = (s.proc i).state := by
  rcases ht.state with heq | ⟨-, hx⟩
  · exact heq
  · rw [h] at hx
    cases hx

theorem Touch.same' (ht : Touch s i x) (h : (s.proc i).state.alive = false) :
    x.state = (s.proc i).state := by
  rcases ht.state with heq | ⟨hx, -⟩
  · exact heq
  · rw [h] at hx
    cases hx

theorem TreeInv.touch (h : TreeInv s) (ht : Touch s i x) : TreeInv (s.set i x) := by
  refine h.set ?_
  constructor
  case holder => exact ht.running
  case busy => exact fun hpc => ht.alive (h.busy i hpc)
  case init =>
    rintro rfl
    exact ⟨ht.alive h.initAlive, ht.parent.trans h.root⟩
  case born =>
    intro q hq
    have hused := h.newborn_used hq
    exact ⟨(ht.same' (by rw [hused]; rfl)).trans hused, ht.parent⟩
  case children => exact fun k hk => ht.alive (h.parent k i hk).1
  case parent => exact fun q hq => h.parent_ok (ht.parent ▸ hq)
  case left =>
    intro hi hstate
    rw [ht.parent]
    refine h.left i hi ?_
    rcases ht.state with heq | ⟨hold, -⟩
    · rw [heq] at hstate
      exact hstate
    · exact .inl hold
  case unused =>
    intro hstate
    rw [ht.parent]
    exact h.unused i ((ht.same (by rw [hstate]; rfl)).symm.trans hstate)
  case fresh =>
    exact fun hstate => h.known fun hold => hstate ((ht.same' (by rw [hold]; rfl)).trans hold)

theorem TreeInv.alloc (h : TreeInv s) (nextpid : Int32) (pidOf : Nat → Int32)
    (hunused : (s.proc i).state = .UNUSED) (hx : x.state = .USED)
    (hparent : x.parent = (s.proc i).parent) :
    TreeInv { s.set i x with
      nextpid := nextpid
      uid := update s.uid i s.nextUid
      nextUid := s.nextUid + 1
      pidOf := pidOf } := by
  have hdead : (s.proc i).state.alive = false := by rw [hunused]; rfl
  have hinit := h.ne_init hdead
  have hborn : ∀ q, (s.pc q).newborn ≠ some i := by
    intro q hq
    rw [h.newborn_used hq] at hunused
    cases hunused
  have hinitFresh : s.uid initproc < s.nextUid := by
    refine h.fresh initproc fun hstate => ?_
    have := h.initAlive
    rw [hstate] at this
    cases this
  -- the new serial number, which only the entry has
  have huid : ∀ k, k ≠ i → update s.uid i s.nextUid k = s.uid k := fun k hk => update_of_ne hk ..
  have hset : TreeInv { s with
      uid := update s.uid i s.nextUid, nextUid := s.nextUid + 1 } := by
    refine { h with younger := ?_, parent := ?_, fresh := ?_, eldest := ?_ }
    · intro q np hq
      have hqi : q ≠ i := by
        rintro rfl
        rw [show s.pc q = .user from h.idle hdead] at hq
        cases hq
      show update s.uid i s.nextUid q < update s.uid i s.nextUid np
      rw [huid q hqi, huid np fun heq => hborn q (heq ▸ hq)]
      exact h.younger q np hq
    · intro k q hk
      obtain ⟨hqa, hlt⟩ := h.parent k q hk
      have hki : k ≠ i := by
        rintro rfl
        rw [show (s.proc k).parent = none from h.unused k hunused] at hk
        cases hk
      refine ⟨hqa, ?_⟩
      show update s.uid i s.nextUid q < update s.uid i s.nextUid k
      rwa [huid q fun heq => h.childless hdead k (heq ▸ hk), huid k hki]
    · exact (forall_update_iff s.uid fun k u => (s.proc k).state ≠ .UNUSED → u < s.nextUid + 1).mpr
        ⟨fun _ => Nat.lt_succ_self _, fun k _ hk => Nat.lt_succ_of_lt (h.fresh k hk)⟩
    · intro k hk hstate
      show update s.uid i s.nextUid initproc < update s.uid i s.nextUid k
      rw [huid _ hinit.symm]
      by_cases hki : k = i
      · rw [hki, update_self]
        exact hinitFresh
      · rw [huid k hki]
        exact h.eldest k hk hstate
  have hfinal := hset.setDead (x := x) hdead hborn
    (fun q hq => by rw [hparent, h.unused i hunused] at hq; cases hq)
    (fun hstate => by rw [hx] at hstate; rcases hstate with hstate | hstate <;> cases hstate)
    (fun hstate => by rw [hx] at hstate; cases hstate) fun _ => by
      show update s.uid i s.nextUid i < s.nextUid + 1 ∧ (i ≠ initproc →
        update s.uid i s.nextUid initproc < update s.uid i s.nextUid i)
      rw [update_self, huid _ hinit.symm]
      exact ⟨Nat.lt_succ_self _, fun _ => hinitFresh⟩
  exact { hfinal with }

/-! ### The touching steps -/

theorem TreeInv.not_holds (h : TreeInv s) (hlock : s.waitLock ≠ some p) :
    (s.pc p).holds = false := by
  by_contra hne
  exact hlock ((h.lock p).mpr (by simpa using hne))

/-- A process that holds `wait_lock` is running, so it is neither asleep nor waiting for a CPU. -/
theorem TreeInv.not_holds_of_state (h : TreeInv s) (hstate : (s.proc i).state ≠ .RUNNING) :
    (s.pc i).holds = false := by
  by_contra hne
  exact hstate (h.holder i (by simpa using hne))

theorem Touch.of_state (h : (s.pc i).holds = false) {t : ProcState}
    (hold : (s.proc i).state.alive = true) (hnew : t.alive = true)
    (hx : x.parent = (s.proc i).parent ∧ x.pid = (s.proc i).pid ∧
      x.xstate = (s.proc i).xstate ∧ x.state = t) : Touch s i x where
  parent := hx.1
  pid := hx.2.1
  xstate := hx.2.2.1
  state := .inr ⟨hold, by rw [hx.2.2.2]; exact hnew⟩
  running := fun hpc => by rw [h] at hpc; cases hpc

variable (h : TreeInv s)

include h

theorem TreeInv.touch_wakeup (chan : Chan) (now : UInt64) (p j : Fin NPROC) :
    Touch s j (wakeupProc p chan now j (s.proc j)) := by
  unfold wakeupProc
  split
  · rename_i hwake
    have hstate := hwake.2.1
    exact Touch.of_state (h.not_holds_of_state (by rw [hstate]; simp)) (t := .RUNNABLE)
      (by rw [hstate]; rfl) rfl ⟨rfl, rfl, rfl, rfl⟩
  · exact ⟨rfl, rfl, rfl, .inl rfl, h.holder j⟩

theorem TreeInv.touch_kill (i : Fin NPROC) : Touch s i (killProc (s.proc i)) := by
  by_cases hstate : (s.proc i).state = .SLEEPING
  · refine Touch.of_state (h.not_holds_of_state (by rw [hstate]; simp)) (t := .RUNNABLE)
      (by rw [hstate]; rfl) rfl ⟨rfl, rfl, rfl, ?_⟩
    simp [killProc, hstate]
  · have hsame : (killProc (s.proc i)).state = (s.proc i).state := by simp [killProc, hstate]
    exact ⟨rfl, rfl, rfl, .inl hsame, fun hpc => hsame.trans (h.holder i hpc)⟩

/-! ### `fork` -/

theorem TreeInv.forkAlloc (hp : s.At p (.forkScan i)) (hi : (s.proc i).state = .UNUSED) :
    TreeInv { (s.set i { s.proc i with pid := s.nextpid, state := .USED }).goto p (.forkLink i)
      with
      nextpid := s.nextpid + 1
      uid := update s.uid i s.nextUid
      nextUid := s.nextUid + 1
      pidOf := update s.pidOf s.nextUid s.nextpid } := by
  -- the entry is allocated first, and then `fork` moves on to link it
  have hpi : p ≠ i := fun heq => by
    rw [← heq, hp.running] at hi
    cases hi
  have h1 := h.alloc (x := { s.proc i with pid := s.nextpid, state := .USED })
    (s.nextpid + 1) (update s.pidOf s.nextUid s.nextpid) hi rfl rfl
  refine h1.stay (p := p) (b := .forkLink i) ?_ ?_ ?_
  · show ((s.set i _).proc p).state = .RUNNING
    rw [ProcSys.set_of_ne s hpi]
    exact hp.running
  · constructor
    case init => exact fun hne => absurd rfl hne
    case link =>
      rintro k ⟨⟩
      show ((s.set i _).proc i).state = .USED ∧ ((s.set i _).proc i).parent = none
      rw [ProcSys.set_self]
      exact ⟨rfl, h.unused i hi⟩
    case run => simp
    case owner =>
      rintro k q ⟨⟩ hq
      rw [h.newborn_used hq] at hi
      cases hi
    case younger =>
      rintro k ⟨⟩
      show update s.uid i s.nextUid p < update s.uid i s.nextUid i
      rw [update_self, update_of_ne hpi]
      exact h.fresh p (by rw [hp.running]; simp)
    case passed => simp [Pc.passed]
  · show false = (s.pc p).holds
    rw [hp.pc]
    rfl

theorem TreeInv.letGo {a : Pc} (hp : s.At p a) (hborn : a.newborn = some np) :
    TreeInv (s.goto p .user) ∧ (∀ q, ((s.goto p .user).pc q).newborn ≠ some np) ∧
      (s.proc np).state = .USED ∧ np ≠ p := by
  have hpnp : (s.pc p).newborn = some np := by rw [hp.pc, hborn]
  have hused := h.newborn_used hpnp
  refine ⟨h.stay hp.running (Entry.plain rfl rfl rfl) ?_, fun q hq => ?_, hused, fun heq => ?_⟩
  · rw [hp.pc]
    cases a with
    | forkLink | forkRun => rfl
    | _ => cases hborn
  · by_cases hqp : q = p
    · rw [hqp, ProcSys.goto_self] at hq
      cases hq
    · rw [ProcSys.goto_of_ne s hqp] at hq
      exact hqp (h.owner q p np hq hpnp)
  · rw [heq, hp.running] at hused
    cases hused

theorem TreeInv.forkLink (hp : s.At p (.forkLink np)) :
    TreeInv ((s.set np { s.proc np with parent := some p }).goto p (.forkRun np)) := by
  have hyounger := h.younger p np (by rw [hp.pc]; rfl)
  -- first let go of the newborn, then link it, then take it up again
  obtain ⟨h1, hfree, hused, hnp⟩ := h.letGo hp rfl
  have h2 : TreeInv ((s.goto p .user).set np { s.proc np with parent := some p }) := by
    refine h1.setDead (congrArg ProcState.alive hused) hfree ?_ (fun _ => by simp) (fun hstate => ?_)
      fun hne => h1.known hne
    · rintro q ⟨⟩
      rw [ProcSys.goto_self]
      exact ⟨by show (s.proc p).state.alive = true; rw [hp.running]; rfl, hyounger, Nat.zero_le _⟩
    · rw [show (s.proc np).state = .UNUSED from hstate] at hused
      cases hused
  have hpc : ((s.goto p .user).set np { s.proc np with parent := some p }).pc p = .user :=
    ProcSys.goto_self s p .user
  have h3 : TreeInv (((s.goto p .user).set np { s.proc np with parent := some p }).goto p
      (.forkRun np)) := by
    refine h2.stay ?_ ?_ (by rw [hpc]; rfl)
    · rw [ProcSys.set_of_ne _ hnp.symm]
      exact hp.running
    · constructor
      case init => exact fun hne => absurd rfl hne
      case link => simp
      case run =>
        rintro k ⟨⟩
        rw [ProcSys.set_self]
        exact ⟨hused, rfl⟩
      case owner =>
        rintro k q ⟨⟩ hq
        exact absurd hq (hfree q)
      case younger =>
        rintro k ⟨⟩
        exact hyounger
      case passed => simp [Pc.passed]
  simpa only [ProcSys.goto, ProcSys.set, update_idem] using h3

theorem TreeInv.forkRun (hp : s.At p (.forkRun np)) :
    TreeInv ((s.set np { s.proc np with state := .RUNNABLE }).goto p .user) := by
  obtain ⟨-, hsome⟩ := h.run p np hp.pc
  obtain ⟨h1, hfree, hused, -⟩ := h.letGo hp rfl
  exact h1.setDead (x := { s.proc np with state := .RUNNABLE })
    (congrArg ProcState.alive hused) hfree (fun q hq => h1.parent_ok hq) (fun _ => by simp [hsome])
    (fun hstate => by cases hstate) fun _ => h1.known fun hno => by cases hused.symm.trans hno

/-! ### `exit` and `wait` -/

theorem TreeInv.passed_init : (s.pc initproc).passed = 0 := by
  have hstays := h.initStays
  cases hpc : s.pc initproc with
  | exitReparent | exitReparentWake | exitWakeup => rw [hpc] at hstays; cases hstays
  | _ => rfl

theorem TreeInv.entry_exit (hexit : (s.pc p).exitStatus ≠ none) (hborn : b.newborn = none)
    (hpassed : ∀ k : Fin NPROC, k.val < b.passed → (s.proc k).parent ≠ some p) : Entry s p b where
  init := fun _ => h.ne_init_of_exit hexit
  link := by rintro np rfl; cases hborn
  run := by rintro np rfl; cases hborn
  owner := by simp [hborn]
  younger := by simp [hborn]
  passed := hpassed

theorem TreeInv.passed_succ {status : Int32} (hp : s.At p (.exitReparent status i)) {k : Fin NPROC}
    (hk : k.val < i.val + 1) (hki : k ≠ i) : (s.proc k).parent ≠ some p := by
  refine h.reparented p k ?_
  rw [hp.pc]
  have : k.val ≠ i.val := fun heq => hki (Fin.ext heq)
  simp only [Pc.passed]
  omega

theorem TreeInv.reparent {status : Int32} (hp : s.At p (.exitReparent status i))
    (hi : (s.proc i).parent = some p) :
    TreeInv ((s.set i { s.proc i with parent := some initproc }).goto p
      (.exitReparentWake status i 0)) := by
  have hexit : (s.pc p).exitStatus ≠ none := by rw [hp.pc]; simp [Pc.exitStatus]
  have hinit := h.ne_init_of_exit hexit
  have hroot : i ≠ initproc := by
    rintro rfl
    rw [h.root] at hi
    cases hi
  have hborn : ∀ q, (s.pc q).newborn ≠ some i := by
    intro q hq
    cases hpc : s.pc q with
    | forkLink k =>
      rw [hpc] at hq
      cases hq
      rw [(h.link q _ hpc).2] at hi
      cases hi
    | forkRun k =>
      -- the newborn's parent is in `fork`, not in `exit`
      rw [hpc] at hq
      cases hq
      have hq' := (h.run q _ hpc).2
      rw [hi] at hq'
      cases hq'
      rw [hp.pc] at hpc
      cases hpc
    | _ => rw [hpc] at hq; cases hq
  have hused : (s.proc i).state ≠ .UNUSED := fun hstate => by
    rw [h.unused i hstate] at hi
    cases hi
  have h1 : TreeInv (s.set i { s.proc i with parent := some initproc }) := by
    refine h.set ⟨h.holder i, h.busy i, fun heq => absurd heq hroot, fun q hq => absurd hq (hborn q),
      fun k hk => (h.parent k i hk).1, ?_, fun _ _ => by simp, fun hstate => absurd hstate hused,
      fun _ => h.known hused⟩
    rintro q ⟨⟩
    refine ⟨h.initAlive, h.eldest i hroot hused, ?_⟩
    rw [h.passed_init]
    exact Nat.zero_le _
  refine h1.stay (b := .exitReparentWake status i 0) ?_ (h1.entry_exit hexit rfl fun k => ?_)
    (by rw [show (s.set i _).pc p = _ from hp.pc]; rfl)
  · exact s.set_all (P := fun q y => q = p → y.state = .RUNNING) (fun hip => hip ▸ hp.running)
      (fun q hq => hq ▸ hp.running) p rfl
  · by_cases hki : k = i
    · rw [hki, ProcSys.set_self]
      simpa using fun _ => hinit.symm
    · rw [ProcSys.set_of_ne s hki]
      exact fun hk => h.passed_succ hp hk hki

/-- `ZOMBIE`: by then nobody is a child of the process. -/
theorem TreeInv.zombie {status : Int32} (hp : s.At p (.exitWakeup status NPROC)) :
    TreeInv { (s.set p { s.proc p with xstate := status, state := .ZOMBIE }).goto p .user with
      waitLock := none } := by
  have hinit := h.ne_init_of_exit (p := p) (by rw [hp.pc]; simp [Pc.exitStatus])
  have hborn : ∀ q, (s.pc q).newborn ≠ some p := by
    intro q hq
    have := h.newborn_used hq
    rw [hp.running] at this
    cases this
  have h1 : TreeInv { s.goto p .user with waitLock := none } :=
    h.release hp.running (Entry.plain rfl rfl rfl) (by rw [hp.pc]; rfl) rfl
  have huser : (s.goto p .user).pc p = .user := ProcSys.goto_self s p .user
  refine h1.set (x := { s.proc p with xstate := status, state := .ZOMBIE }) ⟨fun hpc => ?_,
    fun hpc => absurd huser hpc, fun heq => absurd heq hinit, fun q hq => ?_,
    fun k hk => absurd hk (h.reparented p k (by rw [hp.pc]; exact k.isLt)),
    fun q hq => h1.parent_ok hq, fun _ _ => h.left p hinit (.inl (by rw [hp.running]; rfl)),
    fun hstate => (by cases hstate), fun _ => h.known (by rw [hp.running]; simp)⟩
  · rw [show _ = Pc.user from huser] at hpc
    cases hpc
  · exact absurd hq (s.goto_all (P := fun q c => c.newborn ≠ some p) (by simp [Pc.newborn]) hborn q)

theorem TreeInv.free (hstate : (s.proc i).state = .ZOMBIE ∨ (s.proc i).state = .UNUSED) :
    TreeInv (s.set i (freeproc (s.proc i))) := by
  refine h.setDead ?_ (fun q hq => ?_) (fun q hq => by cases hq)
    (fun hx => by rcases hx with hx | hx <;> cases hx) (fun _ => rfl) fun hx => absurd rfl hx
  · rcases hstate with hstate | hstate <;> rw [hstate] <;> rfl
  · have hused := h.newborn_used hq
    rcases hstate with hstate | hstate <;> rw [hused] at hstate <;> cases hstate

theorem TreeInv.plain {a : Pc} (hp : s.At p a) (hexit : b.exitStatus = none)
    (hborn : b.newborn = none) (hpassed : b.passed = 0) (hholds : b.holds = a.holds) :
    TreeInv (s.goto p b) :=
  h.stay hp.running (.plain hexit hborn hpassed) (by rw [hp.pc, hholds])

theorem TreeInv.plainRelease {a : Pc} (hp : s.At p a) (ha : a.holds = true)
    (hexit : b.exitStatus = none) (hborn : b.newborn = none) (hpassed : b.passed = 0)
    (hholds : b.holds = false) : TreeInv { s.goto p b with waitLock := none } :=
  h.release hp.running (.plain hexit hborn hpassed) (by rw [hp.pc, ha]) hholds

theorem TreeInv.exitMove {a : Pc} (hp : s.At p a) (hexit : a.exitStatus ≠ none)
    (hborn : b.newborn = none) (hpassed : b.passed = a.passed) (hholds : b.holds = a.holds) :
    TreeInv (s.goto p b) := by
  refine h.stay hp.running (h.entry_exit (by rwa [hp.pc]) hborn fun k hk => ?_) (by rw [hp.pc, hholds])
  exact h.reparented p k (by rw [hp.pc, ← hpassed]; exact hk)

end Changes

theorem TreeInv.step {s s' : ProcSys} (h : TreeInv s) (hstep : ProcStep s s') : TreeInv s' := by
  -- each critical section is a change of one entry after a move of one process
  cases hstep with
  | sched i hi =>
    exact h.touch (Touch.of_state (h.not_holds_of_state (by rw [hi]; simp)) (t := .RUNNING)
      (by rw [hi]; rfl) rfl ⟨rfl, rfl, rfl, rfl⟩)
  | yield p hp hlock =>
    exact h.touch (Touch.of_state (h.not_holds hlock) (t := .RUNNABLE) (by rw [hp]; rfl) rfl
      ⟨rfl, rfl, rfl, rfl⟩)
  | sleep p chan hp _ =>
    exact h.touch (Touch.of_state (by rw [hp.pc]; rfl) (t := .SLEEPING)
      (by rw [hp.running]; rfl) rfl ⟨rfl, rfl, rfl, rfl⟩)
  | wakeup i now hi _ =>
    exact h.touch (Touch.of_state (h.not_holds_of_state (by rw [hi]; simp)) (t := .RUNNABLE)
      (by rw [hi]; rfl) rfl ⟨rfl, rfl, rfl, rfl⟩)
  | kill i => exact h.touch (h.touch_kill i)
  | fork _ hp | forkNone _ hp | waitOther _ _ _ _ hp | waitChild _ _ _ _ hp =>
    exact h.plain hp rfl rfl rfl rfl
  | forkSkip p i hp hi =>
    have h1 := h.plain (b := .forkScan (i + 1)) hp rfl rfl rfl rfl
    exact h1.touch (x := { s.proc i with cputime := 0 }) ⟨rfl, rfl, rfl, .inl rfl, h1.holder i⟩
  | forkFail p i hp hi =>
    have h1 := h.plain (b := .user) hp rfl rfl rfl rfl
    have h2 := h1.free (i := i) (.inr hi)
    exact { h2 with }
  | forkAlloc p i hp hi => exact h.forkAlloc hp hi
  | forkLink p np hp _ => exact h.forkLink hp
  | forkRun p np hp => exact h.forkRun hp
  | exit p status hp hinit hlock =>
    have h1 := h.acquire (b := .exitReparent status 0) hp.running
      ⟨fun _ => hinit, by simp, by simp, by simp [Pc.newborn], by simp [Pc.newborn],
        by simp [Pc.passed]⟩ hlock rfl
    exact { h1 with }
  | reparent p i status hp hi => exact h.reparent hp hi
  | reparentSkip p i status hp hi =>
    refine h.stay hp.running (h.entry_exit (by rw [hp.pc]; simp [Pc.exitStatus]) rfl fun k hk => ?_)
      (by rw [hp.pc]; rfl)
    by_cases hki : k = i
    · rw [hki]
      exact hi
    · exact h.passed_succ hp hk hki
  | reparentWake p j i status now hp =>
    have h1 := h.exitMove (b := .exitReparentWake status i (j + 1)) hp (by simp [Pc.exitStatus]) rfl rfl rfl
    exact h1.touch (h1.touch_wakeup _ now p j)
  | reparentWoken _ _ _ hp | reparentDone _ _ hp =>
    exact h.exitMove hp (by simp [Pc.exitStatus]) rfl rfl rfl
  | exitWakeup p j status now hp =>
    have h1 := h.exitMove (b := .exitWakeup status (j + 1)) hp (by simp [Pc.exitStatus]) rfl rfl rfl
    exact h1.touch (h1.touch_wakeup _ now p j)
  | exitZombie p status hp => exact h.zombie hp
  | wait _ _ hp hlock | waitWake _ _ hp hlock =>
    exact h.acquire hp.running (Entry.plain rfl rfl rfl) hlock rfl
  | waitCopyFail _ _ _ _ hp | waitNone _ _ _ hp => exact h.plainRelease hp rfl rfl rfl rfl rfl
  | waitReap p i call hk hp hi hz =>
    have h1 := h.plainRelease (b := .user) hp rfl rfl rfl rfl rfl
    have h2 := h1.free (i := i) (.inl hz)
    exact { h2 with }
  | waitSleep p call hp _ =>
    have h1 := h.plainRelease (b := .waitSleep call) hp rfl rfl rfl rfl rfl
    exact h1.touch (x := { s.proc p with state := .SLEEPING, chan := .proc p })
      (Touch.of_state (by rw [show _ = _ from ProcSys.goto_self s p (.waitSleep call)]; rfl)
        (t := .SLEEPING) (by show (s.proc p).state.alive = true; rw [hp.running]; rfl) rfl
        ⟨rfl, rfl, rfl, rfl⟩)

end Xv6
