import Mathlib.Logic.Relation
import Xv6.Proc.WaitInv

/-!
# Exactly-once reaping

`process_tree` puts `TreeInv`, `WaitInv` and `HistInv` together.
-/

namespace Xv6

open Machines Function List

/-- The calls of `exit` and the successful calls of `wait` match: a process that has called `exit`
is still in the table or has been reaped, once, by its parent, and `wait` returned its `pid` and
status. -/
structure HistInv (s : ProcSys) : Prop where
  inj : ∀ i k, (s.proc i).state ≠ .UNUSED → (s.proc k).state ≠ .UNUSED → s.uid i = s.uid k → i = k
  pid : ∀ i, (s.proc i).state ≠ .UNUSED → (s.proc i).pid = s.pidOf (s.uid i)
  exiting : ∀ i status, (s.pc i).exitStatus = some status → (s.uid i, status) ∈ s.exits
  zombie : ∀ i, (s.proc i).state = .ZOMBIE → (s.uid i, (s.proc i).xstate) ∈ s.exits
  -- Who is neither `ZOMBIE` nor inside `exit` has not called it.
  before : ∀ i, (s.proc i).state ≠ .UNUSED → (s.proc i).state ≠ .ZOMBIE →
    (s.pc i).exitStatus = none → s.uid i ∉ s.exits.map Prod.fst
  old : ∀ u ∈ s.exits.map Prod.fst, u < s.nextUid
  once : (s.exits.map Prod.fst).Nodup
  -- Who has called `exit` is in the table or has been reaped.
  kept : ∀ u ∈ s.exits.map Prod.fst,
    u ∈ s.reaps.map Reap.child ∨ ∃ i, (s.proc i).state ≠ .UNUSED ∧ s.uid i = u
  unreaped : ∀ i, (s.proc i).state ≠ .UNUSED → s.uid i ∉ s.reaps.map Reap.child
  reap : ∀ r ∈ s.reaps, (r.child, r.status) ∈ s.exits ∧ r.parent = some r.reaper ∧
    r.ret = s.pidOf r.child ∧ ∀ x, r.stored = some x → x = r.status
  reapedOnce : (s.reaps.map Reap.child).Nodup

theorem histInv_boot : HistInv bootProcs where
  inj := by
    intro i k hi hk _
    by_cases hii : i = initproc <;> by_cases hkk : k = initproc
    · rw [hii, hkk]
    · simp [bootProcs, hkk] at hk
    · simp [bootProcs, hii] at hi
    · simp [bootProcs, hii] at hi
  pid := by
    intro i hi
    by_cases hii : i = initproc
    · simp [bootProcs, hii]
    · simp [bootProcs, hii] at hi
  exiting := by simp [bootProcs, Pc.exitStatus]
  zombie := by
    intro i hi
    by_cases hii : i = initproc <;> simp [bootProcs, hii] at hi
  before := by simp [bootProcs]
  old := by simp [bootProcs]
  once := by simp [bootProcs]
  kept := by simp [bootProcs]
  unreaped := by simp [bootProcs]
  reap := by simp [bootProcs]
  reapedOnce := by simp [bootProcs]

section Changes

variable {s : ProcSys} {p i np : Fin NPROC} {b : Pc}

theorem HistInv.moveTo {l : Option (Fin NPROC)} (h : HistInv s)
    (hb : b.exitStatus = (s.pc p).exitStatus) : HistInv { s.goto p b with waitLock := l } := by
  have hsame := s.goto_all (P := fun q c => c.exitStatus = (s.pc q).exitStatus) hb fun _ => rfl
  exact { h with
    exiting := fun q status hq => h.exiting q status ((hsame q).symm.trans hq)
    before := fun q hu hz hq => h.before q hu hz ((hsame q).symm.trans hq) }

/-- What the history is about does not change when entry `x` becomes `y`. -/
structure Kept (x y : Proc) : Prop where
  unused : y.state = .UNUSED ↔ x.state = .UNUSED
  zombie : y.state = .ZOMBIE ↔ x.state = .ZOMBIE
  pid : y.state ≠ .UNUSED → y.pid = x.pid
  xstate : y.state = .ZOMBIE → y.xstate = x.xstate

theorem Kept.of_state {x y : Proc} (hstate : y.state = x.state) (hpid : y.pid = x.pid)
    (hxstate : y.xstate = x.xstate) : Kept x y :=
  ⟨by rw [hstate], by rw [hstate], fun _ => hpid, fun _ => hxstate⟩

theorem HistInv.set {x : Proc} (h : HistInv s) (hx : Kept (s.proc i) x) : HistInv (s.set i x) := by
  have hkept := s.set_all (P := fun k y => Kept (s.proc k) y) hx fun _ => .of_state rfl rfl rfl
  have hused : ∀ k, ((s.set i x).proc k).state ≠ .UNUSED → (s.proc k).state ≠ .UNUSED :=
    fun k hk hold => hk ((hkept k).unused.mpr hold)
  exact { h with
    inj := fun k l hk hl => h.inj k l (hused k hk) (hused l hl)
    pid := fun k hk => ((hkept k).pid hk).trans (h.pid k (hused k hk))
    zombie := fun k hk => by
      rw [(hkept k).xstate hk]
      exact h.zombie k ((hkept k).zombie.mp hk)
    before := fun k hk hz =>
      h.before k (hused k hk) fun hold => hz ((hkept k).zombie.mpr hold)
    kept := fun u hu => (h.kept u hu).imp_right fun ⟨k, hk, huid⟩ =>
      ⟨k, fun hnew => hk ((hkept k).unused.mp hnew), huid⟩
    unreaped := fun k hk => h.unreaped k (hused k hk) }

theorem Touch.kept {x : Proc} (ht : Touch s i x) : Kept (s.proc i) x := by
  have hdead : ∀ st : ProcState, st.alive = false → (x.state = st ↔ (s.proc i).state = st) := by
    intro st hst
    refine ⟨fun hx => ?_, fun hi => ?_⟩
    · exact (ht.same (by rw [hx, hst])).symm.trans hx
    · exact (ht.same' (by rw [hi, hst])).trans hi
  exact ⟨hdead _ rfl, hdead _ rfl, fun _ => ht.pid, fun _ => ht.xstate⟩

theorem HistInv.forkAlloc (h : HistInv s) (ht : TreeInv s) (hp : s.At p (.forkScan i))
    (hi : (s.proc i).state = .UNUSED) :
    HistInv { (s.set i { s.proc i with pid := s.nextpid, state := .USED }).goto p (.forkLink i)
      with
      nextpid := s.nextpid + 1
      uid := update s.uid i s.nextUid
      nextUid := s.nextUid + 1
      pidOf := update s.pidOf s.nextUid s.nextpid } := by
  set x : Proc := { s.proc i with pid := s.nextpid, state := .USED } with hx
  set s' : ProcSys := { (s.set i x).goto p (.forkLink i) with
    nextpid := s.nextpid + 1
    uid := update s.uid i s.nextUid
    nextUid := s.nextUid + 1
    pidOf := update s.pidOf s.nextUid s.nextpid } with hs'
  have hself : s'.proc i = x ∧ s'.uid i = s.nextUid :=
    ⟨ProcSys.set_self s i x, update_self ..⟩
  have hother : ∀ k, k ≠ i → s'.proc k = s.proc k ∧ s'.uid k = s.uid k := fun k hk =>
    ⟨ProcSys.set_of_ne s hk x, update_of_ne hk ..⟩
  -- what holds of the new process and of all the others
  have hall {P : Fin NPROC → Proc → Nat → Prop} (hnew : P i x s.nextUid)
      (hold : ∀ k, P k (s.proc k) (s.uid k)) (k : Fin NPROC) : P k (s'.proc k) (s'.uid k) := by
    by_cases hki : k = i
    · rw [hki, hself.1, hself.2]
      exact hnew
    · rw [(hother k hki).1, (hother k hki).2]
      exact hold k
  have hpid : ∀ u, u < s.nextUid → s'.pidOf u = s.pidOf u := fun u hu => update_of_ne hu.ne ..
  have hstat : ∀ k, (s'.pc k).exitStatus = (s.pc k).exitStatus :=
    s.goto_all (P := fun k c => c.exitStatus = (s.pc k).exitStatus) (by rw [hp.pc]; rfl) fun _ => rfl
  have hidle := ht.idle (i := i) (by rw [hi]; rfl)
  have hchild : ∀ u ∈ s.reaps.map Reap.child, u < s.nextUid := by
    intro u hu
    obtain ⟨r, hr, rfl⟩ := mem_map.mp hu
    exact h.old _ (mem_map_of_mem (h.reap r hr).1)
  constructor
  case inj =>
    intro k l hk hl huid
    by_cases hki : k = i <;> by_cases hli : l = i
    · rw [hki, hli]
    · rw [hki, hself.2, (hother l hli).2] at huid
      rw [(hother l hli).1] at hl
      exact absurd huid (ht.fresh l hl).ne'
    · rw [hli, hself.2, (hother k hki).2] at huid
      rw [(hother k hki).1] at hk
      exact absurd huid (ht.fresh k hk).ne
    · rw [(hother k hki).2, (hother l hli).2] at huid
      rw [(hother k hki).1] at hk
      rw [(hother l hli).1] at hl
      exact h.inj k l hk hl huid
  case pid =>
    refine hall (P := fun _ y u => y.state ≠ .UNUSED → y.pid = s'.pidOf u)
      (fun _ => (update_self s.nextUid s.nextpid s.pidOf).symm) fun k hk => ?_
    rw [hpid _ (ht.fresh k hk)]
    exact h.pid k hk
  case exiting =>
    intro k status hk
    rw [hstat] at hk
    refine hall (P := fun k _ u => (s.pc k).exitStatus = some status → (u, status) ∈ s.exits)
      (fun hk => ?_) (fun k => h.exiting k status) k hk
    rw [hidle] at hk
    cases hk
  case zombie =>
    exact hall (P := fun _ y u => y.state = .ZOMBIE → (u, y.xstate) ∈ s.exits) (fun hk => by cases hk)
      h.zombie
  case before =>
    intro k hk hkz hst
    rw [hstat] at hst
    exact hall (P := fun k y u => y.state ≠ .UNUSED → y.state ≠ .ZOMBIE →
      (s.pc k).exitStatus = none → u ∉ s.exits.map Prod.fst)
      (fun _ _ _ hmem => lt_irrefl _ (h.old _ hmem)) h.before k hk hkz hst
  case old => exact fun u hu => (h.old u hu).trans (Nat.lt_succ_self _)
  case once => exact h.once
  case kept =>
    refine fun u hu => (h.kept u hu).imp_right ?_
    rintro ⟨k, hk, huid⟩
    have hki : k ≠ i := fun heq => hk (heq ▸ hi)
    exact ⟨k, by rwa [(hother k hki).1], (hother k hki).2.trans huid⟩
  case unreaped =>
    exact hall (P := fun _ y u => y.state ≠ .UNUSED → u ∉ s.reaps.map Reap.child)
      (fun _ hmem => lt_irrefl _ (hchild _ hmem)) h.unreaped
  case reap =>
    intro r hr
    obtain ⟨hexit, hpar, hret, hstored⟩ := h.reap r hr
    exact ⟨hexit, hpar, hret.trans (hpid _ (hchild _ (mem_map_of_mem hr))).symm, hstored⟩
  case reapedOnce => exact h.reapedOnce

theorem HistInv.exit {status : Int32} (h : HistInv s) (ht : TreeInv s) (hp : s.At p .user) :
    HistInv { s.goto p (.exitReparent status 0) with
      waitLock := some p
      exits := s.exits ++ [(s.uid p, status)] } := by
  have hused : (s.proc p).state ≠ .UNUSED := by rw [hp.running]; simp
  -- a process that is running outside `exit` has not called it yet
  have hnew : s.uid p ∉ s.exits.map Prod.fst :=
    h.before p hused (by rw [hp.running]; simp) (by rw [hp.pc]; rfl)
  have hfst : ∀ u, u ∈ (s.exits ++ [(s.uid p, status)]).map Prod.fst ↔
      u ∈ s.exits.map Prod.fst ∨ u = s.uid p := by simp
  refine { h with exiting := ?_, zombie := ?_, before := ?_, old := ?_, once := ?_, kept := ?_,
                  reap := ?_ }
  · exact s.goto_all (P := fun k c => ∀ st, c.exitStatus = some st →
      (s.uid k, st) ∈ s.exits ++ [(s.uid p, status)]) (fun st hst => by cases hst; simp)
      fun k st hk => mem_append_left _ (h.exiting k st hk)
  · exact fun k hk => mem_append_left _ (h.zombie k hk)
  · intro k hk hz hst hmem
    have hkp : k ≠ p := by
      rintro rfl
      cases (congrArg Pc.exitStatus (ProcSys.goto_self s k _)).symm.trans hst
    have hpck := (congrArg Pc.exitStatus (ProcSys.goto_of_ne s hkp _)).symm.trans hst
    rcases (hfst _).mp hmem with hmem | huid
    · exact h.before k hk hz hpck hmem
    · exact hkp (h.inj k p hk hused huid)
  · intro u hu
    rcases (hfst u).mp hu with hold | rfl
    · exact h.old u hold
    · exact ht.fresh p hused
  · show ((s.exits ++ [(s.uid p, status)]).map Prod.fst).Nodup
    rw [map_append]
    exact h.once.append (nodup_singleton _) (by simpa using hnew)
  · intro u hu
    rcases (hfst u).mp hu with hold | rfl
    · exact h.kept u hold
    · exact .inr ⟨p, hused, rfl⟩
  · intro r hr
    obtain ⟨hexit, hrest⟩ := h.reap r hr
    exact ⟨mem_append_left _ hexit, hrest⟩

theorem HistInv.exitZombie {status : Int32} (h : HistInv s)
    (hp : s.At p (.exitWakeup status NPROC)) :
    HistInv { (s.set p { s.proc p with xstate := status, state := .ZOMBIE }).goto p .user with
      waitLock := none } := by
  have hcalled : (s.uid p, status) ∈ s.exits := h.exiting p status (by rw [hp.pc]; rfl)
  set x : Proc := { s.proc p with xstate := status, state := .ZOMBIE } with hx
  have hused := s.set_all (i := p) (x := x) (P := fun k y => y.state ≠ .UNUSED ↔
    (s.proc k).state ≠ .UNUSED) (by rw [hp.running, hx]; simp) fun _ => Iff.rfl
  refine { h with inj := ?_, pid := ?_, exiting := ?_, zombie := ?_, before := ?_, kept := ?_,
                  unreaped := ?_ }
  · exact fun k l hk hl => h.inj k l ((hused k).mp hk) ((hused l).mp hl)
  · intro k hk
    have hpid := s.set_all (i := p) (x := x) (P := fun k y => y.pid = (s.proc k).pid) rfl
      (fun _ => rfl) k
    exact hpid.trans (h.pid k ((hused k).mp hk))
  · exact (s.set p x).goto_all (P := fun k c => ∀ st, c.exitStatus = some st →
      (s.uid k, st) ∈ s.exits) (fun _ hst => by cases hst) h.exiting
  · exact s.set_all (P := fun k y => y.state = .ZOMBIE → (s.uid k, y.xstate) ∈ s.exits)
      (fun _ => hcalled) h.zombie
  · intro k hk hz hst
    by_cases hkp : k = p
    · exact absurd (by rw [hkp]; exact congrArg Proc.state (ProcSys.set_self s p x)) hz
    · refine h.before k ((hused k).mp hk) (fun hold => hz ?_) ?_
      · exact (congrArg Proc.state (ProcSys.set_of_ne s hkp x)).trans hold
      · exact (congrArg Pc.exitStatus (ProcSys.goto_of_ne (s.set p x) hkp .user)).symm.trans hst
  · exact fun u hu => (h.kept u hu).imp_right fun ⟨k, hk, huid⟩ => ⟨k, (hused k).mpr hk, huid⟩
  · exact fun k hk => h.unreaped k ((hused k).mp hk)

theorem HistInv.waitReap {call : WaitCall} {havekids : Bool} (h : HistInv s)
    (hp : s.At p (.waitScan call i havekids)) (hi : (s.proc i).parent = some p)
    (hz : (s.proc i).state = .ZOMBIE) :
    HistInv { (s.set i (freeproc (s.proc i))).goto p .user with
      waitLock := none
      reaps := s.reaps ++ [
        { child := s.uid i
          parent := (s.proc i).parent.map s.uid
          reaper := s.uid p
          ret := (s.proc i).pid
          status := (s.proc i).xstate
          stored := if call.addr then some (s.proc i).xstate else none }] } := by
  have hused : (s.proc i).state ≠ .UNUSED := by rw [hz]; simp
  -- the entries still in use are the others
  have hleft : ∀ k, ((s.set i (freeproc (s.proc i))).proc k).state ≠ .UNUSED →
      k ≠ i ∧ (s.proc k).state ≠ .UNUSED ∧ (s.set i (freeproc (s.proc i))).proc k = s.proc k := by
    intro k hk
    have hki : k ≠ i := by
      rintro rfl
      exact hk (by rw [ProcSys.set_self]; rfl)
    have hsame := ProcSys.set_of_ne s hki (freeproc (s.proc i))
    exact ⟨hki, by rwa [hsame] at hk, hsame⟩
  have hstat := (s.set i (freeproc (s.proc i))).goto_all (i := p) (b := .user)
    (P := fun k c => c.exitStatus = (s.pc k).exitStatus) (by rw [hp.pc]; rfl) fun _ => rfl
  refine { h with inj := ?_, pid := ?_, exiting := ?_, zombie := ?_, before := ?_, kept := ?_,
                  unreaped := ?_, reap := ?_, reapedOnce := ?_ }
  · exact fun k l hk hl => h.inj k l (hleft k hk).2.1 (hleft l hl).2.1
  · intro k hk
    obtain ⟨-, hkused, hsame⟩ := hleft k hk
    exact (congrArg Proc.pid hsame).trans (h.pid k hkused)
  · exact fun k st hk => h.exiting k st ((hstat k).symm.trans hk)
  · exact s.set_all (P := fun k y => y.state = .ZOMBIE → (s.uid k, y.xstate) ∈ s.exits)
      (fun hk => by cases hk) h.zombie
  · intro k hk hkz hst
    obtain ⟨-, hkused, hsame⟩ := hleft k hk
    exact h.before k hkused (fun hold => hkz ((congrArg Proc.state hsame).trans hold))
      ((hstat k).symm.trans hst)
  · intro u hu
    simp only [map_append, map_cons, map_nil, mem_append, mem_singleton]
    rcases h.kept u hu with hold | ⟨k, hk, huid⟩
    · exact .inl (.inl hold)
    · by_cases hki : k = i
      · exact .inl (.inr (by rw [← huid, hki]))
      · refine .inr ⟨k, fun hno => hk ?_, huid⟩
        exact (congrArg Proc.state (ProcSys.set_of_ne s hki _)).symm.trans hno
  · intro k hk
    obtain ⟨hki, hkused, -⟩ := hleft k hk
    simp only [map_append, map_cons, map_nil, mem_append, mem_singleton,
      not_or]
    exact ⟨h.unreaped k hkused, fun huid => hki (h.inj k i hkused hused huid)⟩
  · intro r hr
    rcases mem_append.mp hr with hold | hnew
    · exact h.reap r hold
    · rw [mem_singleton.mp hnew]
      refine ⟨h.zombie i hz, by rw [hi]; rfl, h.pid i hused, fun x hx => ?_⟩
      rcases Bool.eq_false_or_eq_true call.addr with haddr | haddr
      · simpa [haddr] using hx.symm
      · simp [haddr] at hx
  · simp only [map_append, map_cons, map_nil]
    exact h.reapedOnce.append (nodup_singleton _) (by simpa using h.unreaped i hused)

theorem HistInv.move {a : Pc} {l : Option (Fin NPROC)} (h : HistInv s) (hp : s.At p a)
    (hb : b.exitStatus = a.exitStatus) : HistInv { s.goto p b with waitLock := l } :=
  h.moveTo (by rw [hp.pc, hb])

end Changes

variable {s : ProcSys}

theorem HistInv.step {s' : ProcSys} (h : HistInv s) (ht : TreeInv s) (hstep : ProcStep s s') :
    HistInv s' := by
  cases hstep with
  | sched _ hi | wakeup _ _ hi =>
    exact h.set ⟨by simp [hi], by simp [hi], fun _ => rfl, fun _ => rfl⟩
  | yield p hp _ => exact h.set ⟨by simp [hp], by simp [hp], fun _ => rfl, fun _ => rfl⟩
  | sleep p chan hp _ =>
    exact h.set ⟨by simp [hp.running], by simp [hp.running], fun _ => rfl, fun _ => rfl⟩
  | kill i => exact h.set (ht.touch_kill i).kept
  | fork _ hp | forkNone _ hp | reparentSkip _ _ _ hp | reparentWoken _ _ _ hp | reparentDone _ _ hp
  | waitOther _ _ _ _ hp | waitChild _ _ _ _ hp => exact h.move (l := s.waitLock) hp rfl
  | forkSkip p i hp _ =>
    have h1 := h.move (b := .forkScan (i + 1)) (l := s.waitLock) hp rfl
    exact h1.set (x := { s.proc i with cputime := 0 })
      (.of_state rfl rfl rfl)
  | forkFail p i hp hi =>
    have h1 := h.move (b := .user) (l := s.waitLock) hp rfl
    have h2 := h1.set (i := i) (x := freeproc (s.proc i))
      ⟨⟨fun _ => hi, fun _ => rfl⟩, by simp [freeproc, ProcSys.goto, hi],
        fun hne => absurd rfl hne, fun hz => by cases hz⟩
    exact { h2 with }
  | forkAlloc p i hp hi => exact h.forkAlloc ht hp hi
  | forkLink p np hp _ =>
    have h1 := h.move (b := .forkRun np) (l := s.waitLock) hp rfl
    exact h1.set (x := { s.proc np with parent := some p })
      (.of_state rfl rfl rfl)
  | forkRun p np hp =>
    have hused : (s.proc np).state = .USED := (ht.run p np hp.pc).1
    have h1 := h.move (b := .user) (l := s.waitLock) hp rfl
    exact h1.set (x := { s.proc np with state := .RUNNABLE })
      ⟨by simp [ProcSys.goto, hused], by simp [ProcSys.goto, hused], fun _ => rfl, fun _ => rfl⟩
  | exit p status hp _ _ => exact h.exit ht hp
  | reparent p i status hp _ =>
    have h1 := h.move (b := .exitReparentWake status i 0) (l := s.waitLock) hp rfl
    exact h1.set (x := { s.proc i with parent := some initproc })
      (.of_state rfl rfl rfl)
  | reparentWake p j _ _ now hp | exitWakeup p j _ now hp =>
    exact (h.set (ht.touch_wakeup _ now p j).kept).moveTo (l := s.waitLock)
      (by show _ = (s.pc p).exitStatus; rw [hp.pc]; rfl)
  | exitZombie p status hp => exact h.exitZombie hp
  | wait _ _ hp | waitCopyFail _ _ _ _ hp | waitNone _ _ _ hp | waitWake _ _ hp =>
    exact h.move hp rfl
  | waitReap p i call hk hp hi hz => exact h.waitReap hp hi hz
  | waitSleep p call hp _ =>
    have h1 := h.move (b := .waitSleep call) (l := none) hp rfl
    exact h1.set (x := { s.proc p with state := .SLEEPING, chan := .proc p })
      ⟨by simp [ProcSys.goto, hp.running], by simp [ProcSys.goto, hp.running], fun _ => rfl,
        fun _ => rfl⟩

/-! ### Along every run -/

/-- Entry `i` is the same zombie in `s'` as in `s`. -/
def SameZombie (s s' : ProcSys) (i : Fin NPROC) : Prop :=
  s'.uid i = s.uid i ∧ (s'.proc i).state = .ZOMBIE ∧ (s'.proc i).pid = (s.proc i).pid ∧
    (s'.proc i).xstate = (s.proc i).xstate

section Zombie

variable {s s' : ProcSys} {i : Fin NPROC}

variable (hz : (s.proc i).state = .ZOMBIE)

include hz

variable {j : Fin NPROC} {x : Proc}

theorem SameZombie.of_set (huid : s'.uid i = s.uid i) (hproc : s'.proc = (s.set j x).proc)
    (hx : i = j → x.state = .ZOMBIE ∧ x.pid = (s.proc i).pid ∧ x.xstate = (s.proc i).xstate) :
    SameZombie s s' i := by
  unfold SameZombie
  rw [huid, hproc]
  by_cases hij : i = j
  · rw [← hij, ProcSys.set_self]
    exact ⟨rfl, hx hij⟩
  · rw [ProcSys.set_of_ne s hij]
    exact ⟨rfl, hz, rfl, rfl⟩

theorem SameZombie.of_ne {st : ProcState} (huid : s'.uid i = s.uid i)
    (hproc : s'.proc = (s.set j x).proc) (hj : (s.proc j).state = st) (hst : st ≠ .ZOMBIE) :
    SameZombie s s' i :=
  of_set hz huid hproc fun hij => absurd (hj.symm.trans (hij ▸ hz)) hst

omit hz

end Zombie

/-- A process that has called `exit` is in the table, inside `exit` or as a zombie, until it is
reaped. -/
theorem HistInv.exited (h : HistInv s) {u : Nat} {status : Int32} (hu : (u, status) ∈ s.exits) :
    u ∈ s.reaps.map Reap.child ∨ u ∉ s.reaps.map Reap.child ∧ ∃ i, s.uid i = u ∧
      ((s.pc i).exitStatus = some status ∨
        (s.proc i).state = .ZOMBIE ∧ (s.proc i).xstate = status) := by
  -- a process calls `exit` once, so the status is the one recorded
  have hstatus : ∀ x, (u, x) ∈ s.exits → x = status := fun x hx =>
    congrArg Prod.snd (inj_on_of_nodup_map h.once hx hu rfl)
  rcases h.kept u (mem_map_of_mem hu) with hreaped | ⟨i, hi, rfl⟩
  · exact .inl hreaped
  · refine .inr ⟨h.unreaped i hi, i, rfl, ?_⟩
    by_cases hz : (s.proc i).state = .ZOMBIE
    · exact .inr ⟨hz, hstatus _ (h.zombie i hz)⟩
    · cases hst : (s.pc i).exitStatus with
      | none => exact absurd (mem_map_of_mem hu) (h.before i hi hz hst)
      | some x => rw [hstatus x (h.exiting i x hst)]; exact .inl rfl

end Xv6
