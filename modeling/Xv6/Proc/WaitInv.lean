import Xv6.Proc.TreeInv

/-!
# Sleeping in `wait`

No wakeup is lost (`WaitInv`), thanks to the order of events under `wait_lock`: `exit` wakes the
parent before it becomes `ZOMBIE`, and `wait` sleeps only after it has looked at every child.
-/

namespace Xv6

def Dozing (s : ProcSys) (p : Fin NPROC) : Prop :=
  (∃ call, s.pc p = .waitSleep call) ∧ (s.proc p).state = .SLEEPING

/-- No wakeup is lost: a process asleep in `wait` has no `ZOMBIE` child, except while `reparent` has
handed one to `initproc` and its `wakeup(initproc)` has not got there. -/
structure WaitInv (s : ProcSys) : Prop where
  chan : ∀ p, Dozing s p → (s.proc p).chan = .proc p
  -- The children `wait` has passed are not zombies.
  scanned : ∀ p call i havekids, s.pc p = .waitScan call i havekids → ∀ k : Fin NPROC, k.val < i →
    (s.proc k).parent = some p → (s.proc k).state ≠ .ZOMBIE
  quiet : ∀ p k, Dozing s p → (s.proc k).parent = some p → (s.proc k).state = .ZOMBIE →
    ∃ q status n j, s.pc q = .exitReparentWake status n j ∧ p = initproc ∧ j ≤ p.val
  -- `exit` has woken its parent once `wakeup` has passed it.
  woken : ∀ q status j p, s.pc q = .exitWakeup status j → (s.proc q).parent = some p → p.val < j →
    ¬ Dozing s p

section Wait

variable {s : ProcSys} {p i : Fin NPROC} {b : Pc}

theorem TreeInv.holder_unique (h : TreeInv s) {q : Fin NPROC} (hp : (s.pc p).holds = true)
    (hq : (s.pc q).holds = true) : q = p := by
  have hlp := (h.lock p).mpr hp
  have hlq := (h.lock q).mpr hq
  rw [hlp] at hlq
  cases hlq
  rfl

/-- With a `wait_lock` holder that is not handing children over, nobody dozes over a zombie. -/
theorem WaitInv.no_zombie (h : WaitInv s) (ht : TreeInv s) (hp : (s.pc p).holds = true)
    (hpc : ∀ status n j, s.pc p ≠ .exitReparentWake status n j) {r k : Fin NPROC}
    (hr : Dozing s r) (hk : (s.proc k).parent = some r) : (s.proc k).state ≠ .ZOMBIE := by
  intro hz
  obtain ⟨q, status, n, j, hq, -⟩ := h.quiet r k hr hk hz
  have hqp := ht.holder_unique (q := q) hp (by rw [hq]; rfl)
  rw [hqp] at hq
  exact hpc status n j hq

/-! ### Changing an entry -/

variable {x : Proc}

theorem WaitInv.set (h : WaitInv s) (hdoze : x.state = .SLEEPING → ∀ c, s.pc i = .waitSleep c →
      (s.proc i).state = .SLEEPING ∧ x.chan = (s.proc i).chan)
    (hz : x.state = .ZOMBIE → (s.proc i).state = .ZOMBIE ∧ x.parent = (s.proc i).parent)
    (hparent : ∀ status j, s.pc i = .exitWakeup status j → x.parent = (s.proc i).parent) :
    WaitInv (s.set i x) := by
  have hold : ∀ q, Dozing (s.set i x) q →
      Dozing s q ∧ ((s.set i x).proc q).chan = (s.proc q).chan := by
    rintro q ⟨⟨c, hc⟩, hstate⟩
    obtain ⟨hq, hchan⟩ := s.set_all (P := fun q y => s.pc q = .waitSleep c → y.state = .SLEEPING →
      (s.proc q).state = .SLEEPING ∧ y.chan = (s.proc q).chan) (fun hc hx => hdoze hx c hc)
      (fun _ _ hq => ⟨hq, rfl⟩) q hc hstate
    exact ⟨⟨⟨c, hc⟩, hq⟩, hchan⟩
  have hzombie := s.set_all (P := fun k y => y.state = .ZOMBIE →
    (s.proc k).state = .ZOMBIE ∧ y.parent = (s.proc k).parent) hz fun _ hk => ⟨hk, rfl⟩
  constructor
  case chan =>
    intro q hq
    obtain ⟨hdoze, hchan⟩ := hold q hq
    exact hchan.trans (h.chan q hdoze)
  case scanned =>
    intro q c n hk hq k hlt hpar hstate
    obtain ⟨hzold, hsame⟩ := hzombie k hstate
    exact h.scanned q c n hk hq k hlt (hsame.symm.trans hpar) hzold
  case quiet =>
    intro q k hq hpar hstate
    obtain ⟨hzold, hsame⟩ := hzombie k hstate
    exact h.quiet q k (hold q hq).1 (hsame.symm.trans hpar) hzold
  case woken =>
    intro q status j r hq hpar hlt hr
    have hsame := s.set_all (P := fun q y => s.pc q = .exitWakeup status j →
      y.parent = (s.proc q).parent) (hparent status j) (fun _ _ => rfl) q hq
    exact h.woken q status j r hq (hsame.symm.trans hpar) hlt (hold r hr).1

theorem WaitInv.touch (h : WaitInv s) (ht : Touch s i x)
    (hdoze : x.state = .SLEEPING → ∀ c, s.pc i = .waitSleep c →
      (s.proc i).state = .SLEEPING ∧ x.chan = (s.proc i).chan) : WaitInv (s.set i x) := by
  refine h.set hdoze (fun hz => ⟨?_, ht.parent⟩) fun _ _ _ => ht.parent
  exact (ht.same (by rw [hz]; rfl)).symm.trans hz

/-! ### Moving a process on -/

/-- What the point `b` promises about sleepers when process `p` gets there. -/
structure WaitEntry (s : ProcSys) (p : Fin NPROC) (b : Pc) : Prop where
  scanned : ∀ call i havekids, b = .waitScan call i havekids → ∀ k : Fin NPROC, k.val < i →
    (s.proc k).parent = some p → (s.proc k).state ≠ .ZOMBIE
  quiet : ∀ r k status n j, s.pc p = .exitReparentWake status n j → Dozing s r →
    (s.proc k).parent = some r → (s.proc k).state = .ZOMBIE → r = initproc → j ≤ r.val →
    ∃ status n j, b = .exitReparentWake status n j ∧ j ≤ r.val
  woken : ∀ status j r, b = .exitWakeup status j → (s.proc p).parent = some r → r.val < j →
    ¬ Dozing s r

variable {l : Option (Fin NPROC)}

theorem WaitInv.moveTo (h : WaitInv s) (hrun : (s.proc p).state = .RUNNING) (hb : WaitEntry s p b) :
    WaitInv { s.goto p b with waitLock := l } := by
  have hold : ∀ q, Dozing { s.goto p b with waitLock := l } q → Dozing s q := by
    rintro q ⟨⟨c, hc⟩, hstate⟩
    by_cases hqp : q = p
    · have hsleep : (s.proc p).state = .SLEEPING := by rw [← hqp]; exact hstate
      rw [hrun] at hsleep
      cases hsleep
    · exact ⟨⟨c, by simpa only [ProcSys.goto_of_ne s hqp] using hc⟩, hstate⟩
  constructor
  case chan => exact fun q hq => h.chan q (hold q hq)
  case scanned =>
    exact s.goto_all (P := fun q c => ∀ call i havekids, c = .waitScan call i havekids →
      ∀ k : Fin NPROC, k.val < i → (s.proc k).parent = some q → (s.proc k).state ≠ .ZOMBIE)
      hb.scanned h.scanned
  case quiet =>
    intro r k hr hpar hz
    obtain ⟨q, status, n, j, hq, hinit, hj⟩ := h.quiet r k (hold r hr) hpar hz
    by_cases hqp : q = p
    · rw [hqp] at hq
      obtain ⟨status', n', j', hb', hj'⟩ :=
        hb.quiet r k status n j hq (hold r hr) hpar hz hinit hj
      exact ⟨p, status', n', j', by simpa only [ProcSys.goto_self] using hb', hinit, hj'⟩
    · exact ⟨q, status, n, j, by simpa only [ProcSys.goto_of_ne s hqp] using hq, hinit, hj⟩
  case woken =>
    intro q status j r hq hpar hlt hr
    exact s.goto_all (P := fun q c => c = .exitWakeup status j → (s.proc q).parent = some r →
      ¬ Dozing s r) (fun hq hpar => hb.woken status j r hq hpar hlt)
      (fun q hq hpar => h.woken q status j r hq hpar hlt) q hq hpar (hold r hr)

theorem WaitEntry.plain (hpc : ∀ status n j, s.pc p ≠ .exitReparentWake status n j)
    (hscan : ∀ call i havekids, b = .waitScan call i havekids → i = 0)
    (hwake : ∀ status j, b = .exitWakeup status j → j = 0) : WaitEntry s p b where
  scanned := by
    intro c n hk hb k hlt
    rw [hscan c n hk hb] at hlt
    exact absurd hlt (Nat.not_lt_zero _)
  quiet := fun r k status n j hp => absurd hp (hpc status n j)
  woken := by
    intro status j r hb _ hlt
    rw [hwake status j hb] at hlt
    exact absurd hlt (Nat.not_lt_zero _)

theorem WaitInv.plain {a : Pc} (h : WaitInv s) (hp : s.At p a)
    (ha : ∀ status n j, a ≠ .exitReparentWake status n j)
    (hscan : ∀ call i havekids, b = .waitScan call i havekids → i = 0)
    (hwake : ∀ status j, b = .exitWakeup status j → j = 0) :
    WaitInv { s.goto p b with waitLock := l } :=
  h.moveTo hp.running (.plain (hp.pc ▸ ha) hscan hwake)

/-! ### The loops of `exit` and `wait` -/

variable {j : Fin NPROC} {now : UInt64}

theorem not_dozing_wakeup {chan : Chan} (h : WaitInv s) (hchan : chan = .proc j) (hjp : j ≠ p) :
    ¬ Dozing (s.set j (wakeupProc p chan now j (s.proc j))) j := by
  rintro ⟨⟨c, hc⟩, hstate⟩
  rw [ProcSys.set_self] at hstate
  unfold wakeupProc at hstate
  split at hstate
  · cases hstate
  · rename_i hno
    have hslot := h.chan j ⟨⟨c, hc⟩, hstate⟩
    exact hno ⟨hjp, hstate, hslot.trans hchan.symm⟩

theorem WaitInv.touch_wakeup (h : WaitInv s) (ht : TreeInv s) (chan : Chan) (now : UInt64)
    (p j : Fin NPROC) : WaitInv (s.set j (wakeupProc p chan now j (s.proc j))) := by
  refine h.touch (ht.touch_wakeup chan now p j) fun hstate c _ => ?_
  unfold wakeupProc at hstate ⊢
  split at hstate
  · cases hstate
  · rename_i hno
    rw [if_neg hno]
    exact ⟨hstate, rfl⟩

/-- The holder of `wait_lock` changes one entry and moves on, out of the loops: nobody else is in
one. -/
theorem WaitInv.alone (ht : TreeInv s) (hp : (s.pc p).holds = true)
    (hscan : ∀ c n hk, b ≠ .waitScan c n hk) (hwake : ∀ st j, b ≠ .exitWakeup st j)
    (hchan : ∀ q, Dozing { (s.set i x).goto p b with waitLock := l } q →
      ((s.set i x).proc q).chan = .proc q)
    (hquiet : ∀ r k, Dozing { (s.set i x).goto p b with waitLock := l } r →
      ((s.set i x).proc k).parent = some r → ((s.set i x).proc k).state = .ZOMBIE →
      ∃ status n, b = .exitReparentWake status n 0 ∧ r = initproc) :
    WaitInv { (s.set i x).goto p b with waitLock := l } := by
  have hother : ∀ q c, ((s.set i x).goto p b).pc q = c → c.holds = true → q = p ∧ c = b := by
    rintro q _ rfl hc
    by_cases hqp : q = p
    · rw [hqp, ProcSys.goto_self]
      exact ⟨rfl, rfl⟩
    · rw [ProcSys.goto_of_ne _ hqp] at hc
      exact absurd (ht.holder_unique hp hc) hqp
  refine ⟨hchan, fun q c n hk hq => absurd (hother q _ hq rfl).2.symm (hscan c n hk),
    fun r k hr hpar hz => ?_, fun q st j r hq => absurd (hother q _ hq rfl).2.symm (hwake st j)⟩
  obtain ⟨status, n, hb, hinit⟩ := hquiet r k hr hpar hz
  exact ⟨p, status, n, 0, (ProcSys.goto_self ..).trans hb, hinit, Nat.zero_le _⟩

theorem dozing_of_goto {q : Fin NPROC} (hq : Dozing { (s.set i x).goto p b with waitLock := l } q)
    (hqp : q ≠ p) : (∃ c, s.pc q = .waitSleep c) ∧ ((s.set i x).proc q).state = .SLEEPING := by
  obtain ⟨⟨c, hc⟩, hstate⟩ := hq
  exact ⟨⟨c, (ProcSys.goto_of_ne (s.set i x) hqp b).symm.trans hc⟩, hstate⟩

theorem not_dozing_self (hb : ∀ c, b ≠ .waitSleep c) :
    ¬ Dozing { (s.set i x).goto p b with waitLock := l } p := by
  rintro ⟨⟨c, hc⟩, -⟩
  exact hb c ((ProcSys.goto_self (s.set i x) p b).symm.trans hc)

variable {status : Int32}

theorem WaitInv.reparent (h : WaitInv s) (ht : TreeInv s) (hp : s.At p (.exitReparent status i)) :
    WaitInv ((s.set i { s.proc i with parent := some initproc }).goto p
      (.exitReparentWake status i 0)) := by
  have hholds : (s.pc p).holds = true := by rw [hp.pc]; rfl
  have hsame := s.set_all (i := i) (x := { s.proc i with parent := some initproc })
    (P := fun q y => y.state = (s.proc q).state ∧ y.chan = (s.proc q).chan) ⟨rfl, rfl⟩
    fun _ => ⟨rfl, rfl⟩
  have hold : ∀ q, Dozing ((s.set i { s.proc i with parent := some initproc }).goto p
      (.exitReparentWake status i 0)) q → Dozing s q := by
    intro q hq
    have hqp : q ≠ p := by
      rintro rfl
      exact not_dozing_self (l := s.waitLock) (by simp) hq
    obtain ⟨hpc, hstate⟩ := dozing_of_goto (l := s.waitLock) hq hqp
    exact ⟨hpc, (hsame q).1.symm.trans hstate⟩
  refine WaitInv.alone (l := s.waitLock) ht hholds (by simp) (by simp)
    (fun q hq => (hsame q).2.trans (h.chan q (hold q hq))) fun r k hr hpar hz => ?_
  by_cases hki : k = i
  · -- the child just handed over: `initproc` is woken next
    rw [hki, ProcSys.set_self] at hpar
    cases hpar
    exact ⟨status, i, rfl, rfl⟩
  · rw [ProcSys.set_of_ne s hki] at hpar hz
    exact absurd hz (h.no_zombie ht hholds (by simp [hp.pc]) (hold r hr) hpar)

/-- `exit` has woken the parent, so nobody dozes over the new zombie. -/
theorem WaitInv.zombie (h : WaitInv s) (ht : TreeInv s) (hp : s.At p (.exitWakeup status NPROC)) :
    WaitInv { (s.set p { s.proc p with xstate := status, state := .ZOMBIE }).goto p .user with
      waitLock := none } := by
  have hholds : (s.pc p).holds = true := by rw [hp.pc]; rfl
  have hold : ∀ q, Dozing { (s.set p { s.proc p with xstate := status, state := .ZOMBIE }).goto p
      .user with waitLock := none } q → q ≠ p ∧ Dozing s q := by
    intro q hq
    have hqp : q ≠ p := by
      rintro rfl
      exact not_dozing_self (by simp) hq
    obtain ⟨hpc, hstate⟩ := dozing_of_goto hq hqp
    rw [ProcSys.set_of_ne s hqp] at hstate
    exact ⟨hqp, hpc, hstate⟩
  refine WaitInv.alone ht hholds (by simp) (by simp) (fun q hq => ?_) fun r k hr hpar hz => ?_
  · rw [ProcSys.set_of_ne s (hold q hq).1]
    exact h.chan q (hold q hq).2
  · obtain ⟨-, hdoze⟩ := hold r hr
    by_cases hkp : k = p
    · rw [hkp, ProcSys.set_self] at hpar
      -- `wakeup(p->parent)` has passed the parent
      exact absurd hdoze (h.woken p status NPROC r hp.pc hpar r.isLt)
    · rw [ProcSys.set_of_ne s hkp] at hpar hz
      exact absurd hz (h.no_zombie ht hholds (by simp [hp.pc]) hdoze hpar)

/-- Before it sleeps, `wait` has looked at every child under `wait_lock`. -/
theorem WaitInv.waitSleep {call : WaitCall} (h : WaitInv s) (ht : TreeInv s)
    (hp : s.At p (.waitScan call NPROC true)) :
    WaitInv { (s.set p { s.proc p with state := .SLEEPING, chan := .proc p }).goto p
      (.waitSleep call) with waitLock := none } := by
  have hholds : (s.pc p).holds = true := by rw [hp.pc]; rfl
  have hold : ∀ q, q ≠ p → Dozing { (s.set p { s.proc p with state := .SLEEPING, chan := .proc p }).goto
      p (.waitSleep call) with waitLock := none } q → Dozing s q := by
    intro q hqp hq
    obtain ⟨hpc, hstate⟩ := dozing_of_goto hq hqp
    rw [ProcSys.set_of_ne s hqp] at hstate
    exact ⟨hpc, hstate⟩
  refine WaitInv.alone ht hholds (by simp) (by simp) (fun q hq => ?_) fun r k hr hpar hz => ?_
  · by_cases hqp : q = p
    · rw [hqp, ProcSys.set_self]
    · rw [ProcSys.set_of_ne s hqp]
      exact h.chan q (hold q hqp hq)
  · have hkp : k ≠ p := by
      rintro rfl
      rw [ProcSys.set_self] at hz
      cases hz
    rw [ProcSys.set_of_ne s hkp] at hpar hz
    by_cases hrp : r = p
    · rw [hrp] at hpar
      -- the scan has passed all entries, and no child was a zombie
      exact absurd hz (h.scanned p call NPROC true hp.pc k k.isLt hpar)
    · exact absurd hz (h.no_zombie ht hholds (by simp [hp.pc]) (hold r hrp hr) hpar)

theorem WaitInv.scan {call : WaitCall} {havekids havekids' : Bool} (h : WaitInv s)
    (hp : s.At p (.waitScan call i havekids))
    (hi : (s.proc i).parent = some p → (s.proc i).state ≠ .ZOMBIE) :
    WaitInv (s.goto p (.waitScan call (i + 1) havekids')) := by
  refine h.moveTo (l := s.waitLock) hp.running ⟨?_, ?_, by simp⟩
  · intro c n hk hb k hlt hpar
    cases hb
    by_cases hki : k = i
    · rw [hki] at hpar ⊢
      exact hi hpar
    · have : k.val ≠ i.val := fun heq => hki (Fin.ext heq)
      exact h.scanned p call i havekids hp.pc k (by omega) hpar
  · simp [hp.pc]

theorem WaitInv.reparentWake {n : Nat} (h : WaitInv s) (ht : TreeInv s)
    (hp : s.At p (.exitReparentWake status n j)) :
    WaitInv ((s.set j (wakeupProc p (.proc initproc) now j (s.proc j))).goto p
      (.exitReparentWake status n (j + 1))) := by
  have hexit : p ≠ initproc := by
    rintro rfl
    have := ht.initStays
    rw [hp.pc] at this
    cases this
  have h1 := h.touch_wakeup ht (.proc initproc) now p j
  refine h1.moveTo (l := s.waitLock) ?_ ⟨by simp, ?_, by simp⟩
  · by_cases hpj : p = j
    · subst hpj
      rw [ProcSys.set_self, wakeupProc, if_neg (by simp)]
      exact hp.running
    · rw [ProcSys.set_of_ne s hpj]
      exact hp.running
  · intro r k st n' j' hpc hr _ _ hinit hj
    have hpc' : s.pc p = .exitReparentWake st n' j' := hpc
    rw [hp.pc] at hpc'
    cases hpc'
    refine ⟨status, n, j + 1, rfl, ?_⟩
    -- the entry just passed is not asleep on the channel any more
    have hne : j ≠ r := by
      rintro rfl
      exact not_dozing_wakeup h (by rw [hinit]) (by rw [hinit]; exact hexit.symm) hr
    have : j.val ≠ r.val := fun heq => hne (Fin.ext heq)
    omega

theorem WaitInv.exitWakeup (h : WaitInv s) (ht : TreeInv s) (hp : s.At p (.exitWakeup status j)) :
    WaitInv ((s.set j (wakeupProc p (parentChan (s.proc p)) now j (s.proc j))).goto p
      (.exitWakeup status (j + 1))) := by
  have hself : (s.set j (wakeupProc p (parentChan (s.proc p)) now j (s.proc j))).proc p
      = s.proc p := by
    by_cases hpj : p = j
    · subst hpj
      rw [ProcSys.set_self, wakeupProc, if_neg (by simp)]
    · rw [ProcSys.set_of_ne s hpj]
  have h1 := h.touch_wakeup ht (parentChan (s.proc p)) now p j
  refine h1.moveTo (l := s.waitLock) (by rw [hself]; exact hp.running) ⟨by simp, ?_, ?_⟩
  · intro r k st n j' hpc
    have hpc' : s.pc p = .exitReparentWake st n j' := hpc
    rw [hp.pc] at hpc'
    cases hpc'
  · intro st j' r hb hpar hlt
    cases hb
    rw [hself] at hpar
    by_cases hrj : r = j
    · subst hrj
      have hchan : parentChan (s.proc p) = .proc r := by rw [parentChan, hpar]
      have hne : r ≠ p := by
        rintro rfl
        exact absurd (ht.parent r r hpar).2 (lt_irrefl _)
      exact not_dozing_wakeup h hchan hne
    · have hval : r.val ≠ j.val := fun heq => hrj (Fin.ext heq)
      exact h1.woken p status j r hp.pc (by rw [hself]; exact hpar) (by omega)

end Wait

theorem WaitInv.step {s s' : ProcSys} (h : WaitInv s) (ht : TreeInv s) (hstep : ProcStep s s') :
    WaitInv s' := by
  cases hstep with
  | sched | yield | wakeup =>
    refine h.set (fun hx => by cases hx) (fun hx => by cases hx) fun _ _ _ => rfl
  | sleep p chan hp _ =>
    refine h.set (fun _ c hc => ?_) (fun hx => by cases hx) fun _ _ _ => rfl
    rw [hp.pc] at hc
    cases hc
  | kill i =>
    refine h.touch (ht.touch_kill i) fun hstate c _ => ?_
    by_cases hs : (s.proc i).state = .SLEEPING
    · simp [killProc, hs] at hstate
    · simp [killProc, hs] at hstate
  | fork _ hp | forkNone _ hp | reparentSkip _ _ _ hp | reparentDone _ _ hp =>
    exact h.plain (l := s.waitLock) hp (by simp) (by simp) (by simp)
  | forkSkip p i hp _ =>
    have h1 : WaitInv (s.goto p (.forkScan (i + 1))) :=
      h.plain (l := s.waitLock) hp (by simp) (by simp) (by simp)
    exact h1.set (x := { s.proc i with cputime := 0 }) (fun hx _ _ => ⟨hx, rfl⟩)
      (fun hx => ⟨hx, rfl⟩) fun _ _ _ => rfl
  | forkFail p i hp hi =>
    have hidle := ht.idle (i := i) (by rw [hi]; rfl)
    have hpi : i ≠ p := fun heq => by rw [heq, hp.running] at hi; cases hi
    have h1 : WaitInv (s.goto p .user) :=
      h.plain (l := s.waitLock) hp (by simp) (by simp) (by simp)
    have h2 := h1.set (i := i) (x := freeproc (s.proc i)) (fun hx => by cases hx)
      (fun hx => by cases hx) fun st j hpc => by
        rw [ProcSys.goto_of_ne s hpi, hidle] at hpc
        cases hpc
    exact ⟨h2.chan, h2.scanned, h2.quiet, h2.woken⟩
  | forkAlloc p i hp hi =>
    have h1 : WaitInv (s.goto p (.forkLink i)) :=
      h.plain (l := s.waitLock) hp (by simp) (by simp) (by simp)
    have h2 := h1.set (i := i) (x := { s.proc i with pid := s.nextpid, state := .USED })
      (fun hx => by cases hx) (fun hx => by cases hx) fun _ _ _ => rfl
    exact ⟨h2.chan, h2.scanned, h2.quiet, h2.woken⟩
  | forkLink p np hp _ =>
    obtain ⟨hused, -⟩ := ht.link p np hp.pc
    have hidle := ht.idle (i := np) (by rw [hused]; rfl)
    have hnp : np ≠ p := fun heq => by rw [heq, hp.running] at hused; cases hused
    have h1 : WaitInv (s.goto p (.forkRun np)) :=
      h.plain (l := s.waitLock) hp (by simp) (by simp) (by simp)
    refine h1.set (x := { s.proc np with parent := some p }) (fun hx _ _ => ⟨hx, rfl⟩)
      (fun hx => ?_) fun st j hpc => ?_
    · rw [show (s.proc np).state = .ZOMBIE from hx] at hused
      cases hused
    · rw [ProcSys.goto_of_ne s hnp, hidle] at hpc
      cases hpc
  | forkRun p np hp =>
    have h1 : WaitInv (s.goto p .user) :=
      h.plain (l := s.waitLock) hp (by simp) (by simp) (by simp)
    exact h1.set (x := { s.proc np with state := .RUNNABLE }) (fun hx => by cases hx)
      (fun hx => by cases hx) fun _ _ _ => rfl
  | exit p status hp hinit hlock =>
    have h1 := h.plain (b := .exitReparent status 0) (l := some p) hp (by simp) (by simp) (by simp)
    exact ⟨h1.chan, h1.scanned, h1.quiet, h1.woken⟩
  | reparent p i status hp hi => exact h.reparent ht hp
  | reparentWake p j i status now hp => exact h.reparentWake ht hp
  | reparentWoken p i status hp =>
    refine h.moveTo (l := s.waitLock) hp.running ⟨by simp, ?_, by simp⟩
    -- the loop has passed every entry
    intro r k st n j' hpc _ _ _ _ hj
    rw [hp.pc] at hpc
    cases hpc
    exact absurd r.isLt (Nat.not_lt.mpr hj)
  | exitWakeup p j status now hp => exact h.exitWakeup ht hp
  | exitZombie p status hp => exact h.zombie ht hp
  | wait _ _ hp | waitCopyFail _ _ _ _ hp | waitNone _ _ _ hp | waitWake _ _ hp =>
    exact h.plain hp (by simp) (by simp) (by simp)
  | waitOther p i call hk hp hi => exact h.scan hp fun hpar => absurd hpar hi
  | waitChild p i call hk hp _ hz => exact h.scan hp fun _ => hz
  | waitReap p i call hk hp hi hz =>
    have hidle := ht.idle (i := i) (by rw [hz]; rfl)
    have hpi : i ≠ p := fun heq => by rw [heq, hp.running] at hz; cases hz
    have h1 := h.plain (b := .user) (l := none) hp (by simp) (by simp) (by simp)
    have h2 := h1.set (i := i) (x := freeproc (s.proc i)) (fun hx => by cases hx)
      (fun hx => by cases hx) fun st j hpc => by
        have hpci : (s.goto p .user).pc i = .exitWakeup st j := hpc
        rw [ProcSys.goto_of_ne s hpi, hidle] at hpci
        cases hpci
    exact ⟨h2.chan, h2.scanned, h2.quiet, h2.woken⟩
  | waitSleep p call hp _ => exact h.waitSleep ht hp

end Xv6
