import Xv6.Lib.Ring
import Xv6.Virtio.Desc

/-!
# The protocol between the disk driver and the device

A published request goes from the available ring to the device, which takes it, serves it and posts
it to the used ring, where the interrupt handler finds it and marks its buffer done. `unserved` are
the requests on the way before the device has served them, `answered` those after. The invariant has
three parts: the calls and the lock (`CallsOk`), the descriptors (`DescsOk`) and the requests on
their way (`QueueOk`).
-/

namespace Xv6

open Machines Function List

variable {P B D : Type} {blockno : B → UInt32}

/-! ## Calls and the lock -/

def DiskPc.Locked : DiskPc B → Prop
  | idle => False
  | enter _ => False
  | alloc _ => True
  | own st _ _ => st ≠ .asleep

/-- At most one call holds the lock, and no two have a buffer or a number in common. -/
structure CallsOk (proc : P → DiskPc B) (lock : VdiskLock P) (count : Nat) : Prop where
  lock : ∀ {p}, (proc p).Locked → lock = .proc p
  distinct : ∀ {p q c d}, (proc p).call = some c → (proc q).call = some d →
    c.b = d.b ∨ c.id = d.id → p = q
  lt : ∀ {p c}, (proc p).call = some c → c.id < count

namespace CallsOk

variable {proc : P → DiskPc B} {lock lock' : VdiskLock P} {count : Nat} {p : P}
  {pc : DiskPc B}

variable (h : CallsOk proc lock count)

include h

theorem sole {q : P} (hp : (proc p).Locked) (hq : (proc q).Locked) :
    p = q := by
  have := (h.lock hp).symm.trans (h.lock hq)
  cases this
  rfl

theorem move [DecidableEq P] (hpc : pc.call = (proc p).call ∨ pc.call = none)
    (hp : pc.Locked → lock' = .proc p) (hq : ∀ q ≠ p, lock = .proc q → lock' = .proc q) :
    CallsOk (update proc p pc) lock' count := by
  have hcall : ∀ {q c}, (update proc p pc q).call = some c → (proc q).call = some c := by
    intro q c hc
    rcases update_cases (C := (DiskPc.call · = some c)) hc with ⟨rfl, hnew⟩ | ⟨-, hold⟩
    · rcases hpc with h | h
      · rw [← h, hnew]
      · rw [h] at hnew
        cases hnew
    · exact hold
  refine ⟨fun {q} hl => ?_, fun hc hd => h.distinct (hcall hc) (hcall hd),
    fun hc => h.lt (hcall hc)⟩
  rcases update_cases hl with ⟨rfl, hpl⟩ | ⟨hqp, hl⟩
  · exact hp hpl
  · exact hq q hqp (h.lock hl)

theorem relock (hl : ∀ p, lock ≠ .proc p) :
    CallsOk proc lock' count :=
  ⟨fun hp => absurd (h.lock hp) (hl _), h.distinct, h.lt⟩

theorem call [DecidableEq P] {b : B} {write : Bool} (hb : ∀ q c, (proc q).call = some c → c.b ≠ b) :
    CallsOk (update proc p (.enter ⟨b, write, count⟩)) lock (count + 1) := by
  have hcall : ∀ {q c}, (update proc p (.enter ⟨b, write, count⟩) q).call = some c →
      q = p ∧ c = ⟨b, write, count⟩ ∨ q ≠ p ∧ (proc q).call = some c := by
    intro q c hc
    rcases update_cases (C := (DiskPc.call · = some c)) hc with ⟨hq, hnew⟩ | hold
    · cases hnew
      exact .inl ⟨hq, rfl⟩
    · exact .inr hold
  refine ⟨fun {q} hl => ?_, fun {q r c d} hc hd heq => ?_, fun {q c} hc => ?_⟩
  · rcases update_cases hl with ⟨-, hl⟩ | ⟨-, hl⟩
    · exact hl.elim
    · exact h.lock hl
  · rcases hcall hc with ⟨rfl, rfl⟩ | ⟨-, hc'⟩
    · rcases hcall hd with ⟨rfl, -⟩ | ⟨-, hd'⟩
      · rfl
      · have h1 := hb _ _ hd'
        have h2 := h.lt hd'
        rcases heq with heq | heq
        · exact absurd heq.symm h1
        · exact absurd heq h2.ne'
    · rcases hcall hd with ⟨rfl, rfl⟩ | ⟨-, hd'⟩
      · have h1 := hb _ _ hc'
        have h2 := h.lt hc'
        rcases heq with heq | heq
        · exact absurd heq h1
        · exact absurd heq h2.ne
      · exact h.distinct hc' hd' heq
  · rcases hcall hc with ⟨-, rfl⟩ | ⟨-, hc⟩
    · exact Nat.lt_succ_self _
    · exact (h.lt hc).trans (Nat.lt_succ_self _)

end CallsOk

/-! ## Requests on their way -/

/-- A request that is ready for publication (`false`) or published (`true`). -/
def DiskPc.request : DiskPc B → Option (Bool × DiskCall B × DescChain)
  | own .publish c x => some (false, c, x)
  | own .wait c x => some (true, c, x)
  | own .asleep c x => some (true, c, x)
  | _ => none

theorem DiskPc.own_of_request {pc : DiskPc B} {f : Bool} {c : DiskCall B} {x : DescChain}
    (h : pc.request = some (f, c, x)) : ∃ st ≠ .format, pc = .own st c x := by
  cases pc with
  | own st d y =>
    cases st with
    | format => cases h
    | _ =>
      cases h
      exact ⟨_, by decide, rfl⟩
  | _ => cases h

theorem DiskPc.call_of_request {pc : DiskPc B} {f : Bool} {c : DiskCall B} {x : DescChain}
    (h : pc.request = some (f, c, x)) : pc.call = some c := by
  obtain ⟨st, -, rfl⟩ := DiskPc.own_of_request h
  rfl

theorem DiskPc.chain_of_request {pc : DiskPc B} {f : Bool} {c : DiskCall B} {x : DescChain}
    (h : pc.request = some (f, c, x)) : pc.chain = some x := by
  obtain ⟨st, -, rfl⟩ := DiskPc.own_of_request h
  rfl

theorem DiskPc.locked_of_request {pc : DiskPc B} {c : DiskCall B} {x : DescChain}
    (h : pc.request = some (false, c, x)) : pc.Locked := by
  obtain ⟨st, -, rfl⟩ := DiskPc.own_of_request h
  cases st with
  | asleep => cases h
  | _ => exact nofun

namespace VirtioSys

variable (s : VirtioSys P B D)

def availQ : List Nat := Ring.queue s.m.avail.ring NUM s.dev.seen s.m.avail.idx

def usedQ : List Nat := Ring.queue s.m.used.ring NUM s.m.usedIdx s.m.used.idx

def unserved : List Nat := s.availQ ++ s.dev.taken

def answered : List Nat := s.dev.served ++ s.usedQ

def pending : List Nat := s.unserved ++ s.answered

/-- `h` is the head of a published request whose buffer is not yet marked done. -/
def Flies (h : Nat) : Prop :=
  ∃ p c x, (s.proc p).request = some (true, c, x) ∧ x.head = h ∧ s.m.busy c.b = true

end VirtioSys

/-- Each published request is on its way exactly once; the device serves it once, and a call has
returned only if its own request was served. -/
structure QueueOk (blockno : B → UInt32) (s : VirtioSys P B D) : Prop where
  ready : ∀ {p c x}, (s.proc p).request = some (false, c, x) →
    s.m.avail.ring (s.m.avail.idx.toNat % NUM) = x.head ∧ s.m.busy c.b = true
  nodup : s.pending.Nodup
  flight : ∀ {h}, h ∈ s.pending ↔ s.Flies h
  status : ∀ {h}, h ∈ s.answered → (s.m.info h).status = 0
  -- the device has served what it has not still to serve
  done : ∀ {p c x}, (s.proc p).request = some (true, c, x) → x.head ∉ s.unserved →
    (c.id, c.request blockno) ∈ s.log
  todo : ∀ {p c}, (s.proc p).call = some c → c.id ∈ s.log.map Prod.fst →
    ∃ x, (s.proc p).request = some (true, c, x) ∧ x.head ∉ s.unserved
  once : (s.log.map Prod.fst).Nodup
  lt : ∀ i ∈ s.log.map Prod.fst, i < s.count
  ret : ∀ c ∈ s.returned, (c.id, c.request blockno) ∈ s.log

namespace QueueOk

variable {s s' : VirtioSys P B D}

/-- Steps that leave the rings, the device and the flags alone: a process moves on without
publishing, begins a call, or leaves with its buffer marked done. -/
theorem quiet (h : QueueOk blockno s) (havail : s'.m.avail = s.m.avail)
    (hused : s'.m.used = s.m.used) (hidx : s'.m.usedIdx = s.m.usedIdx)
    (hbusy : s'.m.busy = s.m.busy) (hstatus : ∀ i, (s'.m.info i).status = (s.m.info i).status)
    (hdev : s'.dev = s.dev) (hlog : s'.log = s.log) (hcount : s.count ≤ s'.count)
    (hret : ∀ c ∈ s'.returned, (c.id, c.request blockno) ∈ s.log)
    (hreq : ∀ p, (s'.proc p).request = (s.proc p).request ∨
      (s'.proc p).request = none ∧ (s'.proc p).call = none ∧
        ∀ c x, (s.proc p).request = some (true, c, x) → s.m.busy c.b = false)
    (hcall : ∀ p c, (s'.proc p).call = some c →
      (s.proc p).call = some c ∨ c.id ∉ s.log.map Prod.fst) : QueueOk blockno s' := by
  have hold : ∀ {p r}, (s'.proc p).request = some r → (s.proc p).request = some r := by
    intro p r hr
    rcases hreq p with heq | ⟨hnone, -⟩
    · rw [← heq, hr]
    · rw [hnone] at hr
      cases hr
  have hun : s'.unserved = s.unserved := by
    simp only [VirtioSys.unserved, VirtioSys.availQ, havail, hdev]
  have han : s'.answered = s.answered := by
    simp only [VirtioSys.answered, VirtioSys.usedQ, hused, hidx, hdev]
  have hpend : s'.pending = s.pending := by rw [VirtioSys.pending, hun, han, VirtioSys.pending]
  have hflies : ∀ h, s'.Flies h ↔ s.Flies h := by
    intro i
    constructor
    · intro ⟨p, c, x, hp, hx, hb⟩
      exact ⟨p, c, x, hold hp, hx, hbusy ▸ hb⟩
    · intro ⟨p, c, x, hp, hx, hb⟩
      rcases hreq p with heq | ⟨-, -, hfalse⟩
      · exact ⟨p, c, x, heq.trans hp, hx, hbusy.symm ▸ hb⟩
      · rw [hfalse c x hp] at hb
        cases hb
  refine
    { ready := fun hp => by rw [havail, hbusy]; exact h.ready (hold hp)
      nodup := hpend ▸ h.nodup
      flight := fun {i} => by rw [hpend, hflies i]; exact h.flight
      status := fun hi => by rw [hstatus]; exact h.status (han ▸ hi)
      done := fun hp hx => by rw [hlog]; exact h.done (hold hp) (hun ▸ hx)
      todo := fun {p c} hc hi => ?_
      once := hlog ▸ h.once
      lt := fun i hi => (h.lt i (hlog ▸ hi)).trans_le hcount
      ret := fun c hc => by rw [hlog]; exact hret c hc }
  rw [hlog] at hi
  rcases hcall p c hc with hc' | hnew
  · obtain ⟨x, hp, hx⟩ := h.todo hc' hi
    rcases hreq p with heq | ⟨-, hnone, -⟩
    · exact ⟨x, heq.trans hp, hun.symm ▸ hx⟩
    · rw [hnone] at hc
      cases hc
  · exact absurd hi hnew

section Steps

variable {p : P} {c : DiskCall B} {x : DescChain}

theorem move [DecidableEq P] (h : QueueOk blockno s) {p : P} {pc : DiskPc B} {m : Vdisk B D}
    {lock : VdiskLock P} (havail : m.avail = s.m.avail) (hused : m.used = s.m.used)
    (hidx : m.usedIdx = s.m.usedIdx) (hbusy : m.busy = s.m.busy) (hinfo : m.info = s.m.info)
    (hreq : pc.request = (s.proc p).request) (hcall : pc.call = (s.proc p).call) :
    QueueOk blockno { s.setPc p pc with m := m, lock := lock } := by
  exact h.quiet havail hused hidx hbusy (fun i => by rw [hinfo]) rfl rfl le_rfl h.ret
    (fun _ => .inl (update_unseen hreq)) fun _ _ hc => .inl ((update_unseen hcall).symm.trans hc)

theorem relock (h : QueueOk blockno s) {lock : VdiskLock P} :
    QueueOk blockno { s with lock := lock } :=
  h.quiet rfl rfl rfl rfl (fun _ => rfl) rfl rfl le_rfl h.ret (fun _ => .inl rfl)
    fun _ _ hc => .inl hc

variable {i : Nat}

theorem owner (h : QueueOk blockno s) (hd : DescsOk blockno s.proc s.m s.tag) (hi : i ∈ s.pending) :
    ∃ p c x, (s.proc p).request = some (true, c, x) ∧ x.head = i ∧
      s.m.busy c.b = true ∧ Formed blockno s.m c x ∧ s.tag i = c.id ∧ i < NUM := by
  obtain ⟨p, c, x, hp, rfl, hb⟩ := h.flight.1 hi
  obtain ⟨st, hst, hown⟩ := DiskPc.own_of_request hp
  obtain ⟨hf, ht⟩ := hd.formed hown hst
  exact ⟨p, c, x, hp, rfl, hb, hf, ht, (hd.chains.ok (DescsOk.chain_eq hown)).lt _ (by simp)⟩

theorem head_inj (hd : DescsOk blockno s.proc s.m s.tag) {q : P} {y : DescChain}
    (hp : (s.proc p).chain = some x) (hq : (s.proc q).chain = some y) (heq : x.head = y.head) :
    p = q := hd.chains.apart hp hq (i := x.head) (by simp) (by simp [heq])

/-- What a call waits for: its buffer is marked done only after the device has served it. -/
theorem done_of_busy (h : QueueOk blockno s) (hd : DescsOk blockno s.proc s.m s.tag) {p : P}
    {c : DiskCall B} {x : DescChain} (hp : (s.proc p).request = some (true, c, x))
    (hb : s.m.busy c.b = false) : (c.id, c.request blockno) ∈ s.log := by
  refine h.done hp fun hin => ?_
  obtain ⟨q, d, y, hq, hy, hbq⟩ := h.flight.1 (mem_append_left _ hin)
  obtain rfl := head_inj hd (DiskPc.chain_of_request hq) (DiskPc.chain_of_request hp) hy
  rw [hp] at hq
  cases hq
  rw [hb] at hbq
  cases hbq

theorem head_notMem (h : QueueOk blockno s) (hd : DescsOk blockno s.proc s.m s.tag)
    (hp : (s.proc p).chain = some x) (hst : ∀ d y, (s.proc p).request ≠ some (true, d, y)) :
    x.head ∉ s.pending := by
  intro hmem
  obtain ⟨q, d, y, hq, heq, -⟩ := h.flight.1 hmem
  obtain rfl := head_inj hd hp (DiskPc.chain_of_request hq) heq.symm
  exact hst d y hq

theorem not_served (h : QueueOk blockno s) (hp : (s.proc p).call = some c)
    (hst : ∀ d y, (s.proc p).request ≠ some (true, d, y)) : c.id ∉ s.log.map Prod.fst := by
  intro hin
  obtain ⟨y, hy, -⟩ := h.todo hp hin
  exact hst c y hy

theorem length_lt {l : List Nat} (hnodup : (i :: l).Nodup) (hlt : ∀ j ∈ i :: l, j < NUM) :
    l.length < NUM := by
  have hsub : (i :: l).toFinset ⊆ Finset.range NUM := fun j hj =>
    Finset.mem_range.2 (hlt j (mem_toFinset.1 hj))
  have hcard := Finset.card_le_card hsub
  rwa [toFinset_card_of_nodup hnodup, Finset.card_range] at hcard

variable (h : QueueOk blockno s)

include h

theorem lt_of_mem (hd : DescsOk blockno s.proc s.m s.tag) (hi : i ∈ s.pending) : i < NUM := by
  obtain ⟨-, -, -, -, -, -, -, -, hlt⟩ := h.owner hd hi
  exact hlt

theorem availQ_room (hd : DescsOk blockno s.proc s.m s.tag) (hp : (s.proc p).chain = some x)
    (hst : ∀ d y, (s.proc p).request ≠ some (true, d, y)) : s.availQ.length < NUM := by
  have hnot := h.head_notMem hd hp hst
  have hmem : ∀ j ∈ s.availQ, j ∈ s.pending := fun j hj => by
    simp [VirtioSys.pending, VirtioSys.unserved, hj]
  have hsub : s.availQ.Sublist s.pending :=
    (sublist_append_left _ _).trans (sublist_append_left _ _)
  refine length_lt (nodup_cons.2 ⟨fun hin => hnot (hmem _ hin), h.nodup.sublist hsub⟩) ?_
  intro j hj
  rcases mem_cons.1 hj with rfl | hj
  · exact (hd.chains.ok hp).lt _ (by simp)
  · exact h.lt_of_mem hd (hmem j hj)

/-- Requests go from one place to another without being served or marked done. -/
theorem shuffle (hproc : s'.proc = s.proc) (havail : s'.m.avail = s.m.avail)
    (hbusy : s'.m.busy = s.m.busy) (hinfo : s'.m.info = s.m.info) (hlog : s'.log = s.log)
    (hcount : s'.count = s.count) (hret : s'.returned = s.returned)
    (hun : s'.unserved.Perm s.unserved) (han : s'.answered.Perm s.answered) :
    QueueOk blockno s' := by
  have hpend : s'.pending.Perm s.pending := hun.append han
  have hflies : ∀ i, s'.Flies i ↔ s.Flies i := fun i => by
    simp only [VirtioSys.Flies, hproc, hbusy]
  exact
    { ready := by rw [hproc, havail, hbusy]; exact h.ready
      nodup := hpend.nodup_iff.2 h.nodup
      flight := fun {i} => by rw [hpend.mem_iff, hflies i]; exact h.flight
      status := fun hi => by rw [hinfo]; exact h.status (han.mem_iff.1 hi)
      done := by simp only [hproc, hlog, hun.mem_iff]; exact h.done
      todo := by simp only [hproc, hlog, hun.mem_iff]; exact h.todo
      once := hlog ▸ h.once
      lt := by rw [hlog, hcount]; exact h.lt
      ret := by rw [hlog, hret]; exact h.ret }

theorem take (ha : s.dev.seen ≠ s.m.avail.idx) :
    QueueOk blockno { s with dev := { s.dev with
      seen := s.dev.seen + 1
      taken := s.m.avail.ring (s.dev.seen.toNat % NUM) :: s.dev.taken } } := by
  refine h.shuffle rfl rfl rfl rfl rfl rfl rfl ?_ (.refl _)
  show (Ring.queue _ NUM (s.dev.seen + 1) _ ++ _ :: s.dev.taken).Perm (s.availQ ++ _)
  rw [VirtioSys.availQ, Ring.queue_pop (by decide) ha]
  exact perm_middle

theorem post (hd : DescsOk blockno s.proc s.m s.tag) (hi : i ∈ s.dev.served) :
    QueueOk blockno { s with
      m := { s.m with used := {
        idx := s.m.used.idx + 1
        ring := update s.m.used.ring (s.m.used.idx.toNat % NUM) i } }
      dev := { s.dev with served := s.dev.served.erase i } } := by
  have hroom : s.usedQ.length < NUM := by
    have hmem : ∀ j ∈ i :: s.usedQ, j ∈ s.pending := fun j hj => by
      refine mem_append_right _ (mem_append.2 ?_)
      rcases mem_cons.1 hj with rfl | hj
      · exact .inl hi
      · exact .inr hj
    have hans := nodup_append.1 (nodup_append.1 h.nodup).2.1
    exact length_lt (nodup_cons.2 ⟨fun hu => hans.2.2 i hi i hu rfl, hans.2.1⟩)
      fun j hj => h.lt_of_mem hd (hmem j hj)
  have hused : Ring.queue (update s.m.used.ring (s.m.used.idx.toNat % NUM) i) NUM s.m.usedIdx
      (s.m.used.idx + 1) = s.usedQ ++ [i] := by
    have hwrite := Ring.queue_write (N := NUM) (by decide) hroom i
    rw [Ring.queue_snoc (by decide) (by decide) (hwrite ▸ hroom), hwrite, update_self]
    rfl
  refine h.shuffle rfl rfl rfl rfl rfl rfl rfl (.refl _) ?_
  show (s.dev.served.erase i ++ Ring.queue _ NUM s.m.usedIdx (s.m.used.idx + 1)).Perm _
  rw [hused, ← append_assoc]
  exact (perm_append_singleton i _).trans
    ((perm_cons_erase hi).append_right s.usedQ).symm

/-- The device serves a chain: it reads the request of the call from it, for the first time. -/
theorem serve [DecidableEq B] (hd : DescsOk blockno s.proc s.m s.tag)
    (hc : CallsOk s.proc s.lock s.count) {j : Nat} {r : DiskRequest B} (hi : i ∈ s.dev.taken)
    (hdec : s.m.decode i = some (r, j)) : QueueOk blockno (s.transfer r i j) := by
  have hmem : i ∈ s.pending :=
    mem_append_left _ (mem_append_right _ hi)
  obtain ⟨p, c, x, hp, rfl, hb, hf, ht, -⟩ := h.owner hd hmem
  obtain ⟨rfl, rfl⟩ : c.request blockno = r ∧ x.head = j := by
    have := hf.decode.symm.trans hdec
    simpa using this
  have hpc := DiskPc.call_of_request hp
  have hmemun : x.head ∈ s.unserved := mem_append_right _ hi
  have hnew : c.id ∉ s.log.map Prod.fst := fun hin => by
    obtain ⟨y, hy, hnot⟩ := h.todo hpc hin
    rw [hp] at hy
    cases hy
    exact hnot hmemun
  generalize hs' : s.transfer (c.request blockno) x.head x.head = s'
  have hun : s.unserved.Perm (x.head :: s'.unserved) := by
    rw [← hs', VirtioSys.unserved, VirtioSys.unserved]
    refine (List.Perm.append_left _ (perm_cons_erase hi)).trans ?_
    exact perm_middle
  have han : s'.answered = x.head :: s.answered := by rw [← hs']; rfl
  have hpend : s'.pending.Perm s.pending := by
    rw [VirtioSys.pending, VirtioSys.pending, han]
    exact perm_middle.trans (hun.symm.append_right _)
  have hout : x.head ∉ s'.unserved := by
    have := hun.nodup_iff.1 (nodup_append.1 h.nodup).1
    exact (nodup_cons.1 this).1
  have hlog : s'.log = (c.id, c.request blockno) :: s.log := by
    rw [← hs', ← ht]
    rfl
  have hstatus : ∀ k, (s'.m.info k).status = if k = x.head then 0 else (s.m.info k).status := by
    intro k
    rw [← hs']
    show (update s.m.info x.head _ k).status = _
    rw [update_apply, apply_ite DiskInfo.status]
  have hproc : s'.proc = s.proc := by rw [← hs']; rfl
  have hbusy : s'.m.busy = s.m.busy := by rw [← hs']; rfl
  have havail : s'.m.avail = s.m.avail := by rw [← hs']; rfl
  have hcount : s'.count = s.count := by rw [← hs']; rfl
  have hret : s'.returned = s.returned := by rw [← hs']; rfl
  have hflies : ∀ k, s'.Flies k ↔ s.Flies k := fun k => by
    simp only [VirtioSys.Flies, hproc, hbusy]
  refine
    { ready := by rw [hproc, havail, hbusy]; exact h.ready
      nodup := hpend.nodup_iff.2 h.nodup
      flight := fun {k} => by rw [hpend.mem_iff, hflies k]; exact h.flight
      status := fun {k} hk => ?_
      done := fun {q d y} hq hy => ?_
      todo := fun {q d} hq hin => ?_
      once := by
        rw [hlog]
        exact nodup_cons.2 ⟨hnew, h.once⟩
      lt := ?_
      ret := fun d hd => by
        rw [hlog]
        exact mem_cons_of_mem _ (h.ret d (hret ▸ hd)) }
  · rw [hstatus]
    split
    case isTrue => rfl
    case isFalse hne =>
      rw [han] at hk
      exact h.status (mem_of_ne_of_mem hne hk)
  · rw [hproc] at hq
    rw [hlog]
    by_cases hin : y.head ∈ s.unserved
    · -- then it is the request just served
      have heq : y.head = x.head := by
        by_contra hne
        exact hy (mem_of_ne_of_mem hne (hun.mem_iff.1 hin))
      obtain rfl := head_inj hd (DiskPc.chain_of_request hq) (DiskPc.chain_of_request hp) heq
      rw [hp] at hq
      cases hq
      exact mem_cons_self
    · exact mem_cons_of_mem _ (h.done hq hin)
  · rw [hproc] at hq ⊢
    rw [hlog, map_cons] at hin
    rcases mem_cons.1 hin with heq | hin
    · obtain rfl := hc.distinct hq hpc (.inr heq)
      rw [hpc] at hq
      cases hq
      exact ⟨x, hp, hout⟩
    · obtain ⟨y, hy, hnot⟩ := h.todo hq hin
      exact ⟨y, hy, fun h' => hnot (hun.mem_iff.2 (mem_cons_of_mem _ h'))⟩
  · rw [hlog, hcount]
    intro k hk
    rcases mem_cons.1 hk with rfl | hk
    · exact hc.lt hpc
    · exact h.lt k hk

/-- A call that has not published its request makes it ready or publishes it. The other calls do not
see this: they have other buffers and other heads. -/
theorem advance (hd : DescsOk blockno s.proc s.m s.tag) (hc : CallsOk s.proc s.lock s.count)
    {st : DiskStage} {f : Bool} (hp : s.proc p = .own st c x)
    (hst : ∀ d y, (s.proc p).request ≠ some (true, d, y))
    (hself : (s'.proc p).request = some (f, c, x) ∧ (s'.proc p).call = some c)
    (hother : ∀ q ≠ p, s'.proc q = s.proc q) (hlog : s'.log = s.log)
    (hcount : s'.count = s.count) (hret : s'.returned = s.returned)
    (hun : s'.unserved.Perm (if f then x.head :: s.unserved else s.unserved))
    (han : s'.answered = s.answered) (hbusy : ∀ b ≠ c.b, s'.m.busy b = s.m.busy b)
    (hstatus : ∀ i ≠ x.head, (s'.m.info i).status = (s.m.info i).status)
    (hready : s'.m.busy c.b = true ∧
      (f = false → s'.m.avail.ring (s'.m.avail.idx.toNat % NUM) = x.head)) :
    QueueOk blockno s' := by
  have hcall : (s.proc p).call = some c := by rw [hp]; rfl
  have hlocked : (s.proc p).Locked := by
    rw [hp]
    rintro rfl
    exact hst c x (by rw [hp]; rfl)
  have hnot := h.head_notMem hd (DescsOk.chain_eq hp) hst
  have hmem : ∀ {i}, i ∈ s'.unserved ↔ f = true ∧ i = x.head ∨ i ∈ s.unserved := fun {i} => by
    rw [hun.mem_iff]
    cases f <;> simp
  have hpend : s'.pending.Perm (if f then x.head :: s.pending else s.pending) := by
    rw [VirtioSys.pending, VirtioSys.pending, han]
    cases f <;> exact hun.append_right _
  have hbusyq : ∀ {q f d y}, q ≠ p → (s.proc q).request = some (f, d, y) →
      s'.m.busy d.b = s.m.busy d.b := fun hq hreq =>
    hbusy _ fun heq => hq (hc.distinct (DiskPc.call_of_request hreq) hcall (.inl heq))
  have hflies : ∀ i, s'.Flies i ↔ f = true ∧ i = x.head ∨ s.Flies i := by
    intro i
    constructor
    · intro ⟨q, d, y, hq, hy, hb⟩
      by_cases hqp : q = p
      · subst hqp
        rw [hself.1] at hq
        cases hq
        exact .inl ⟨rfl, hy.symm⟩
      · rw [hother q hqp] at hq
        exact .inr ⟨q, d, y, hq, hy, hbusyq hqp hq ▸ hb⟩
    · rintro (⟨rfl, rfl⟩ | ⟨q, d, y, hq, hy, hb⟩)
      · exact ⟨p, c, x, hself.1, rfl, hready.1⟩
      · have hqp : q ≠ p := by
          rintro rfl
          exact hst d y hq
        exact ⟨q, d, y, by rw [hother q hqp, hq], hy, (hbusyq hqp hq).trans hb⟩
  refine
    { ready := fun {q d y} hq => ?_
      nodup := hpend.nodup_iff.2 ?_
      flight := fun {i} => ?_
      status := fun {i} hi => ?_
      done := fun {q d y} hq hy => ?_
      todo := fun {q d} hq hin => ?_
      once := hlog ▸ h.once
      lt := by rw [hlog, hcount]; exact h.lt
      ret := by rw [hlog, hret]; exact h.ret }
  · -- no one else is about to publish
    obtain rfl : q = p := by
      by_contra hqp
      rw [hother q hqp] at hq
      exact hqp (hc.sole (DiskPc.locked_of_request hq) hlocked)
    rw [hself.1] at hq
    cases hq
    exact ⟨hready.2 rfl, hready.1⟩
  · cases f with
    | false => exact h.nodup
    | true => exact nodup_cons.2 ⟨hnot, h.nodup⟩
  · rw [hpend.mem_iff, hflies, ← h.flight]
    cases f <;> simp
  · rw [han] at hi
    rw [hstatus i fun heq => hnot (heq ▸ mem_append_right _ hi)]
    exact h.status hi
  · rw [hlog]
    by_cases hqp : q = p
    · subst hqp
      rw [hself.1] at hq
      cases hq
      exact absurd (hmem.2 (.inl ⟨rfl, rfl⟩)) hy
    · rw [hother q hqp] at hq
      exact h.done hq fun hin => hy (hmem.2 (.inr hin))
  · rw [hlog] at hin
    by_cases hqp : q = p
    · subst hqp
      rw [hself.2] at hq
      cases hq
      exact absurd hin (h.not_served hcall hst)
    · rw [hother q hqp] at hq ⊢
      obtain ⟨y, hy, hout⟩ := h.todo hq hin
      refine ⟨y, hy, fun hin => ?_⟩
      rcases hmem.1 hin with ⟨-, heq⟩ | hin
      · exact hqp (head_inj hd (DiskPc.chain_of_request hy) (DescsOk.chain_eq hp) heq)
      · exact hout hin

omit h

variable [DecidableEq P] [DecidableEq B]

theorem format (h : QueueOk blockno s) (hd : DescsOk blockno s.proc s.m s.tag)
    (hc : CallsOk s.proc s.lock s.count) (hp : s.proc p = .own .format c x) :
    QueueOk blockno { s.setPc p (.own .publish c x) with
      m := s.m.format blockno c x, tag := update s.tag x.head c.id } := by
  have hst : ∀ d y, (s.proc p).request ≠ some (true, d, y) := fun d y => by rw [hp]; exact nofun
  have hroom := h.availQ_room hd (DescsOk.chain_eq hp) hst
  refine h.advance hd hc (f := false) hp hst ?_ (fun q hq => update_of_ne hq ..) rfl rfl rfl
    (.of_eq ?_) rfl (fun b hb => update_of_ne hb ..) (fun i hi => ?_)
    ⟨update_self .., fun _ => update_self ..⟩
  · show (update s.proc p _ p).request = _ ∧ (update s.proc p _ p).call = _
    rw [update_self]
    exact ⟨rfl, rfl⟩
  · exact congrArg (· ++ s.dev.taken) (Ring.queue_write (by decide) hroom x.head)
  · show (update s.m.info x.head _ i).status = _
    rw [update_of_ne hi]

omit [DecidableEq B] in
theorem publish (h : QueueOk blockno s) (hd : DescsOk blockno s.proc s.m s.tag)
    (hc : CallsOk s.proc s.lock s.count) (hp : s.proc p = .own .publish c x) :
    QueueOk blockno { s.setPc p (.own .wait c x) with m := s.m.publish } := by
  have hst : ∀ d y, (s.proc p).request ≠ some (true, d, y) := fun d y => by rw [hp]; exact nofun
  have hroom := h.availQ_room hd (DescsOk.chain_eq hp) hst
  obtain ⟨hring, hb⟩ := h.ready (p := p) (c := c) (x := x) (by rw [hp]; rfl)
  refine h.advance hd hc (f := true) hp hst ?_ (fun q hq => update_of_ne hq ..) rfl rfl rfl ?_ rfl
    (fun _ _ => rfl) (fun _ _ => rfl) ⟨hb, nofun⟩
  · show (update s.proc p _ p).request = _ ∧ (update s.proc p _ p).call = _
    rw [update_self]
    exact ⟨rfl, rfl⟩
  · show (Ring.queue s.m.avail.ring NUM s.dev.seen (s.m.avail.idx + 1) ++ s.dev.taken).Perm _
    rw [Ring.queue_snoc (by decide) (by decide) hroom, hring, append_assoc]
    exact perm_middle

omit [DecidableEq P] in
/-- The entry of the used ring that the handler is at belongs to a request that was served, and the
handler marks the buffer of that request. -/
theorem matched (h : QueueOk blockno s) (hd : DescsOk blockno s.proc s.m s.tag)
    (hu : s.m.usedIdx ≠ s.m.used.idx) : ∃ p c x, (s.proc p).request = some (true, c, x) ∧
      s.m.used.ring (s.m.usedIdx.toNat % NUM) = x.head ∧ (c.id, c.request blockno) ∈ s.log ∧
      s.m.intr = .ok { s.m with
        busy := update s.m.busy c.b false, usedIdx := s.m.usedIdx + 1 } := by
  have hians : s.m.used.ring (s.m.usedIdx.toNat % NUM) ∈ s.answered := by
    refine mem_append_right _ ?_
    rw [VirtioSys.usedQ, Ring.queue_pop (by decide) hu]
    exact mem_cons_self
  generalize hid : s.m.used.ring (s.m.usedIdx.toNat % NUM) = i at hians
  obtain ⟨p, c, x, hp, rfl, -, hf, -, -⟩ := h.owner hd (mem_append_right _ hians)
  refine ⟨p, c, x, hp, rfl, h.done hp fun hun => ?_, ?_⟩
  · exact disjoint_of_nodup_append h.nodup hun hians
  · unfold Vdisk.intr
    simp only [hid, h.status hians, hf.buf]
    rfl

omit [DecidableEq P] in
/-- The handler finds the buffer of the request that was served, and marks it done. -/
theorem intr (h : QueueOk blockno s) (hd : DescsOk blockno s.proc s.m s.tag)
    (hc : CallsOk s.proc s.lock s.count) (hu : s.m.usedIdx ≠ s.m.used.idx) :
    ∃ m, s.m.intr = .ok m ∧ QueueOk blockno { s with m := m } ∧
      DescsOk blockno s.proc m s.tag := by
  obtain ⟨p, c, x, hp, hid, -, hm⟩ := h.matched hd hu
  have hpop : s.usedQ = x.head :: Ring.queue s.m.used.ring NUM (s.m.usedIdx + 1) s.m.used.idx := by
    rw [VirtioSys.usedQ, Ring.queue_pop (by decide) hu, hid]
  refine ⟨_, hm, ?_, hd.congr rfl rfl rfl fun _ => rfl⟩
  have hpc := DiskPc.call_of_request hp
  generalize hs' : ({ s with m := { s.m with
      busy := update s.m.busy c.b false, usedIdx := s.m.usedIdx + 1 } } :
    VirtioSys P B D) = s'
  have hproc : s'.proc = s.proc := by rw [← hs']
  have hun : s'.unserved = s.unserved := by rw [← hs']; rfl
  have han : s.answered.Perm (x.head :: s'.answered) := by
    rw [VirtioSys.answered, hpop, ← hs']
    exact perm_middle
  have hpend : s.pending.Perm (x.head :: s'.pending) := by
    rw [VirtioSys.pending, VirtioSys.pending, hun]
    exact (han.append_left _).trans perm_middle
  have hnodup := hpend.nodup_iff.1 h.nodup
  have hlog : s'.log = s.log := by rw [← hs']
  -- the flags of the other requests stay
  have hbusy : ∀ {q f d y}, (s.proc q).request = some (f, d, y) → q ≠ p →
      s'.m.busy d.b = s.m.busy d.b := by
    intro q f d y hq hqp
    rw [← hs']
    exact update_of_ne
      (fun heq => hqp (hc.distinct (DiskPc.call_of_request hq) hpc (.inl heq))) _ _
  have hflies : ∀ k, s'.Flies k ↔ k ≠ x.head ∧ s.Flies k := by
    intro k
    constructor
    · intro ⟨q, d, y, hq, hy, hbq⟩
      rw [hproc] at hq
      have hqp : q ≠ p := by
        rintro rfl
        rw [hp] at hq
        cases hq
        rw [← hs'] at hbq
        exact absurd ((update_self c.b false s.m.busy).symm.trans hbq) nofun
      refine ⟨?_, q, d, y, hq, hy, hbusy hq hqp ▸ hbq⟩
      rintro rfl
      exact hqp (head_inj hd (DiskPc.chain_of_request hq) (DiskPc.chain_of_request hp) hy)
    · intro ⟨hne, q, d, y, hq, hy, hbq⟩
      have hqp : q ≠ p := by
        rintro rfl
        rw [hp] at hq
        cases hq
        exact hne hy.symm
      exact ⟨q, d, y, hproc.symm ▸ hq, hy, (hbusy hq hqp).symm ▸ hbq⟩
  refine
    { ready := fun {q d y} hq => ?_
      nodup := (nodup_cons.1 hnodup).2
      flight := fun {k} => ?_
      status := fun {k} hk => ?_
      done := fun {q d y} hq hy => ?_
      todo := fun {q d} hq hin => ?_
      once := hlog ▸ h.once
      lt := by rw [← hs']; exact h.lt
      ret := by rw [← hs']; exact h.ret }
  · rw [hproc] at hq
    have hqp : q ≠ p := by
      rintro rfl
      rw [hp] at hq
      cases hq
    rw [hbusy hq hqp, ← hs']
    exact h.ready hq
  · rw [hflies k, ← h.flight, hpend.mem_iff, mem_cons]
    constructor
    · intro hk
      refine ⟨?_, .inr hk⟩
      rintro rfl
      exact (nodup_cons.1 hnodup).1 hk
    · intro ⟨hne, hk⟩
      exact hk.resolve_left hne
  · have hk' : k ∈ s.answered := han.mem_iff.2 (mem_cons_of_mem _ hk)
    rw [← hs']
    exact h.status hk'
  · rw [hproc] at hq
    rw [hlog]
    exact h.done hq (hun ▸ hy)
  · rw [hproc] at hq ⊢
    rw [hlog] at hin
    rw [hun]
    exact h.todo hq hin

end Steps

end QueueOk

/-! ## Runs -/

theorem VirtioSys.transfer_buf [DecidableEq B] (s : VirtioSys P B D) (r : DiskRequest B)
    (h j i : Nat) : ((s.transfer r h j).m.info i).b = (s.m.info i).b :=
  update_unseen (g := DiskInfo.b) rfl

structure VirtioInv (blockno : B → UInt32) (s : VirtioSys P B D) : Prop where
  calls : CallsOk s.proc s.lock s.count
  descs : DescsOk blockno s.proc s.m s.tag
  queue : QueueOk blockno s
  panic : s.panic = none

variable {s s' : VirtioSys P B D}

theorem VirtioSys.Fresh.inv (h : s.Fresh) : VirtioInv blockno s := by
  have hreq : ∀ p, (s.proc p).request = none := fun p => by rw [h.proc]; rfl
  have hcall : ∀ p, (s.proc p).call = none := fun p => by rw [h.proc]; rfl
  have hpend : s.pending = [] := by
    simp [VirtioSys.pending, VirtioSys.unserved, VirtioSys.answered, VirtioSys.availQ,
      VirtioSys.usedQ, h.avail, h.used, h.usedIdx, h.seen, h.taken, h.served]
  have hans : s.answered = [] := (append_eq_nil_iff.1 hpend).2
  refine ⟨⟨fun {p} hl => ?_, fun {p _ _ _} hc => ?_, fun {p _} hc => ?_⟩, ⟨⟨fun {p x} hp => ?_,
    fun {p _ x _ _} hp => ?_, fun {i} hi => ?_⟩, fun {p _ _ _} hp => ?_⟩, ?_, h.panic⟩
  · rw [h.proc] at hl
    exact hl.elim
  · rw [hcall p] at hc
    cases hc
  · rw [hcall p] at hc
    cases hc
  · have hp : (s.proc p).chain = some x := hp
    rw [h.proc] at hp
    cases hp
  · have hp : (s.proc p).chain = some x := hp
    rw [h.proc] at hp
    cases hp
  · rw [h.free i hi]
    refine ⟨nofun, fun ⟨p, x, hp, _⟩ => ?_⟩
    have hp : (s.proc p).chain = some x := hp
    rw [h.proc] at hp
    cases hp
  · rw [h.proc] at hp
    cases hp
  · exact
      { ready := fun {p _ _} hp => by rw [hreq p] at hp; cases hp
        nodup := hpend ▸ nodup_nil
        flight := fun {i} => by
          rw [hpend]
          refine ⟨nofun, fun ⟨p, c, x, hp, _⟩ => ?_⟩
          rw [hreq p] at hp
          cases hp
        status := fun hi => by rw [hans] at hi; cases hi
        done := fun {p _ _} hp => by rw [hreq p] at hp; cases hp
        todo := fun {p _} hp => by rw [hcall p] at hp; cases hp
        once := by rw [h.log]; exact nodup_nil
        lt := by rw [h.log]; exact nofun
        ret := by rw [h.returned]; exact nofun }

variable [DecidableEq P] [DecidableEq B]

namespace VirtioInv

variable {p : P} {c : DiskCall B} {x : DescChain}

omit [DecidableEq B] in
theorem call (h : VirtioInv blockno s) {b : B} {write : Bool} (hp : s.proc p = .idle)
    (hb : ∀ q c, (s.proc q).call = some c → c.b ≠ b) :
    VirtioInv blockno { s.setPc p (.enter ⟨b, write, s.count⟩) with count := s.count + 1 } := by
  refine ⟨h.calls.call hb, h.descs.move (by rw [hp]; rfl) nofun, ?_, h.panic⟩
  refine h.queue.quiet rfl rfl rfl rfl (fun _ => rfl) rfl rfl (Nat.le_succ _) h.queue.ret
    (fun _ => .inl (update_unseen (by rw [hp]; rfl))) fun q c hc => ?_
  rcases update_cases (C := (DiskPc.call · = some c)) hc with ⟨-, hnew⟩ | ⟨-, hold⟩
  · -- the number of the call is new
    cases hnew
    exact .inr fun hin => Nat.lt_irrefl _ (h.queue.lt _ hin)
  · exact .inl hold

omit [DecidableEq B] in
/-- A call whose buffer is marked done can free its chain, and returns. -/
theorem finish (h : VirtioInv blockno s) (hp : s.proc p = .own .wait c x)
    (hb : s.m.busy c.b = false) : ∃ m, s.m.retire x = .ok m ∧
      VirtioInv blockno
        { s.setPc p .idle with m := m, lock := .none, returned := c :: s.returned } := by
  have hreq : (s.proc p).request = some (true, c, x) := by rw [hp]; rfl
  have hchain := DescsOk.chain_eq hp
  have hsole : ∀ q ≠ p, s.lock ≠ .proc q := by
    intro q hq hl
    have := (h.calls.lock (show (s.proc p).Locked by rw [hp]; exact nofun)).symm.trans hl
    cases this
    exact hq rfl
  have hdone : (c.id, c.request blockno) ∈ s.log := h.queue.done_of_busy h.descs hreq hb
  refine ⟨_, retire_ok (h.descs.chains.ok hchain)
    (fun i hi => h.descs.chains.free_eq_false hchain hi) (h.descs.formed hp (by decide)).1,
    h.calls.move (.inr rfl) False.elim fun q hq hl => absurd hl (hsole q hq), h.descs.finish hp,
    ?_, h.panic⟩
  refine h.queue.quiet rfl rfl rfl rfl (fun _ => update_unseen (g := DiskInfo.status) rfl) rfl rfl
    le_rfl (fun d hd => ?_) (fun q => ?_) fun q d hd => .inl ?_
  · rcases mem_cons.1 hd with rfl | hd
    · exact hdone
    · exact h.queue.ret d hd
  · by_cases hq : q = p
    · subst hq
      refine .inr ⟨congrArg DiskPc.request (update_self q _ s.proc),
        congrArg DiskPc.call (update_self q _ s.proc), fun d y hd => ?_⟩
      rw [hreq] at hd
      cases hd
      exact hb
    · exact .inl (congrArg DiskPc.request (update_of_ne hq _ s.proc))
  · rcases update_cases (C := (DiskPc.call · = some d)) hd with ⟨-, hnew⟩ | ⟨-, hold⟩
    · cases hnew
    · exact hold

theorem step (hb : ∀ b, (blockno b).toNat < 2 ^ 31) (h : VirtioInv blockno s)
    {l : VirtioLabel P B} (hs : VirtioStep blockno s l s') :
    VirtioInv blockno s' := by
  have hstay : ∀ {p : P} {pc}, s.proc p = pc → pc.Locked → ∀ q ≠ p, s.lock ≠ .proc q := by
    intro p pc hp hl q hq hlq
    have := (h.calls.lock (hp ▸ hl)).symm.trans hlq
    cases this
    exact hq rfl
  cases hs with
  | call hp hb => exact h.call hp hb
  | acquire hp hl =>
    refine ⟨h.calls.move (.inl (by rw [hp]; rfl)) (fun _ => rfl) fun q hq hlq => ?_,
      h.descs.move (by rw [hp]; rfl) nofun,
      h.queue.move rfl rfl rfl rfl rfl (by rw [hp]; rfl) (by rw [hp]; rfl), h.panic⟩
    rw [hl] at hlq
    cases hlq
  | @alloc p c x m hp hx =>
    rcases alloc3Desc_cases s.m with ⟨y, hy, hfree, heq⟩ | ⟨m', -, heq⟩
    · rw [hx] at heq
      cases heq
      have hlock := h.calls.lock (p := p) (by rw [hp]; exact trivial)
      exact ⟨h.calls.move (.inl (by rw [hp]; rfl)) (fun _ => hlock) fun _ _ hlq => hlq,
        h.descs.alloc (by rw [hp]; rfl) hy hfree,
        h.queue.move rfl rfl rfl rfl rfl (by rw [hp]; rfl) (by rw [hp]; rfl), h.panic⟩
    · rw [hx] at heq
      cases heq
  | @sleepFree p c m hp hx =>
    rcases alloc3Desc_cases s.m with ⟨y, -, -, heq⟩ | ⟨m', hm, heq⟩
    · rw [hx] at heq
      cases heq
    · rw [hx] at heq
      cases heq
      obtain ⟨desc, rfl, hdesc⟩ := id hm
      exact ⟨h.calls.move (.inl (by rw [hp]; rfl)) False.elim
          fun q hq hlq => absurd hlq (hstay hp trivial q hq),
        (h.descs.upToFree hm).move (by rw [hp]; rfl) nofun,
        h.queue.move rfl rfl rfl rfl rfl (by rw [hp]; rfl) (by rw [hp]; rfl), h.panic⟩
  | allocPanic hp hx =>
    rcases alloc3Desc_cases s.m with ⟨y, -, -, heq⟩ | ⟨m', -, heq⟩
    all_goals
      rw [hx] at heq
      cases heq
  | @format p c x hp =>
    have hlock := h.calls.lock (p := p) (by rw [hp]; exact nofun)
    exact ⟨h.calls.move (.inl (by rw [hp]; rfl)) (fun _ => hlock) fun _ _ hlq => hlq,
      h.descs.format hp (hb _), h.queue.format h.descs h.calls hp, h.panic⟩
  | @publish p c x hp =>
    have hlock := h.calls.lock (p := p) (by rw [hp]; exact nofun)
    refine ⟨h.calls.move (.inl (by rw [hp]; rfl)) (fun _ => hlock) fun _ _ hlq => hlq,
      (h.descs.congr (show s.m.publish.free = _ from rfl) rfl rfl fun _ => rfl).move (by rw [hp]; rfl)
        fun heq _ => ?_,
      h.queue.publish h.descs h.calls hp, h.panic⟩
    cases heq
    exact ⟨_, by decide, hp⟩
  | @sleep p c x hp hb =>
    refine ⟨h.calls.move (.inl (by rw [hp]; rfl)) (fun hl => absurd rfl hl)
        fun q hq hlq => absurd hlq (hstay hp nofun q hq),
      h.descs.move (by rw [hp]; rfl) fun heq _ => ?_,
      h.queue.move rfl rfl rfl rfl rfl (by rw [hp]; rfl) (by rw [hp]; rfl), h.panic⟩
    cases heq
    exact ⟨_, by decide, hp⟩
  | @wake p c x hp hl =>
    refine ⟨h.calls.move (.inl (by rw [hp]; rfl)) (fun _ => rfl) fun q hq hlq => ?_,
      h.descs.move (by rw [hp]; rfl) fun heq _ => ?_,
      h.queue.move rfl rfl rfl rfl rfl (by rw [hp]; rfl) (by rw [hp]; rfl), h.panic⟩
    · rw [hl] at hlq
      cases hlq
    · cases heq
      exact ⟨_, by decide, hp⟩
  | finish hp hb hx =>
    obtain ⟨m, hm, hinv⟩ := h.finish hp hb
    rw [hx] at hm
    cases hm
    exact hinv
  | finishPanic hp hb hx =>
    obtain ⟨m, hm, -⟩ := h.finish hp hb
    rw [hx] at hm
    cases hm
  | intrAcquire hl | intrRelease hl =>
    exact ⟨h.calls.relock (by rw [hl]; exact nofun), h.descs, h.queue.relock, h.panic⟩
  | intrOne hl hu hm =>
    obtain ⟨m', hm', hq, hd⟩ := h.queue.intr h.descs h.calls hu
    rw [hm] at hm'
    cases hm'
    exact ⟨h.calls, hd, hq, h.panic⟩
  | intrPanic hl hu hm =>
    obtain ⟨m', hm', -⟩ := h.queue.intr h.descs h.calls hu
    rw [hm] at hm'
    cases hm'
  | take ha => exact ⟨h.calls, h.descs, h.queue.take ha, h.panic⟩
  | serve ht hd =>
    exact ⟨h.calls, h.descs.congr rfl rfl rfl (s.transfer_buf _ _ _),
      h.queue.serve h.descs h.calls ht hd, h.panic⟩
  | post hs =>
    exact ⟨h.calls, h.descs.congr rfl rfl rfl fun _ => rfl, h.queue.post h.descs hs, h.panic⟩

end VirtioInv

theorem VirtioInv.of_reachable (hb : ∀ b, (blockno b).toNat < 2 ^ 31)
    (h : Reachable (virtioMachine blockno) s) : VirtioInv blockno s :=
  h.invariant (I := VirtioInv blockno) (fun _ hs => VirtioSys.Fresh.inv hs)
    fun _ _ _ _ hinv hs => hinv.step hb hs

/-- **The disk driver's protocol.** In every run of any number of processes, the device and the
interrupt handler, with the 16-bit indices wrapping and for block numbers whose sector fits the
driver's 32-bit product:

* the chains of the calls in progress are disjoint, and once formatted each is header, data and
  status for its own call, with the sector at twice the block number;
* a call whose wait is over, and every call that has returned, has been served by the device, and
  no request is served twice;
* the entry of the used ring that the handler is at belongs to a request that was served, and the
  handler marks that request's buffer;
* the driver does not panic;
* when no call is in progress all descriptors are free. -/
theorem virtio_protocol (hb : ∀ b, (blockno b).toNat < 2 ^ 31)
    (h : Reachable (virtioMachine blockno) s) :
    (∀ p q x y, (s.proc p).chain = some x → (s.proc q).chain = some y → p ≠ q →
      x.idx.Disjoint y.idx) ∧
    (∀ p st c x, s.proc p = .own st c x → st ≠ .format → x.Ok ∧ Formed blockno s.m c x ∧
      s.m.decode x.head = some (c.request blockno, x.head)) ∧
    (∀ p c x, s.proc p = .own .wait c x → s.m.busy c.b = false →
      (c.id, c.request blockno) ∈ s.log) ∧
    (∀ c ∈ s.returned, (c.id, c.request blockno) ∈ s.log) ∧
    (s.log.map Prod.fst).Nodup ∧
    (s.m.usedIdx ≠ s.m.used.idx → ∃ p c x, (s.proc p).request = some (true, c, x) ∧
      s.m.used.ring (s.m.usedIdx.toNat % NUM) = x.head ∧ (c.id, c.request blockno) ∈ s.log ∧
      s.m.intr = .ok { s.m with
        busy := update s.m.busy c.b false, usedIdx := s.m.usedIdx + 1 }) ∧
    s.panic = none ∧
    ((∀ p, s.proc p = .idle) → ∀ i < NUM, s.m.free i = true) := by
  have hinv := VirtioInv.of_reachable hb h
  have hchains := hinv.descs.chains
  refine ⟨fun p q x y hx hy hpq i hix hiy => hpq (hchains.apart hx hy hix hiy),
    fun p st c x hp hst => ?_, fun p c x hp hb => ?_, hinv.queue.ret, hinv.queue.once,
    hinv.queue.matched hinv.descs, hinv.panic, fun hidle i hi => ?_⟩
  · have hf := (hinv.descs.formed hp hst).1
    exact ⟨hchains.ok (DescsOk.chain_eq hp), hf, hf.decode⟩
  · exact hinv.queue.done_of_busy hinv.descs (by rw [hp]; rfl) hb
  · rw [← Bool.not_eq_false, hchains.used hi]
    intro ⟨p, x, hp, _⟩
    have hp : (s.proc p).chain = some x := hp
    rw [hidle p] at hp
    cases hp

/-- One process and one buffer, after `virtio_disk_init`. -/
def virtio0 : VirtioSys Unit Unit Unit where
  m :=
    { desc := fun _ => ⟨.null, 0, 0, 0⟩, avail := ⟨0, fun _ => 0⟩, used := ⟨0, fun _ => 0⟩,
      free := fun _ => true, usedIdx := 0, info := fun _ => ⟨none, 0⟩, ops := fun _ => ⟨0, 0⟩,
      busy := fun _ => false, data := fun _ => () }
  dev := ⟨0, [], [], fun _ => ()⟩
  lock := .none
  proc := fun _ => .idle
  panic := none
  count := 0
  tag := fun _ => 0
  log := []
  returned := []

theorem virtio0_write : ∃ s : VirtioSys Unit Unit Unit, Reachable (virtioMachine fun _ => 3) s ∧
    s.returned = [⟨(), true, 0⟩] ∧ s.proc () = .idle := by
  have h0 : Reachable (virtioMachine fun _ => 3) virtio0 :=
    .start ⟨fun _ _ => rfl, rfl, rfl, rfl, rfl, rfl, rfl, rfl, fun _ => rfl, rfl, rfl, rfl⟩
  have h1 := h0.next (show VirtioStep _ virtio0 (.call () () true) _ from
    .call rfl fun _ _ hc => by cases hc)
  have h2 := h1.next (.acquire (p := ()) (c := ⟨(), true, 0⟩) rfl rfl)
  have h3 := h2.next (.alloc (p := ()) (c := ⟨(), true, 0⟩) (x := ⟨0, 1, 2⟩) rfl rfl)
  have h4 := h3.next (.format (p := ()) (c := ⟨(), true, 0⟩) (x := ⟨0, 1, 2⟩) rfl)
  have h5 := h4.next (.publish (p := ()) (c := ⟨(), true, 0⟩) (x := ⟨0, 1, 2⟩) rfl)
  have h6 := h5.next (.sleep (p := ()) (c := ⟨(), true, 0⟩) (x := ⟨0, 1, 2⟩) rfl rfl)
  have h7 := h6.next (.take (by decide))
  have h8 := h7.next (.serve mem_cons_self rfl)
  have h9 := h8.next (.post mem_cons_self)
  have h10 := h9.next (.intrAcquire rfl)
  have h11 := h10.next (.intrOne rfl (by decide) rfl)
  have h12 := h11.next (.intrRelease rfl rfl)
  have h13 := h12.next (.wake (p := ()) (c := ⟨(), true, 0⟩) (x := ⟨0, 1, 2⟩) rfl rfl)
  have h14 := h13.next (.finish (p := ()) (c := ⟨(), true, 0⟩) (x := ⟨0, 1, 2⟩) rfl rfl rfl)
  exact ⟨_, h14, rfl, rfl⟩

theorem virtio_protocol_write : ∃ s : VirtioSys Unit Unit Unit,
    s.returned = [⟨(), true, 0⟩] ∧ (0, ⟨(), 6, true⟩) ∈ s.log ∧ s.panic = none ∧
      ∀ i < NUM, s.m.free i = true := by
  obtain ⟨s, hreach, hret, hidle⟩ := virtio0_write
  obtain ⟨-, -, -, hlog, -, -, hpanic, hfree⟩ := virtio_protocol (fun _ => by decide) hreach
  exact ⟨s, hret, hlog ⟨(), true, 0⟩ (by rw [hret]; exact mem_cons_self), hpanic,
    hfree fun _ => hidle⟩

end Xv6
