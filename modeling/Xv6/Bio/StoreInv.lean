import Mathlib.Algebra.BigOperators.Group.Finset.Basic
import Mathlib.Data.List.GetD
import Xv6.Bio.Store

/-!
# The cache and the log refine a block store

`StoreInv` relates every reachable state of `storeMachine` to its `contents`: the cache
represents them (`CacheInv`), with the blocks of the log that are not installed yet pinned and
the processes inside `bread` counted as waiting. The phase of `commit()` adds what its later
steps rely on: the slots hold the contents of the home blocks.

There is one lemma per call and per phase; `bread_latest` is the refinement.
-/

namespace Xv6

open Machines Function List

variable {P : Type}

/-! ## Waiting processes -/

def awaiting [Fintype P] (waiting : P → Option (Fin NBUF × Nat)) (i : Fin NBUF) : Nat :=
  (Finset.univ.filter fun p => (waiting p).map Prod.fst = some i).card

section Awaiting

variable [Fintype P] {waiting : P → Option (Fin NBUF × Nat)} {p : P} {i : Fin NBUF} {b : Nat}

theorem awaiting_pos (hp : waiting p = some (i, b)) : 0 < awaiting waiting i :=
  Finset.card_pos.mpr ⟨p, by simp [hp]⟩

variable [DecidableEq P]

theorem awaiting_update (waiting : P → Option (Fin NBUF × Nat)) (p : P) (x : Option (Fin NBUF × Nat)) (j : Fin NBUF) :
    awaiting (update waiting p x) j + (if (waiting p).map Prod.fst = some j then 1 else 0)
      = awaiting waiting j + (if x.map Prod.fst = some j then 1 else 0) := by
  have h := sum_add_of_eq_off (p := p)
    (f := fun q => if (update waiting p x q).map Prod.fst = some j then 1 else 0)
    (g := fun q => if (waiting q).map Prod.fst = some j then 1 else 0)
    fun q hq => by rw [update_of_ne hq]
  simpa only [awaiting, Finset.card_filter, update_self] using h

theorem awaiting_start (hp : waiting p = none) :
    awaiting (update waiting p (some (i, b)))
      = update (awaiting waiting) i (awaiting waiting i + 1) := by
  funext j
  have h := awaiting_update waiting p (some (i, b)) j
  by_cases hj : j = i
  · subst hj
    simpa [hp] using h
  · simpa [hp, hj, Ne.symm hj] using h

theorem awaiting_stop (hp : waiting p = some (i, b)) :
    awaiting (update waiting p none)
      = update (awaiting waiting) i (awaiting waiting i - 1) := by
  funext j
  have h := awaiting_update waiting p none j
  by_cases hj : j = i
  · subst hj
    simp only [hp, Option.map_some, Option.map_none, reduceCtorEq, if_true, if_false] at h
    rw [update_self]
    omega
  · simpa [hp, hj, Ne.symm hj] using h

end Awaiting

/-! ## The refinement -/

/-- What the phase of `commit()` relies on, in the terms of the block store. -/
def PhaseOk (L : LogArea) (blocks : Disk) (t : TransState P) : Phase → Prop
  | .idle => ∀ p, t.procs p = .inCommit false → t.log.lh = []
  | .writeLog tail => (∃ p, t.procs p = .inCommit false) ∧ tail ≤ t.log.lh.length ∧
      ∀ i, i < tail → blocks (L.slot i) = blocks (t.log.lh.getD i 0)
  | .writeHead => (∃ p, t.procs p = .inCommit false) ∧
      ∀ i, i < t.log.lh.length → blocks (L.slot i) = blocks (t.log.lh.getD i 0)
  | .installTrans _ _ => (∃ p, t.procs p = .inCommit false) ∧
      ∀ i, i < t.log.lh.length → blocks (L.slot i) = blocks (t.log.lh.getD i 0)
  | .clearHead _ => (∃ p, t.procs p = .inCommit true) ∧ t.log.lh = []
  | .readHead => False

/-- The cache represents the store, and the log pins the blocks it has not installed. -/
structure StoreInv [Fintype P] (dev : Nat) (L : LogArea) (d₀ : Disk) (s : StoreState P) :
    Prop where
  trans : TransInv s.trans
  size : s.trans.log.size = L.size
  cache : CacheInv dev s.mem (contents d₀ s) (awaiting s.waiting) (uninstalled s).toFinset s.dirty
  waits : ∀ p i b, s.waiting p = some (i, b) → (s.mem.buf i).Caches dev b
  nodup : s.trans.log.lh.Nodup
  home : ∀ b ∈ s.trans.log.lh, L.Home b
  fits : s.trans.log.lh.length < L.size
  phase : PhaseOk L (contents d₀ s) s.trans s.phase

theorem contents_append (d₀ : Disk) (s : StoreState P) (b : Nat) (data : Block) :
    Writes.perform (s.mods ++ [(b, data)]) d₀ = update (contents d₀ s) b data := by
  rw [Writes.perform_append]
  rfl

variable {t : TransState P} {ph : Phase}

theorem PhaseOk.congr {L : LogArea} {blocks : Disk} {t' : TransState P} (h : PhaseOk L blocks t ph)
    (hlh : t'.log.lh = t.log.lh)
    (hprocs : ∀ q c, t'.procs q = .inCommit c ↔ t.procs q = .inCommit c) :
    PhaseOk L blocks t' ph := by
  cases ph with
  | readHead => exact h
  | _ => simpa only [PhaseOk, hlh, hprocs] using h

theorem inCommit_update [DecidableEq P] {procs : P → OpState} {x : OpState} {p q : P} {c : Bool}
    (hold : procs p ≠ .inCommit c) (hnew : x ≠ .inCommit c) :
    update procs p x q = .inCommit c ↔ procs q = .inCommit c := by
  by_cases hq : q = p
  · subst hq
    simp [hold, hnew]
  · rw [update_of_ne hq]

section Steps

variable [Fintype P] {dev : Nat} {L : LogArea} {d₀ : Disk} {s s' : StoreState P} {p : P}
  {i : Fin NBUF}

variable (h : StoreInv dev L d₀ s)

include h

theorem StoreInv.phase_idle (hidle : s.trans.log.committing = false) :
    s.phase = .idle := by
  have hnone : ∀ q c, s.trans.procs q ≠ .inCommit c := by
    intro q c hq
    have := h.trans.flag.mpr ⟨q, c, hq⟩
    rw [hidle] at this
    cases this
  have hphase := h.phase
  cases hcase : s.phase with
  | idle => rfl
  | writeLog | writeHead | installTrans | clearHead =>
    rw [hcase] at hphase
    obtain ⟨⟨q, hq⟩, -⟩ := hphase
    exact absurd hq (hnone q _)
  | readHead =>
    rw [hcase] at hphase
    exact hphase.elim

theorem StoreInv.transOnly (ht : TransInv t) (hsize : t.log.size = s.trans.log.size)
    (hlh : t.log.lh = s.trans.log.lh)
    (hprocs : ∀ q c, t.procs q = .inCommit c ↔ s.trans.procs q = .inCommit c) :
    StoreInv dev L d₀ { s with trans := t } where
  trans := ht
  size := hsize.trans h.size
  cache := by
    have hsame : uninstalled { s with trans := t } = uninstalled s := by
      simp only [uninstalled, hlh]
    rw [hsame]
    exact h.cache
  waits := h.waits
  nodup := by rw [hlh]; exact h.nodup
  home := by rw [hlh]; exact h.home
  fits := by rw [hlh]; exact h.fits
  phase := h.phase.congr hlh hprocs

theorem StoreInv.modify (hheld : (s.mem.buf i).holder = some p)
    (hidle : s.trans.log.committing = false) (data : Block) :
    StoreInv dev L d₀ { s with
      mem := s.mem.modify i data
      dirty := update s.dirty i true
      mods := s.mods ++ [((s.mem.buf i).blockno, data)] } := by
  have hphase := h.phase_idle hidle
  refine ⟨h.trans, h.size, ?_, ?_, h.nodup, h.home, h.fits, ?_⟩
  · have := h.cache.modify (i := i) (by rw [hheld]; rfl) data
    rw [contents, contents_append]
    exact this
  · exact fun q j c hq => (Bcache.modify_caches j c).mpr (h.waits q j c hq)
  · have hold := h.phase
    simp only [hphase] at hold ⊢
    exact hold

theorem StoreInv.logAbsorb {op : Nat} (hp : s.trans.procs p = .inOp op)
    (hmem : (s.mem.buf i).blockno ∈ s.trans.log.lh) :
    StoreInv dev L d₀ { s with
      trans := { s.trans with writes := s.trans.writes ++ [(op, (s.mem.buf i).blockno)] }
      dirty := update s.dirty i false } := by
  have hidle := h.trans.not_committing hp
  have hphase := h.phase_idle hidle
  have ht := h.trans.logWrite (b := (s.mem.buf i).blockno) s.trans.log.lh hp
    fun x => ⟨.inl, fun hx => hx.elim id fun hx => by rw [hx]; exact hmem⟩
  have hsame := h.transOnly ht rfl rfl fun _ _ => Iff.rfl
  refine { hsame with cache := hsame.cache.undirty (.inl ?_) }
  simpa [uninstalled, hphase] using hmem

theorem StoreInv.logAppend {op : Nat} (hheld : (s.mem.buf i).holder = some p)
    (hhome : L.Home (s.mem.buf i).blockno) (hp : s.trans.procs p = .inOp op)
    (hnew : (s.mem.buf i).blockno ∉ s.trans.log.lh)
    (hroom : s.trans.log.lh.length < s.trans.log.size - 1) :
    StoreInv dev L d₀ { s with
      trans := { s.trans with
        log := { s.trans.log with lh := s.trans.log.lh ++ [(s.mem.buf i).blockno] }
        writes := s.trans.writes ++ [(op, (s.mem.buf i).blockno)] }
      mem := s.mem.bpin i
      dirty := update s.dirty i false } := by
  have hidle := h.trans.not_committing hp
  have hphase := h.phase_idle hidle
  have hpins : (uninstalled s).toFinset = s.trans.log.lh.toFinset := by
    simp only [uninstalled, hphase]
  have hcache := h.cache.bpin (i := i) (by rw [hheld]; rfl) (by rw [hpins]; simpa using hnew)
  have hsize := h.size
  constructor
  case trans => exact h.trans.logWrite _ hp fun x => by simp
  case size => exact h.size
  case cache =>
    have hgoal : (insert (s.mem.buf i).blockno (uninstalled s).toFinset)
        = (s.trans.log.lh ++ [(s.mem.buf i).blockno]).toFinset := by
      rw [hpins]
      ext x
      simp [or_comm]
    rw [hgoal] at hcache
    simp only [uninstalled, hphase]
    refine hcache.undirty (.inl ?_)
    simp [Bcache.bpin, Bcache.setBuf_self]
  case waits => exact fun q j c hq => (Bcache.bpin_caches j c).mpr (h.waits q j c hq)
  case nodup =>
    refine nodup_append.mpr ⟨h.nodup, by simp, ?_⟩
    rintro x hx y hy rfl
    rw [mem_singleton.mp hy] at hx
    exact hnew hx
  case home =>
    intro b hb
    rcases mem_append.mp hb with hb | hb
    · exact h.home b hb
    · rw [mem_singleton.mp hb]
      exact hhome
  case fits =>
    simp only [length_append, length_singleton]
    omega
  case phase =>
    -- nobody commits: the process is inside an operation
    simp only [hphase, PhaseOk]
    intro q hq
    have := h.trans.flag.mpr ⟨q, false, hq⟩
    rw [hidle] at this
    cases this

theorem StoreInv.getD_home {k : Nat} (hk : k < s.trans.log.lh.length) :
    L.Home (s.trans.log.lh.getD k 0) := by
  rw [getD_eq_getElem _ _ hk]
  exact h.home _ (getElem_mem hk)

theorem StoreInv.slots_update_start (data : Block) {k : Nat} (hk : k < s.trans.log.lh.length)
    (hslot : contents d₀ s (L.slot k) = contents d₀ s (s.trans.log.lh.getD k 0)) :
    update (contents d₀ s) L.start data (L.slot k)
      = update (contents d₀ s) L.start data (s.trans.log.lh.getD k 0) := by
  have hpos := L.pos
  have hne : s.trans.log.lh.getD k 0 ≠ L.start := by
    rcases h.getD_home hk with hlt | hge <;> omega
  rw [update_of_ne (by simp only [LogArea.slot]; omega), update_of_ne hne]
  exact hslot

theorem StoreInv.bioPanic (hph : s.phase = ph) (e : BioPanic) :
    StoreInv dev L d₀ { s with phase := ph, panic := some e } := by
  subst hph
  exact ⟨h.trans, h.size, h.cache, h.waits, h.nodup, h.home, h.fits, h.phase⟩

omit h

theorem cacheInv_binit (hdev : dev ≠ 0) :
    CacheInv dev (Bcache.binit d₀ : Bcache P) d₀ (awaiting fun _ : P => none) ∅ fun _ => false where
  listed := by
    intro i
    simp [Bcache.binit]
  unique := fun i j b hi _ => absurd hi.1.symm hdev
  bufs := fun i =>
    { refs := by simp [Bcache.binit, awaiting]
      waited := by simp [awaiting]
      held := by simp [Bcache.binit]
      data := by simp [Bcache.binit]
      dirtyHeld := by simp }
  pins := by simp
  clean := fun _ _ _ => rfl

variable [DecidableEq P]

variable {m : Bcache P}

variable (h : StoreInv dev L d₀ s)

include h

theorem StoreInv.bget {b : Nat} (hwait : s.waiting p = none) (hget : s.mem.bget dev b = .ok (i, m))
    :
    StoreInv dev L d₀ { s with
      mem := m, waiting := update s.waiting p (some (i, b)) } := by
  obtain ⟨hcache, hcaches, -, hothers, -, hused⟩ := h.cache.bget hget
  refine ⟨h.trans, h.size, ?_, ?_, h.nodup, h.home, h.fits, h.phase⟩
  · rw [awaiting_start hwait]
    exact hcache
  · intro q j c hq
    show (m.buf j).Caches dev c
    by_cases hqp : q = p
    · subst hqp
      simp only [update_self, Option.some.injEq, Prod.mk.injEq] at hq
      rw [← hq.1, ← hq.2]
      exact hcaches
    · have hold : s.waiting q = some (j, c) := by simpa [update_of_ne hqp] using hq
      have hc := h.waits q j c hold
      by_cases hji : j = i
      · -- the buffer is awaited, so `bget` found it in use and left its block alone
        subst hji
        have hne : (s.mem.buf j).refcnt ≠ 0 := by
          have := (h.cache.bufs j).refs
          have := awaiting_pos hold
          omega
        rw [← hc.2, (hused hne).2]
        exact hcaches
      · rw [hothers j hji]
        exact hc

theorem StoreInv.lock {b : Nat} (hwait : s.waiting p = some (i, b))
    (hacq : s.mem.acquiresleep p i = .ok m) :
    StoreInv dev L d₀ { s with
      mem := m.fill i, waiting := update s.waiting p none } := by
  obtain ⟨hcache, heq⟩ := h.cache.lock (awaiting_pos hwait) hacq
  refine ⟨h.trans, h.size, ?_, ?_, h.nodup, h.home, h.fits, h.phase⟩
  · rw [awaiting_stop hwait]
    exact hcache
  · intro q j c hq
    show ((m.fill i).buf j).Caches dev c
    have hold : s.waiting q = some (j, c) := by
      by_cases hqp : q = p
      · simp [hqp] at hq
      · simpa [update_of_ne hqp] using hq
    have hc := h.waits q j c hold
    rw [heq]
    by_cases hji : j = i
    · subst hji
      rw [Bcache.setBuf_self]
      exact hc
    · rw [Bcache.setBuf_of_ne _ hji]
      exact hc

theorem StoreInv.bwrite (hwrite : s.mem.bwrite p i = .ok m) :
    StoreInv dev L d₀ { s with mem := m, dirty := update s.dirty i false } := by
  obtain ⟨hcache, -, hbuf, -⟩ := h.cache.bwrite hwrite
  refine ⟨h.trans, h.size, hcache, ?_, h.nodup, h.home, h.fits, h.phase⟩
  simp only [hbuf]
  exact h.waits

theorem StoreInv.brelse (hclean : s.dirty i = false) (hrel : s.mem.brelse p i = .ok m) :
    StoreInv dev L d₀ { s with mem := m } := by
  obtain ⟨hcache, -⟩ := h.cache.brelse hclean hrel
  refine ⟨h.trans, h.size, hcache, ?_, h.nodup, h.home, h.fits, h.phase⟩
  exact fun q j c hq => (Bcache.brelse_caches hrel j c).mpr (h.waits q j c hq)

theorem StoreInv.endOp (hstep : TransStep s.trans (.endOp p) t) :
    StoreInv dev L d₀ { s with
      trans := t
      phase := if t.procs p = .inCommit false ∧ t.log.lh ≠ [] then .writeLog 0 else s.phase } := by
  have ht := h.trans.step hstep
  cases hstep with
  | endPanic _ op hp hcommit =>
    rw [h.trans.not_committing hp] at hcommit
    cases hcommit
  | endLast _ op hp hidle hlast =>
    have hphase := h.phase_idle hidle
    have hpins : uninstalled s = s.trans.log.lh := by simp only [uninstalled, hphase]
    have hcache := h.cache
    rw [hpins] at hcache
    simp only [update_self, true_and, hphase]
    by_cases hlh : s.trans.log.lh = []
    · rw [if_neg (not_not_intro hlh)]
      exact ⟨ht, h.size, hcache, h.waits, h.nodup, h.home, h.fits, fun _ _ => hlh⟩
    · rw [if_pos hlh]
      refine ⟨ht, h.size, hcache, h.waits, h.nodup, h.home, h.fits, ⟨p, ?_⟩, Nat.zero_le _, ?_⟩
      · exact update_self ..
      · exact fun i hi => absurd hi (Nat.not_lt_zero i)
  | endMore _ op hp hidle hmore =>
    have hout : ¬ (wakeup (update s.trans.procs p .outside) p = .inCommit false) := by
      simp [wakeup_eq_inCommit]
    simp only [hout, false_and, if_false]
    refine h.transOnly ht rfl rfl fun q c => ?_
    rw [wakeup_eq_inCommit]
    exact inCommit_update (by simp [hp]) (by simp)

/-! ### The steps of `commit()` -/

variable {data : Block}

theorem StoreInv.writeLog {tail : Nat} (hphase : s.phase = .writeLog tail)
    (htail : tail < s.trans.log.lh.length)
    (hrun : s.mem.writeLog p dev L s.trans.log.lh tail = .ok (data, m)) :
    StoreInv dev L d₀ { s with
      mem := m, phase := .writeLog (tail + 1), mods := s.mods ++ [(L.slot tail, data)] } := by
  obtain ⟨hcache, hdata, hkeeps⟩ := h.cache.writeLog hrun
  have hold := h.phase
  rw [hphase] at hold
  obtain ⟨hcommit, -, hslots⟩ := hold
  have hfits := h.fits
  refine ⟨h.trans, h.size, ?_, ?_, h.nodup, h.home, h.fits, hcommit, htail, ?_⟩
  · have hpins : uninstalled s = s.trans.log.lh := by simp only [uninstalled, hphase]
    rw [contents, contents_append]
    rw [hpins] at hcache
    exact hcache
  · exact fun q j c hq => hkeeps j c (awaiting_pos hq) (h.waits q j c hq)
  · intro k hk
    have hhome := h.getD_home (k := k) (by omega)
    have hne : s.trans.log.lh.getD k 0 ≠ L.slot tail := by
      rcases hhome with hlt | hge <;> simp only [LogArea.slot] <;> omega
    rw [contents, contents_append, update_of_ne hne]
    by_cases hkt : k = tail
    · rw [hkt, update_self]
      exact hdata
    · rw [update_of_ne (by simp only [LogArea.slot]; omega)]
      exact hslots k (by omega)

theorem StoreInv.writeHead (hphase : s.phase = .writeHead)
    (hrun : s.mem.writeHead p dev L s.trans.log.lh = .ok (data, m)) :
    StoreInv dev L d₀ { s with
      mem := m, phase := .installTrans false 0, mods := s.mods ++ [(L.start, data)] } := by
  obtain ⟨hcache, -, hkeeps⟩ := h.cache.writeHead hrun
  have hold := h.phase
  rw [hphase] at hold
  obtain ⟨hcommit, hslots⟩ := hold
  refine ⟨h.trans, h.size, ?_, ?_, h.nodup, h.home, h.fits, hcommit, ?_⟩
  · have hpins : uninstalled s = s.trans.log.lh.drop 0 := by
      simp only [uninstalled, hphase, drop_zero]
    rw [contents, contents_append]
    rw [hpins] at hcache
    exact hcache
  · exact fun q j c hq => hkeeps j c (awaiting_pos hq) (h.waits q j c hq)
  · intro k hk
    rw [contents, contents_append]
    exact h.slots_update_start data hk (hslots k hk)

theorem StoreInv.installTrans {r : Bool} {tail : Nat} (hphase : s.phase = .installTrans r tail)
    (htail : tail < s.trans.log.lh.length)
    (hrun : s.mem.installTrans p dev L s.trans.log.lh tail = .ok m) :
    StoreInv dev L d₀ { s with mem := m, phase := .installTrans r (tail + 1) } := by
  have hold := h.phase
  rw [hphase] at hold
  obtain ⟨hcommit, hslots⟩ := hold
  have hpins : uninstalled s = s.trans.log.lh.getD tail 0 :: s.trans.log.lh.drop (tail + 1) := by
    simp only [uninstalled, hphase]
    rw [getD_eq_getElem _ _ htail, drop_eq_getElem_cons htail]
  obtain ⟨hcache, hkeeps⟩ := h.cache.installTrans (hslots tail htail) (by rw [hpins]; simp) hrun
  refine ⟨h.trans, h.size, ?_, ?_, h.nodup, h.home, h.fits, hcommit, hslots⟩
  · -- the header has no duplicates, so the next block is unpinned once and for all
    have hnodup : (s.trans.log.lh.getD tail 0 :: s.trans.log.lh.drop (tail + 1)).Nodup := by
      rw [← hpins]
      simp only [uninstalled, hphase]
      exact h.nodup.sublist (drop_sublist _ _)
    have herase : (uninstalled s).toFinset.erase (s.trans.log.lh.getD tail 0)
        = (s.trans.log.lh.drop (tail + 1)).toFinset := by
      rw [hpins, toFinset_cons, Finset.erase_insert]
      simpa using (nodup_cons.mp hnodup).1
    rw [herase] at hcache
    exact hcache
  · exact fun q j c hq => hkeeps j c (awaiting_pos hq) (h.waits q j c hq)

theorem StoreInv.clearLog (hnone : uninstalled s = []) (hp : s.trans.procs p = .inCommit false)
    (hph : ph = .clearHead false ∨ ph = .idle) :
    StoreInv dev L d₀ { s with
      trans := { s.trans with
        log := { s.trans.log with lh := [] }
        procs := update s.trans.procs p (.inCommit true)
        writes := [] }
      phase := ph } := by
  have hcache := h.cache
  rw [hnone] at hcache
  refine ⟨h.trans.commit hp, h.size, ?_, h.waits, nodup_nil, by simp, L.pos, ?_⟩
  · rcases hph with rfl | rfl <;> exact hcache
  · rcases hph with rfl | rfl
    · exact ⟨⟨p, update_self ..⟩, rfl⟩
    · exact fun _ _ => rfl

theorem StoreInv.clearHead {r : Bool} (hphase : s.phase = .clearHead r)
    (hrun : s.mem.writeHead p dev L s.trans.log.lh = .ok (data, m)) :
    StoreInv dev L d₀ { s with
      mem := m, phase := .idle, mods := s.mods ++ [(L.start, data)] } := by
  obtain ⟨hcache, -, hkeeps⟩ := h.cache.writeHead hrun
  have hold := h.phase
  rw [hphase] at hold
  refine ⟨h.trans, h.size, ?_, ?_, h.nodup, h.home, h.fits, fun _ _ => hold.2⟩
  · have hpins : uninstalled s = s.trans.log.lh := by simp only [uninstalled, hphase]
    rw [contents, contents_append]
    rw [hpins] at hcache
    exact hcache
  · exact fun q j c hq => hkeeps j c (awaiting_pos hq) (h.waits q j c hq)

theorem StoreInv.commitStep (hstep : commitStep dev L s p = some s') :
    StoreInv dev L d₀ s' := by
  unfold Xv6.commitStep at hstep
  split at hstep
  case h_2 => cases hstep
  rename_i cleared hp
  -- only the process that commits is here, so the phase tells whether it has cleared the log
  have hcleared : ∀ c, (∃ q, s.trans.procs q = .inCommit c) → cleared = c := by
    rintro c ⟨q, hq⟩
    have heq := h.trans.single p q cleared c hp hq
    rw [heq, hq] at hp
    cases hp
    rfl
  have hold := h.phase
  cases hphase : s.phase with
  | writeLog tail =>
    simp only [hphase] at hstep
    split at hstep
    · rename_i htail
      split at hstep
      · rename_i data m hrun
        cases hstep
        exact h.writeLog hphase htail hrun
      · cases hstep
        exact h.bioPanic hphase _
      · cases hstep
    · rename_i htail
      cases hstep
      rw [hphase] at hold
      have hpins : uninstalled s = s.trans.log.lh := by simp only [uninstalled, hphase]
      have hcache := h.cache
      rw [hpins] at hcache
      refine ⟨h.trans, h.size, hcache, h.waits, h.nodup, h.home, h.fits, hold.1, ?_⟩
      exact fun k hk => hold.2.2 k (Nat.lt_of_lt_of_le hk (Nat.le_of_not_lt htail))
  | writeHead =>
    simp only [hphase] at hstep
    split at hstep
    · rename_i data m hrun
      cases hstep
      exact h.writeHead hphase hrun
    · cases hstep
      exact h.bioPanic hphase _
    · cases hstep
  | installTrans r tail =>
    simp only [hphase] at hstep
    split at hstep
    · rename_i htail
      split at hstep
      · rename_i m hrun
        cases hstep
        exact h.installTrans hphase htail hrun
      · cases hstep
        exact h.bioPanic hphase _
      · cases hstep
    · rename_i htail
      obtain ⟨t, ht, rfl⟩ := Option.map_eq_some_iff.mp hstep
      rw [hphase] at hold
      rw [hcleared false hold.1] at hp
      cases (transStep_of_trans ht).2
      refine h.clearLog ?_ hp (.inl rfl)
      simp only [uninstalled, hphase]
      exact drop_eq_nil_of_le (by omega)
  | clearHead r =>
    simp only [hphase] at hstep
    split at hstep
    · rename_i data m hrun
      cases hstep
      exact h.clearHead hphase hrun
    · cases hstep
      exact h.bioPanic hphase _
    · cases hstep
  | idle =>
    simp only [hphase] at hstep
    obtain ⟨t, ht, rfl⟩ := Option.map_eq_some_iff.mp hstep
    rw [hphase] at hold
    cases cleared with
    | false =>
      cases (transStep_of_trans ht).2
      have hnil := hold p hp
      exact h.clearLog (by simp only [uninstalled, hphase, hnil]) hp (.inr rfl)
    | true =>
      cases (transStep_of_trans ht).2 with
      | commitDone _ hp =>
        have hpins : uninstalled s = s.trans.log.lh := by simp only [uninstalled, hphase]
        have hcache := h.cache
        rw [hpins] at hcache
        exact ⟨h.trans.commitDone hp, h.size, hcache, h.waits, h.nodup, h.home, h.fits,
          fun _ _ => h.trans.cleared p hp⟩
  | readHead => simp only [hphase, reduceCtorEq] at hstep

theorem StoreInv.step {l : StoreLabel P} (hstep : store dev L s l = some s') : StoreInv dev L d₀ s' := by
  by_cases hpanic : s.panic.isSome ∨ s.trans.panic.isSome
  · simp [store, hpanic] at hstep
  simp only [store, if_neg hpanic] at hstep
  cases l with
  | bget p b =>
    dsimp only at hstep
    split at hstep
    · rename_i hwait
      split at hstep
      · rename_i i m hget
        cases hstep
        exact h.bget hwait hget
      · cases hstep
        exact h.bioPanic rfl _
      · cases hstep
    · cases hstep
  | lock p =>
    dsimp only at hstep
    split at hstep
    · rename_i i b hwait
      split at hstep
      · rename_i m hacq
        cases hstep
        exact h.lock hwait hacq
      · cases hstep
    · cases hstep
  | modify p i data =>
    dsimp only at hstep
    split at hstep
    · rename_i hguard
      cases hstep
      exact h.modify hguard.1 hguard.2.2 data
    · cases hstep
  | bwrite p i =>
    dsimp only at hstep
    split at hstep
    · rename_i m hwrite
      cases hstep
      exact h.bwrite hwrite
    · cases hstep
      exact h.bioPanic rfl _
    · cases hstep
  | logWrite p i =>
    dsimp only at hstep
    split at hstep
    · rename_i hguard
      split at hstep
      · rename_i t ht
        obtain ⟨hnone, htrans⟩ := transStep_of_trans ht
        have hinv := h.trans.step htrans
        cases htrans with
        | absorb _ op _ hp hmem =>
          simp only [hnone, Option.isSome_none, Bool.false_eq_true, if_false, lt_self_iff_false,
            Option.some.injEq] at hstep
          rw [← hstep]
          simpa only [hnone] using h.logAbsorb hp hmem
        | append _ op _ hp hnew _ hroom =>
          simp only [hnone, Option.isSome_none, Bool.false_eq_true, if_false, length_append,
            length_singleton, Nat.lt_succ_self, if_true, Option.some.injEq] at hstep
          rw [← hstep]
          simpa only [hnone] using h.logAppend hguard.1 hguard.2 hp hnew hroom
        | tooBig _ op _ hp _ =>
          cases hstep
          exact h.transOnly hinv rfl rfl fun _ _ => Iff.rfl
        | outsideTrans _ op _ hp _ =>
          cases hstep
          exact h.transOnly hinv rfl rfl fun _ _ => Iff.rfl
      · cases hstep
    · cases hstep
  | brelse p i =>
    dsimp only at hstep
    split at hstep
    · cases hstep
    · rename_i hclean
      split at hstep
      · rename_i m hrel
        cases hstep
        exact h.brelse (by simpa using hclean) hrel
      · cases hstep
        exact h.bioPanic rfl _
      · cases hstep
  | beginOp p =>
    obtain ⟨t, ht, rfl⟩ := Option.map_eq_some_iff.mp hstep
    have hinv := h.trans.step (transStep_of_trans ht).2
    cases (transStep_of_trans ht).2 with
    | sleep _ hp _ =>
      exact h.transOnly hinv rfl rfl fun q c => inCommit_update (by rcases hp with hp | hp <;> simp [hp])
        (by simp)
    | enter _ hp _ _ =>
      exact h.transOnly hinv rfl rfl fun q c => inCommit_update (by rcases hp with hp | hp <;> simp [hp])
        (by simp)
  | endOp p =>
    obtain ⟨t, ht, rfl⟩ := Option.map_eq_some_iff.mp hstep
    exact h.endOp (transStep_of_trans ht).2
  | wake p =>
    obtain ⟨t, ht, rfl⟩ := Option.map_eq_some_iff.mp hstep
    have hinv := h.trans.step (transStep_of_trans ht).2
    cases (transStep_of_trans ht).2 with
    | wake _ hp =>
      exact h.transOnly hinv rfl rfl fun q c => inCommit_update (by simp [hp]) (by simp)
  | commit p => exact h.commitStep hstep

omit h

theorem storeInv_of_reachable (hdev : dev ≠ 0) (h : Reachable (storeMachine P dev L d₀) s) :
    StoreInv dev L d₀ s := by
  refine Reachable.invariant (I := StoreInv dev L d₀) ?_ ?_ h
  · rintro s ⟨sb, -, hnlog, rfl⟩
    refine ⟨transInv_init sb, hnlog, ?_, by simp, nodup_nil, by simp [bootState, Log.initlog],
      L.pos, by simp [PhaseOk, bootState]⟩
    exact cacheInv_binit hdev
  · exact fun s l s' _ hinv hstep => hinv.step hstep

/-- **The bookkeeping of the cache**: a block has one buffer; `refcnt` counts the processes in `bread`
that wait for the buffer, the one that holds it, and the log; what a buffer nobody references has
cached is on the disk. -/
theorem refcnt_counts (hdev : dev ≠ 0) (h : Reachable (storeMachine P dev L d₀) s) :
    (∀ i j b, (s.mem.buf i).Caches dev b → (s.mem.buf j).Caches dev b → i = j) ∧
    (∀ i, (s.mem.buf i).refcnt = awaiting s.waiting i + (if (s.mem.buf i).holder.isSome then 1 else 0)
      + if (s.mem.buf i).dev = dev ∧ (s.mem.buf i).blockno ∈ uninstalled s then 1 else 0) ∧
    ∀ i b, (s.mem.buf i).Caches dev b → (s.mem.buf i).refcnt = 0 →
      s.mem.disk b = contents d₀ s b := by
  have hc := (storeInv_of_reachable hdev h).cache
  refine ⟨hc.unique, fun i => by simpa using (hc.bufs i).refs, fun i b hi hzero => ?_⟩
  refine hc.clean b (fun hb => hc.pinned_used hb hi hzero) fun j hj hcaches => ?_
  obtain rfl := hc.unique j i b hcaches hi
  simp [((hc.bufs j).unused hzero).2.2.2] at hj

/-- The disk `mkfs` makes, without files, after `binit` and `initlog`. -/
def bootStore (P : Type) : StoreState P where
  mem := Bcache.binit fun _ => Block.zero
  trans := bootState P Mkfs.sb
  phase := .idle
  waiting _ := none
  panic := none
  dirty _ := false
  mods := []

omit [Fintype P] in
theorem reachable_store {sched : List (StoreLabel P)}
    (hrun : sched.foldlM (store 1 mkfsLog) (bootStore P) = some s) :
    Reachable (storeMachine P 1 mkfsLog fun _ => Block.zero) s :=
  Reachable.schedule (fun _ _ _ h => h) (.start ⟨Mkfs.sb, rfl, rfl, rfl⟩) hrun

/-- Process 0 has logged block 100 and still holds its buffer when process 1 asks for the block:
each of the three references is counted once. -/
theorem refcnt_counts_pinned : ∃ s : StoreState (Fin 2), s.waiting 1 = some (0, 100) ∧
    (s.mem.buf 0).holder = some 0 ∧ uninstalled s = [100] ∧ (s.mem.buf 0).refcnt = 3 := by
  obtain ⟨s, hrun, hwait, hheld, hlog, hcaches, hone⟩ : ∃ s : StoreState (Fin 2),
      [.beginOp 0, .bget 0 100, .lock 0, .modify 0 0 (fun _ => 7), .logWrite 0 0, .bget 1 100].foldlM
        (store 1 mkfsLog) (bootStore (Fin 2)) = some s ∧
      s.waiting 1 = some (0, 100) ∧ (s.mem.buf 0).holder = some 0 ∧ uninstalled s = [100] ∧
      (s.mem.buf 0).Caches 1 100 ∧ awaiting s.waiting 0 = 1 :=
    ⟨_, rfl, rfl, rfl, rfl, ⟨rfl, rfl⟩, rfl⟩
  refine ⟨s, hwait, hheld, hlog, ?_⟩
  rw [(refcnt_counts (by decide) (reachable_store hrun)).2.1 0, hone, hheld, hlog, hcaches.1, hcaches.2]
  rfl

/-- Only `modify` writes home blocks of the store: installing a transaction, recycling a
buffer and the rest of `commit()` do not. -/
theorem StoreInv.contents_home {l : StoreLabel P} (h : StoreInv dev L d₀ s)
    (hstep : store dev L s l = some s') (hl : ∀ p i data, l ≠ .modify p i data) {b : Nat}
    (hb : L.Home b) : contents d₀ s' b = contents d₀ s b := by
  rcases store_mods hstep hl with hmods | ⟨c, data, hmods, hc⟩
  · simp only [contents, hmods]
  · have hpos := L.pos
    have hfits := h.fits
    have hne : b ≠ c := by
      rcases hc with rfl | ⟨tail, htail, rfl⟩
      · rcases hb with hb | hb <;> omega
      · exact (LogArea.slot_ne_home hb (by omega)).symm
    rw [contents, hmods, contents_append, update_of_ne hne]

/-- **The cache and the log are a block store.** In every state reached by any interleaving of
the processes' calls, on a device other than `0`:

* `bread(dev, b)` returns a buffer for `b`, locked by the caller, with the contents of the
  latest modification of `b` (the initial disk's if there was none);
* for a block outside the log area that is the latest modification by a caller: no other step
  changes the block, in particular not `commit()`;
* every block in the log that is not installed yet is cached and referenced, and
* `bget` does not recycle its buffer. -/
theorem bread_latest (hdev : dev ≠ 0) (h : Reachable (storeMachine P dev L d₀) s) :
    (∀ p i b s', s.waiting p = some (i, b) → store dev L s (.lock p) = some s' →
      (s'.mem.buf i).holder = some p ∧ (s'.mem.buf i).Caches dev b ∧
      (s'.mem.buf i).data = contents d₀ s' b) ∧
    (∀ l s', store dev L s l = some s' → (∀ p i data, l ≠ .modify p i data) →
      ∀ b, L.Home b → contents d₀ s' b = contents d₀ s b) ∧
    (∀ b ∈ uninstalled s, ∃ i, (s.mem.buf i).Caches dev b ∧ 1 ≤ (s.mem.buf i).refcnt) ∧
    (∀ p b s' i c, store dev L s (.bget p b) = some s' → c ∈ uninstalled s →
      (s.mem.buf i).Caches dev c → (s'.mem.buf i).Caches dev c) := by
  have hinv := storeInv_of_reachable hdev h
  refine ⟨?_, fun l s' hstep hl b hb => hinv.contents_home hstep hl hb, ?_, ?_⟩
  · intro p i b s' hwait hstep
    have hpanic : ¬ (s.panic.isSome ∨ s.trans.panic.isSome) := by
      intro hpanic
      simp [store, hpanic] at hstep
    simp only [store, if_neg hpanic, hwait] at hstep
    split at hstep
    · rename_i m hacq
      cases hstep
      obtain ⟨-, heq⟩ := hinv.cache.lock (awaiting_pos hwait) hacq
      have hc := hinv.waits p i b hwait
      show ((m.fill i).buf i).holder = some p ∧ ((m.fill i).buf i).Caches dev b ∧
        ((m.fill i).buf i).data = contents d₀ s b
      rw [heq, Bcache.setBuf_self]
      exact ⟨rfl, hc, by rw [hc.2]⟩
    · cases hstep
  · intro b hb
    obtain ⟨i, hi, -⟩ := hinv.cache.pins b (mem_toFinset.mpr hb)
    exact ⟨i, hi, Nat.pos_of_ne_zero (hinv.cache.pinned_used (mem_toFinset.mpr hb) hi)⟩
  · intro p b s' i c hstep hc hcaches
    have hpanic : ¬ (s.panic.isSome ∨ s.trans.panic.isSome) := by
      intro hpanic
      simp [store, hpanic] at hstep
    simp only [store, if_neg hpanic] at hstep
    split at hstep
    · split at hstep
      · rename_i k m hget
        cases hstep
        obtain ⟨-, hk, -, hothers, -, hused⟩ := hinv.cache.bget hget
        show (m.buf i).Caches dev c
        by_cases hik : i = k
        · -- the buffer is pinned, so it is the cached one
          subst hik
          have hne := hinv.cache.pinned_used (mem_toFinset.mpr hc) hcaches
          rw [← hcaches.2, (hused hne).2]
          exact hk
        · rw [hothers i hik]
          exact hcaches
      · cases hstep
        exact hcaches
      · cases hstep
    · cases hstep

end Steps

/-- A process logs a block and reads it back before the commit. -/
def rereadSchedule : List (StoreLabel (Fin 1)) :=
  [.beginOp 0, .bget 0 100, .lock 0, .modify 0 0 (fun _ => 7), .logWrite 0 0, .brelse 0 0,
    .bget 0 100]

theorem bread_latest_reread :
    ∃ s s' : StoreState (Fin 1),
      Reachable (storeMachine (Fin 1) 1 mkfsLog fun _ => Block.zero) s ∧
      s.waiting 0 = some (0, 100) ∧ 100 ∈ uninstalled s ∧
      store 1 mkfsLog s (.lock 0) = some s' ∧
      (s'.mem.buf 0).data = contents (fun _ => Block.zero) s' 100 := by
  obtain ⟨s, s', hrun, hwait, hlog, hlock⟩ : ∃ s s' : StoreState (Fin 1),
      rereadSchedule.foldlM (store 1 mkfsLog) (bootStore (Fin 1)) = some s ∧
      s.waiting 0 = some (0, 100) ∧ uninstalled s = [100] ∧
      store 1 mkfsLog s (.lock 0) = some s' :=
    ⟨_, _, rfl, rfl, rfl, rfl⟩
  have hs := reachable_store hrun
  have hread := (bread_latest (by decide) hs).1 0 0 100 s' hwait hlock
  exact ⟨s, s', hs, hwait, by rw [hlog]; simp, hlock, hread.2.2⟩

end Xv6
