import Mathlib.Tactic
import Xv6.Lib.Machine
import Xv6.Log.Header

/-!
# Crash atomicity of the redo log

`commit()` and `recover_from_log()` of `kernel/log.c`, one disk write at a time, with a crash allowed
between any two of them.
-/

namespace Xv6

open Machines Function List

/-- The disk, what `bread` returns (`cache`), and the in-memory header `log.lh`. The loop bodies
`writeLogBody`, `installTransBody` and the functions `writeHead`, `readHead` are the statements of
the source; `virtio_disk_rw` writes one block atomically. -/
structure LogState where
  disk : Disk
  -- The contents `bread` returns: the cached copy, or the disk's if there is none.
  cache : Disk
  -- `log.lh.block[0..log.lh.n)`.
  lh : List Nat

namespace LogState

/-- `bwrite(b)`: write the cached contents of block `b` to disk. -/
def bwrite (s : LogState) (b : Nat) : LogState :=
  { s with disk := update s.disk b (s.cache b) }

/-- `memmove(dst->data, src->data, BSIZE)` on cached blocks. -/
def memmove (s : LogState) (dst src : Nat) : LogState :=
  { s with cache := update s.cache dst (s.cache src) }

end LogState

variable {L : LogArea}

/-- The body of the loop of `write_log`: cache block to log block. -/
def writeLogBody (L : LogArea) (tail : Nat) (s : LogState) : LogState :=
  let dst := L.slot tail
  let src := s.lh.getD tail 0
  (s.memmove dst src).bwrite dst

/-- The body of the loop of `install_trans`: log block to home location. -/
def installTransBody (L : LogArea) (tail : Nat) (s : LogState) : LogState :=
  let lbuf := L.slot tail
  let dbuf := s.lh.getD tail 0
  (s.memmove dbuf lbuf).bwrite dbuf

/-- `write_head`: the in-memory header over the header block, then to disk. -/
def writeHead (L : LogArea) (s : LogState) : LogState :=
  let s' := { s with cache := update s.cache L.start (putHeader (s.cache L.start) s.lh) }
  s'.bwrite L.start

def readHead (L : LogArea) (s : LogState) : LogState :=
  { s with lh := getHeader (s.cache L.start) }

/-- Where the one thread inside `commit()` or `recover_from_log()` is; each step performs at most
one disk write. `recovering` is the argument of `install_trans`, and tells the two callers apart
after it. -/
inductive Phase where
  | idle
  | writeLog (tail : Nat)
  | writeHead
  | installTrans (recovering : Bool) (tail : Nat)
  | clearHead (recovering : Bool)
  | readHead
  deriving DecidableEq, Repr

/-- One group: home blocks with their new contents, as `log_write` collects them. The
capacity tests of `log_write` bound its length, and `uint blockno` bounds the numbers. -/
structure Group (L : LogArea) where
  writes : List (Nat × Block)
  nodup : (Writes.addrs writes).Nodup
  home : ∀ b ∈ Writes.addrs writes, L.Home b
  uint : ∀ b ∈ Writes.addrs writes, b < 2 ^ 32
  fits : writes.length < L.size
  logsize : writes.length ≤ LOGSIZE

/-- The machine state: the log layer, the thread, and the history of the run. -/
structure CrashState (L : LogArea) where
  log : LogState
  phase : Phase
  -- The groups handed to `commit()` so far, in order.
  groups : List (Group L)
  -- How many calls of `commit()` have returned.
  returned : Nat
  -- Whether there has been a crash.
  crashed : Bool

def next (L : LogArea) (s : CrashState L) : CrashState L :=
  match s.phase with
  | .idle => s
  | .writeLog tail =>
    if tail < s.log.lh.length then
      { s with log := writeLogBody L tail s.log, phase := .writeLog (tail + 1) }
    else { s with phase := .writeHead }
  | .writeHead => { s with log := writeHead L s.log, phase := .installTrans false 0 }
  | .installTrans recovering tail =>
    if tail < s.log.lh.length then
      { s with log := installTransBody L tail s.log, phase := .installTrans recovering (tail + 1) }
    else
      -- `log.lh.n = 0`, before the last `write_head`
      { s with log := { s.log with lh := [] }, phase := .clearHead recovering }
  | .clearHead recovering =>
    { s with
      log := writeHead L s.log
      phase := .idle
      returned := if recovering then s.returned else s.returned + 1 }
  | .readHead => { s with log := readHead L s.log, phase := .installTrans true 0 }

/-- A group enters `commit()`: its new contents are in the cache and its block numbers in
`log.lh`. With `log.lh.n == 0` the call returns at once. -/
def beginCommit (g : Group L) (s : CrashState L) : CrashState L :=
  let empty := g.writes.length == 0
  { s with
    log := { s.log with
      cache := Writes.perform g.writes s.log.cache
      lh := Writes.addrs g.writes }
    phase := if empty then .idle else .writeLog 0
    groups := s.groups ++ [g]
    returned := if empty then s.returned + 1 else s.returned }

/-- A crash: memory is lost, and the next boot calls `recover_from_log()`. -/
def crash (s : CrashState L) : CrashState L :=
  { s with
    log := { disk := s.log.disk, cache := s.log.disk, lh := [] }
    phase := .readHead
    crashed := true }

inductive CrashLabel (L : LogArea) where
  | commit (g : Group L)
  | run
  | crash

inductive CrashStep (L : LogArea) : CrashState L → CrashLabel L → CrashState L → Prop where
  | commit {s : CrashState L} (g : Group L) (hidle : s.phase = .idle)
      (hcrash : s.crashed = false) : CrashStep L s (.commit g) (beginCommit g s)
  | run {s : CrashState L} (hbusy : s.phase ≠ .idle) : CrashStep L s .run (next L s)
  | crash {s : CrashState L} : CrashStep L s .crash (crash s)

/-- Group commits, thread steps and crashes, from a disk `d₀` whose log is empty (as `mkfs` and a
completed recovery leave it). A crash keeps the disk and loses everything else; the next boot enters
`recover_from_log()`, which may crash again. -/
def crashMachine (L : LogArea) (d₀ : Disk) : Machine (CrashState L) (CrashLabel L) where
  init s := L.header d₀ = [] ∧ s =
    { log := { disk := d₀, cache := d₀, lh := [] }
      phase := .idle
      groups := []
      returned := 0
      crashed := false }
  step := CrashStep L

/-- The disk after applying the groups `gs` in order. -/
def applyGroups (gs : List (Group L)) (d : Disk) : Disk :=
  gs.foldl (fun d g => Writes.perform g.writes d) d

/-! ## The invariant

`Inv d₀ s` names the number `k` of groups the disk recovers to. The phase says how `k`
compares with the history, and what the memory holds that the rest of the phase relies on. -/

/-- The disk of `s` recovers to the first `k` groups over `d₀`. -/
structure RecoversTo (d₀ : Disk) (s : CrashState L) (k : Nat) : Prop where
  le : k ≤ s.groups.length
  homeEq : L.HomeEq (L.recovered s.log.disk) (applyGroups (s.groups.take k) d₀)

/-- The log slots below `tail` hold the contents of the group `ws`, on disk and in memory. -/
def SlotsHold (L : LogArea) (ws : List (Nat × Block)) (tail : Nat) (log : LogState) : Prop :=
  ∀ i (hi : i < ws.length), i < tail →
    log.disk (L.slot i) = (ws[i]).2 ∧ log.cache (L.slot i) = (ws[i]).2

/-- The log entries below `tail` have been copied home. -/
def Installed (L : LogArea) (tail : Nat) (d : Disk) : Prop :=
  ∀ i (hi : i < (L.header d).length), i < tail → d (L.header d)[i] = d (L.slot i)

/-- A group is being written to the log, under an empty header. -/
structure Logging (s : CrashState L) (k tail : Nat) : Prop where
  header : L.header s.log.disk = []
  group : ∃ gs g, s.groups = gs ++ [g] ∧ gs.length = k ∧ s.log.lh = Writes.addrs g.writes ∧
    tail ≤ g.writes.length ∧ SlotsHold L g.writes tail s.log ∧
    ∀ i (hi : i < g.writes.length), s.log.cache (g.writes[i]).1 = (g.writes[i]).2
  returned : s.returned = k

structure Installing (s : CrashState L) (tail : Nat) : Prop where
  lh : s.log.lh = L.header s.log.disk
  le : tail ≤ s.log.lh.length
  cached : ∀ i, i < s.log.lh.length → s.log.cache (L.slot i) = s.log.disk (L.slot i)
  installed : Installed L tail s.log.disk

/-- What holds in each phase; `k` is the number of groups the disk recovers to. -/
def PhaseInv (s : CrashState L) (k : Nat) : Phase → Prop
  | .idle => L.header s.log.disk = [] ∧
      (s.crashed = false → s.returned = s.groups.length ∧ k = s.groups.length)
  | .writeLog tail => Logging s k tail
  | .writeHead => Logging s k s.log.lh.length
  | .installTrans recovering tail => Installing s tail ∧
      (recovering = false → s.returned + 1 = s.groups.length ∧ k = s.groups.length)
  | .clearHead recovering => s.log.lh = [] ∧ Installed L (L.header s.log.disk).length s.log.disk ∧
      (recovering = false → s.returned + 1 = s.groups.length ∧ k = s.groups.length)
  | .readHead => s.log.cache = s.log.disk

/-- Whether the phase belongs to `recover_from_log()`. -/
def Phase.isRecovery : Phase → Bool
  | .idle | .writeLog _ | .writeHead => false
  | .installTrans recovering _ => recovering
  | .clearHead recovering => recovering
  | .readHead => true

/-- Whatever the phase, the disk *recovers to* (`LogArea.recovered`) the first `k` groups. Every
write of the protocol preserves what the disk recovers to except the header write of `commit()`,
which advances it by exactly the current group. -/
structure Inv (d₀ : Disk) (s : CrashState L) (k : Nat) : Prop where
  headerOk : L.HeaderOk s.log.disk
  returned : s.returned ≤ k
  recovers : RecoversTo d₀ s k
  phase : PhaseInv s k s.phase
  -- Only `recover_from_log()` runs after a crash, and only then.
  recovery : s.phase ≠ .idle → s.phase.isRecovery = s.crashed

theorem headerOk_of_nil {d : Disk} (h : L.header d = []) : L.HeaderOk d where
  home := by simp [h]
  fits := by rw [h]; exact L.pos
  nodup := by simp [h]

theorem Group.home_getElem (g : Group L) {i : Nat} (hi : i < g.writes.length) :
    L.Home (g.writes[i]).1 :=
  g.home _ (mem_map_of_mem (getElem_mem hi))

/-! ## One lemma per phase -/

variable {s : CrashState L} {d₀ : Disk} {k : Nat}

variable (h : Inv d₀ s k)

include h

/-- `write_log`, one block: the header stays empty, so the disk recovers to the same groups. -/
theorem inv_writeLog {tail : Nat} (hphase : s.phase = .writeLog tail) :
    Inv d₀ (next L s) k := by
  have hcrash : s.crashed = false := by simpa [hphase, Phase.isRecovery] using h.recovery
  have hp := h.phase
  rw [hphase] at hp
  obtain ⟨hheader, ⟨gs, g, hgs, hlen, hlh, hle, hslots, hcache⟩, hret⟩ := hp
  by_cases htail : tail < s.log.lh.length
  · have hnext : next L s = { s with
        log := writeLogBody L tail s.log, phase := .writeLog (tail + 1) } := by
      simp [next, hphase, htail]
    rw [hnext]
    have ht : tail < g.writes.length := by simpa [hlh, Writes.addrs] using htail
    have hfits := g.fits
    have hsrc : s.log.lh[tail]?.getD 0 = (g.writes[tail]).1 := by
      simp [hlh, Writes.addrs, ht]
    have hbody : writeLogBody L tail s.log = { s.log with
        disk := update s.log.disk (L.slot tail) (g.writes[tail]).2
        cache := update s.log.cache (L.slot tail) (g.writes[tail]).2 } := by
      simp [writeLogBody, LogState.memmove, LogState.bwrite, hsrc, hcache tail ht]
    rw [hbody]
    have hne : L.slot tail ≠ L.start := by simp only [LogArea.slot]; omega
    have hnil : L.header (update s.log.disk (L.slot tail) (g.writes[tail]).2) = [] := by
      rw [LogArea.header_update_of_ne hne, hheader]
    refine ⟨headerOk_of_nil hnil, h.returned, ⟨h.recovers.le, ?_⟩, ⟨hnil, ?_, hret⟩, by simp [hcrash, Phase.isRecovery]⟩
    · intro b hb
      rw [LogArea.recovered_slot hheader (by omega) _ b hb, h.recovers.homeEq b hb]
    · refine ⟨gs, g, hgs, hlen, hlh, by omega, ?_, ?_⟩
      · -- the slots written before, and the one written now
        intro i hi hit
        by_cases heq : i = tail
        · subst heq; simp
        · have hslot : L.slot i ≠ L.slot tail := by simp only [LogArea.slot]; omega
          simpa [update_of_ne hslot] using hslots i hi (by omega)
      · intro i hi
        have hne' : (g.writes[i]).1 ≠ L.slot tail :=
          (LogArea.slot_ne_home (g.home_getElem hi) (by omega)).symm
        simpa [update_of_ne hne'] using hcache i hi
  · have hnext : next L s = { s with phase := .writeHead } := by
      simp [next, hphase, htail]
    rw [hnext]
    refine ⟨h.headerOk, h.returned, ⟨h.recovers.le, h.recovers.homeEq⟩, ⟨hheader, ?_, hret⟩,
      by simp [hcrash, Phase.isRecovery]⟩
    have hend : s.log.lh.length = g.writes.length := by simp [hlh, Writes.addrs]
    refine ⟨gs, g, hgs, hlen, hlh, by simp [hend], fun i hi hit => ?_, hcache⟩
    exact hslots i hi (by omega)

/-- `write_head` in `commit`, the real commit: the disk now recovers to one more group. -/
theorem inv_writeHead (hphase : s.phase = .writeHead) : Inv d₀ (next L s) (k + 1) := by
  have hcrash : s.crashed = false := by simpa [hphase, Phase.isRecovery] using h.recovery
  have hp := h.phase
  rw [hphase] at hp
  obtain ⟨hheader, ⟨gs, g, hgs, hlen, hlh, hle, hslots, hcache⟩, hret⟩ := hp
  have hend : s.log.lh.length = g.writes.length := by simp [hlh, Writes.addrs]
  have hnext : next L s = { s with log := writeHead L s.log, phase := .installTrans false 0 } := by
    simp [next, hphase]
  rw [hnext]
  set hb := putHeader (s.log.cache L.start) (Writes.addrs g.writes) with hhb
  have hbody : writeHead L s.log = { s.log with
      disk := update s.log.disk L.start hb
      cache := update s.log.cache L.start hb } := by
    simp [writeHead, LogState.bwrite, hlh, hhb]
  rw [hbody]
  have hslot : ∀ i (hi : i < g.writes.length), s.log.disk (L.slot i) = (g.writes[i]).2 :=
    fun i hi => (hslots i hi (by omega)).1
  have hlogged : L.logged (update s.log.disk L.start hb) = g.writes :=
    LogArea.logged_putHeader g.logsize g.uint hslot _
  have hnew : L.header (update s.log.disk L.start hb) = Writes.addrs g.writes := by
    rw [← LogArea.addrs_logged, hlogged]
  have hok : L.HeaderOk (update s.log.disk L.start hb) := by
    refine ⟨?_, ?_, ?_⟩
    · rw [hnew]; exact g.home
    · rw [hnew]; simpa [Writes.addrs] using g.fits
    · rw [hnew]; exact g.nodup
  refine ⟨hok, by have := h.returned; simp only; omega, ⟨?_, ?_⟩, ⟨⟨?_, by simp, ?_, ?_⟩, ?_⟩,
    by simp [hcrash, Phase.isRecovery]⟩
  · simp [hgs, hlen]
  · -- performing the group over the home blocks, which held the first `k` groups
    intro b hb'
    have hbase : s.log.disk b = applyGroups (s.groups.take k) d₀ b := by
      have := h.recovers.homeEq b hb'
      rwa [LogArea.recovered_of_header_nil hheader] at this
    have htake : s.groups.take (k + 1) = s.groups.take k ++ [g] := by
      simp [hgs, ← hlen]
    rw [LogArea.recovered, hlogged, htake, applyGroups, foldl_append]
    refine Writes.perform_congr fun _ => ?_
    exact (LogArea.homeEq_update_start _ b hb').trans hbase
  · exact hlh.trans hnew.symm
  · intro i hi
    have hne : L.slot i ≠ L.start := by simp only [LogArea.slot]; omega
    have hi' : i < g.writes.length := by simpa [hend] using hi
    simp only [update_of_ne hne]
    rw [(hslots i hi' (by omega)).1, (hslots i hi' (by omega)).2]
  · exact fun i hi hlt => absurd hlt (by omega)
  · intro _
    simp [hgs, hlen, hret]

/-- `install_trans`, one block: copying a logged block home changes nothing the disk recovers
to. The same body serves `commit` and `recover_from_log`. -/
theorem inv_installTrans {tail : Nat} {recovering : Bool}
    (hphase : s.phase = .installTrans recovering tail) : Inv d₀ (next L s) k := by
  have hp := h.phase
  rw [hphase] at hp
  obtain ⟨⟨hlh, hle, hcached, hinst⟩, hk⟩ := hp
  have hrec : recovering = s.crashed := by simpa [hphase, Phase.isRecovery] using h.recovery
  by_cases htail : tail < s.log.lh.length
  · have hnext : next L s = { s with
        log := installTransBody L tail s.log, phase := .installTrans recovering (tail + 1) } := by
      simp [next, hphase, htail]
    rw [hnext]
    have ht : tail < (L.header s.log.disk).length := by rw [← hlh]; exact htail
    have hfits := h.headerOk.fits
    have hdst : s.log.lh[tail]?.getD 0 = (L.header s.log.disk)[tail] := by
      simp [hlh, ht]
    have hhome : ∀ i (hi : i < (L.header s.log.disk).length), L.Home (L.header s.log.disk)[i] :=
      fun i hi => h.headerOk.home _ (getElem_mem hi)
    set dst := (L.header s.log.disk)[tail] with hdstdef
    set v := s.log.disk (L.slot tail) with hv
    have hbody : installTransBody L tail s.log = { s.log with
        disk := update s.log.disk dst v
        cache := update s.log.cache dst v } := by
      simp [installTransBody, LogState.memmove, LogState.bwrite, hdst, hcached tail htail, hv]
    rw [hbody]
    have hlogged := LogArea.logged_update_home h.headerOk (hhome tail ht) v
    have hheader : L.header (update s.log.disk dst v) = L.header s.log.disk := by
      rw [← LogArea.addrs_logged, hlogged, LogArea.addrs_logged]
    have hslot : ∀ i, i < (L.header s.log.disk).length → L.slot i ≠ dst :=
      fun i hi => LogArea.slot_ne_home (hhome tail ht) (by omega)
    refine ⟨⟨?_, ?_, ?_⟩, h.returned, ⟨h.recovers.le, ?_⟩, ⟨⟨?_, ?_, ?_, ?_⟩, hk⟩, ?_⟩
    · rw [hheader]; exact h.headerOk.home
    · rw [hheader]; exact h.headerOk.fits
    · rw [hheader]; exact h.headerOk.nodup
    · simp only
      rw [hv, hdstdef, LogArea.recovered_install h.headerOk ht]
      exact h.recovers.homeEq
    · exact hlh.trans hheader.symm
    · simpa using htail
    · intro i hi
      have hi' : i < (L.header s.log.disk).length := by simpa [hlh] using hi
      simpa [update_of_ne (hslot i hi')] using hcached i hi
    · -- entries copied before keep their place: the header has no duplicates
      intro i hi hit
      simp only [hheader] at hi ⊢
      rw [update_of_ne (hslot i hi)]
      by_cases heq : i = tail
      · subst heq; simp [hdstdef, hv]
      · have hne : (L.header s.log.disk)[i] ≠ dst := fun he =>
          heq ((List.Nodup.getElem_inj_iff h.headerOk.nodup).mp he)
        rw [update_of_ne hne]
        exact hinst i hi (by omega)
    · simp [Phase.isRecovery, hrec]
  · have hnext : next L s = { s with
        log := { s.log with lh := [] }, phase := .clearHead recovering } := by
      simp [next, hphase, htail]
    rw [hnext]
    refine ⟨h.headerOk, h.returned, ⟨h.recovers.le, h.recovers.homeEq⟩, ⟨rfl, ?_, hk⟩, ?_⟩
    · intro i hi _
      rw [← hlh] at hi
      exact hinst i (by rw [← hlh]; exact hi) (by omega)
    · simp [Phase.isRecovery, hrec]

/-- The last `write_head` empties the log of a disk on which everything is installed. -/
theorem inv_clearHead {recovering : Bool} (hphase : s.phase = .clearHead recovering) :
    Inv d₀ (next L s) k := by
  have hp := h.phase
  rw [hphase] at hp
  obtain ⟨hlh, hinst, hk⟩ := hp
  have hrec : recovering = s.crashed := by simpa [hphase, Phase.isRecovery] using h.recovery
  have hnext : next L s = { s with
      log := writeHead L s.log
      phase := .idle
      returned := if recovering then s.returned else s.returned + 1 } := by
    simp [next, hphase]
  rw [hnext]
  set hb := putHeader (s.log.cache L.start) [] with hhb
  have hbody : writeHead L s.log = { s.log with
      disk := update s.log.disk L.start hb
      cache := update s.log.cache L.start hb } := by
    simp [writeHead, LogState.bwrite, hlh, hhb]
  rw [hbody]
  have hnil : L.header (update s.log.disk L.start hb) = [] := by
    rw [LogArea.header, update_self, hhb]
    exact getHeader_putHeader (by simp) (by simp)
  have hdone : L.recovered s.log.disk = s.log.disk :=
    LogArea.recovered_of_installed h.headerOk fun i hi => hinst i hi hi
  refine ⟨headerOk_of_nil hnil, ?_, ⟨h.recovers.le, ?_⟩, ⟨hnil, ?_⟩, by simp⟩
  · cases recovering with
    | true => simpa using h.returned
    | false =>
      have := hk rfl
      simp only [Bool.false_eq_true, if_false]
      omega
  · intro b hb'
    rw [LogArea.recovered_of_header_nil hnil]
    refine (LogArea.homeEq_update_start _ b hb').trans ?_
    rw [← hdone]
    exact h.recovers.homeEq b hb'
  · intro hc
    have hr : recovering = false := hrec.trans hc
    simpa [hr] using hk hr

/-- `read_head` after a boot: the cache is empty, so `log.lh` is the header on disk. -/
theorem inv_readHead (hphase : s.phase = .readHead) : Inv d₀ (next L s) k := by
  have hp : s.log.cache = s.log.disk := by simpa [hphase, PhaseInv] using h.phase
  have hcrash : s.crashed = true := by simpa [hphase, Phase.isRecovery] using h.recovery
  have hnext : next L s = { s with log := readHead L s.log, phase := .installTrans true 0 } := by
    simp [next, hphase]
  rw [hnext]
  refine ⟨h.headerOk, h.returned, ⟨h.recovers.le, h.recovers.homeEq⟩,
    ⟨⟨?_, by simp, ?_, ?_⟩, by simp⟩, by simp [Phase.isRecovery, hcrash]⟩
  · simp [readHead, hp, LogArea.header]
  · intro i _
    simp [readHead, hp]
  · exact fun i hi hlt => absurd hlt (by omega)

theorem inv_crash : Inv d₀ (crash s) k :=
  ⟨h.headerOk, h.returned, ⟨h.recovers.le, h.recovers.homeEq⟩, rfl, fun _ => rfl⟩

omit h

theorem inv_beginCommit (g : Group L) (h : Inv d₀ s k) (hphase : s.phase = .idle)
    (hcrash : s.crashed = false) : ∃ k', Inv d₀ (beginCommit g s) k' := by
  have hp := h.phase
  rw [hphase] at hp
  obtain ⟨hheader, hk⟩ := hp
  obtain ⟨hret, hk⟩ := hk hcrash
  have hhome : L.HomeEq (L.recovered s.log.disk) (applyGroups s.groups d₀) := by
    have := h.recovers.homeEq
    rwa [hk, take_length] at this
  by_cases hempty : g.writes.length = 0
  · -- nothing is logged: `commit()` returns, and the group changes nothing
    have hwrites : g.writes = [] := length_eq_zero_iff.mp hempty
    refine ⟨k + 1, h.headerOk, ?_, ⟨?_, ?_⟩, ?_, ?_⟩
    · simp [beginCommit, hwrites, hret, hk]
    · simp [beginCommit, hk]
    · have htake : (s.groups ++ [g]).take (k + 1) = s.groups ++ [g] :=
        take_of_length_le (by simp [hk])
      have happly : applyGroups (s.groups ++ [g]) d₀ = applyGroups s.groups d₀ := by
        simp [applyGroups, foldl_append, hwrites]
      simp only [beginCommit]
      rw [htake, happly]
      exact hhome
    · simp [beginCommit, hwrites, PhaseInv, hheader, hret, hk]
    · simp [beginCommit, hwrites]
  · refine ⟨k, h.headerOk, ?_, ⟨?_, ?_⟩, ?_, ?_⟩
    · simp [beginCommit, hempty, h.returned]
    · simp [beginCommit, hk]
    · have htake : (s.groups ++ [g]).take k = s.groups := by simp [hk]
      simp only [beginCommit]
      rw [htake]
      exact hhome
    · have hphase' : (beginCommit g s).phase = .writeLog 0 := by simp [beginCommit, hempty]
      rw [hphase']
      refine ⟨hheader, ⟨s.groups, g, rfl, hk.symm, rfl, by omega, ?_, ?_⟩, ?_⟩
      · exact fun i hi hlt => absurd hlt (by omega)
      · exact fun i hi => Writes.perform_getElem g.nodup _ hi
      · simp [beginCommit, hempty, hret, hk]
    · simp [beginCommit, hempty, Phase.isRecovery, hcrash]

/-! ## Whole runs -/

theorem inv_of_reachable (h : Reachable (crashMachine L d₀) s) : ∃ k, Inv d₀ s k := by
  refine Reachable.invariant (I := fun s => ∃ k, Inv d₀ s k) ?_ ?_ h
  · rintro s ⟨hheader, rfl⟩
    refine ⟨0, headerOk_of_nil hheader, le_rfl, ⟨by simp, ?_⟩, ?_, by simp⟩
    · intro b _
      rw [LogArea.recovered_of_header_nil hheader]
      rfl
    · simp [PhaseInv, hheader]
  · rintro s l s' _ ⟨k, hinv⟩ hstep
    cases hstep with
    | commit g hidle hcrash => exact inv_beginCommit g hinv hidle hcrash
    | crash => exact ⟨k, inv_crash hinv⟩
    | run hbusy =>
      cases hphase : s.phase with
      | idle => exact absurd hphase hbusy
      | writeLog tail => exact ⟨k, inv_writeLog hinv hphase⟩
      | writeHead => exact ⟨k + 1, inv_writeHead hinv hphase⟩
      | installTrans recovering tail => exact ⟨k, inv_installTrans hinv hphase⟩
      | clearHead recovering => exact ⟨k, inv_clearHead hinv hphase⟩
      | readHead => exact ⟨k, inv_readHead hinv hphase⟩

/-- **Crash atomicity of the redo log.** Whatever groups were committed and wherever
`commit()` and any number of recoveries were cut, once no commit or recovery is running (so
after a completed recovery) the home blocks hold exactly the first `k` groups for some `k`,
and no group whose `commit()` had returned is missing. The log is empty again, so the next
boot starts from the same situation. -/
theorem commit_crash_atomic {d₀ : Disk} {s : CrashState L}
    (h : Reachable (crashMachine L d₀) s) (hdone : s.phase = .idle) :
    ∃ k, s.returned ≤ k ∧ k ≤ s.groups.length ∧
      L.HomeEq s.log.disk (applyGroups (s.groups.take k) d₀) ∧ L.header s.log.disk = [] := by
  obtain ⟨k, hinv⟩ := inv_of_reachable h
  have hp := hinv.phase
  rw [hdone] at hp
  have hhome := hinv.recovers.homeEq
  rw [LogArea.recovered_of_header_nil hp.1] at hhome
  exact ⟨k, hinv.returned, hinv.recovers.le, hhome, hp.1⟩

def mkfsLog : LogArea := ⟨2, LOGSIZE, by decide⟩

def oneBlockGroup : Group mkfsLog where
  writes := [(40, fun _ => 7)]
  nodup := by simp
  home := by decide
  uint := by decide
  fits := by decide
  logsize := by decide

/-- Right after the header write of `commit()` a crash comes, and a second one in the middle
of the recovery. -/
theorem commit_crash_atomic_oneBlock :
    ∃ s : CrashState mkfsLog, Reachable (crashMachine mkfsLog fun _ => Block.zero) s ∧
      s.crashed = true ∧ s.groups = [oneBlockGroup] ∧
      ∃ k, s.returned ≤ k ∧ k ≤ 1 ∧
        mkfsLog.HomeEq s.log.disk
          (applyGroups ([oneBlockGroup].take k) fun _ => Block.zero) := by
  have h0 : Reachable (crashMachine mkfsLog fun _ => Block.zero) _ := .start ⟨by decide, rfl⟩
  have h1 := h0.next (.commit oneBlockGroup rfl rfl)
  have h2 := h1.next (.run (by decide))
  have h3 := h2.next (.run (by decide))
  have h4 := h3.next (.run (by decide))
  have h5 := h4.next .crash
  have h6 := h5.next (.run (by decide))
  have h7 := h6.next (.run (by decide))
  have h8 := h7.next .crash
  have h9 := h8.next (.run (by decide))
  have h10 := h9.next (.run (by decide))
  have h11 := h10.next (.run (by decide))
  have h12 := h11.next (.run (by decide))
  refine ⟨_, h12, by decide, rfl, ?_⟩
  obtain ⟨k, hret, hle, hhome, _⟩ := commit_crash_atomic h12 (by decide)
  exact ⟨k, hret, hle, hhome⟩

end Xv6
