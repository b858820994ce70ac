import Xv6.Log.Trans

/-!
# Space in the log

`begin_op` reserves `MAXOPBLOCKS` blocks of the log for every operation it admits, out of `LOGSIZE`;
`log_write` has room for `log.size - 1` blocks, and `mkfs` makes `log.size` equal to `LOGSIZE` although
one of its blocks is the header.
-/

namespace Xv6

open Machines Function Finset

variable {P : Type}

/-- The blocks operation `op` has passed to `log_write`. -/
def opBlocks (writes : List (Nat × Nat)) (op : Nat) : Finset Nat :=
  ((writes.filter fun e => e.1 = op).map Prod.snd).toFinset

theorem mem_opBlocks {writes : List (Nat × Nat)} {op b : Nat} :
    b ∈ opBlocks writes op ↔ (op, b) ∈ writes := by
  simp [opBlocks]

theorem opBlocks_append (writes : List (Nat × Nat)) (op o b : Nat) :
    opBlocks (writes ++ [(op, b)]) o
      = if o = op then insert b (opBlocks writes o) else opBlocks writes o := by
  ext x
  split <;> simp [mem_opBlocks] <;> grind

/-- A condition on runs: no operation passes more than `m` distinct blocks to `log_write`. -/
def OpBound (m : Nat) (s : TransState P) : TransLabel P → Prop
  | .logWrite p b =>
    match s.procs p with
    | .inOp op => (insert b (opBlocks s.writes op)).card ≤ m
    | _ => True
  | _ => True

instance (m : Nat) (s : TransState P) (l : TransLabel P) : Decidable (OpBound m s l) := by
  unfold OpBound
  split
  · split <;> infer_instance
  · infer_instance

theorem OpBound.card_le {m : Nat} {s : TransState P} {p : P} {op b : Nat}
    (h : OpBound m s (.logWrite p b)) (hp : s.procs p = .inOp op) :
    (insert b (opBlocks s.writes op)).card ≤ m := by
  simpa only [OpBound, hp] using h

theorem OpBound.mono {m n : Nat} (hmn : m ≤ n) {s : TransState P} {l : TransLabel P}
    (h : OpBound m s l) : OpBound n s l := by
  cases l with
  | logWrite p b =>
    cases hp : s.procs p with
    | inOp op =>
      have hcard := h.card_le hp
      simp only [OpBound, hp]
      omega
    | _ => simp only [OpBound, hp]
  | _ => trivial

/-- On the file system of `mkfs`, operations of at most `m` blocks never reach
`panic("too big a transaction")`, whatever the processes and the interleaving. -/
def NeverTooBig (m : Nat) : Prop :=
  ∀ (P : Type) [Fintype P] [DecidableEq P] (s : TransState P),
    Reachable ((transMachine P Mkfs.sb).restrict (OpBound m)) s → s.panic ≠ some .tooBig

/-- The blocks a process may still add to the header under the bound `m`. -/
def reserve (m : Nat) (writes : List (Nat × Nat)) : OpState → Nat
  | .inOp op => m - (opBlocks writes op).card
  | _ => 0

theorem reserve_inOp (m : Nat) (writes : List (Nat × Nat)) (op : Nat) :
    reserve m writes (.inOp op) = m - (opBlocks writes op).card :=
  rfl

/-- The header together with what the admitted operations may still add to it leaves a block of the
log unused. Below `MAXOPBLOCKS` blocks per operation it never fills the log. -/
structure Reserve [Fintype P] (m : Nat) (s : TransState P) : Prop where
  size : s.log.size = LOGSIZE
  room : s.log.lh.length + ∑ p, reserve m s.writes (s.procs p) ≤ LOGSIZE - 2
  noPanic : s.panic ≠ some .tooBig

section Space

variable [Fintype P] {s s' : TransState P} {p : P} {m : Nat}

theorem sum_reserve_le (m : Nat) (writes : List (Nat × Nat)) (procs : P → OpState) :
    ∑ p, reserve m writes (procs p) ≤ inOps procs * m := by
  rw [inOps_eq_sum, sum_mul]
  refine sum_le_sum fun p _ => ?_
  cases procs p <;> simp [reserve, OpState.isInOp]

/-- The reservation does not grow when processes leave operations or stay where they were. -/
theorem sum_reserve_le_of_leave {writes : List (Nat × Nat)} {procs procs' : P → OpState}
    (h : ∀ p op, procs' p = .inOp op → procs p = .inOp op) :
    ∑ p, reserve m writes (procs' p) ≤ ∑ p, reserve m writes (procs p) := by
  refine sum_le_sum fun p _ => ?_
  cases hp : procs' p with
  | inOp op => rw [h p op hp]
  | _ => simp [reserve]

theorem Reserve.leave {procs' : P → OpState} (h : Reserve m s)
    (hprocs : ∀ p op, procs' p = .inOp op → s.procs p = .inOp op) (outstanding : Nat)
    (committing : Bool) :
    Reserve m { s with
      log := { s.log with outstanding := outstanding, committing := committing }
      procs := procs' } where
  __ := h
  room := le_trans (Nat.add_le_add_left (sum_reserve_le_of_leave hprocs) _) h.room

theorem reserve_init : Reserve m (bootState P Mkfs.sb) where
  size := rfl
  room := by simp [bootState, Log.initlog, reserve]
  noPanic := by simp [bootState]

variable [DecidableEq P]

/-- Admission: with the log idle there is nothing in the header; with one operation
outstanding the header has at most ten blocks, with two it has none. -/
theorem Reserve.enter (hm : m < MAXOPBLOCKS) (hinv : TransInv s) (h : Reserve m s)
    (hp : s.procs p = .outside ∨ s.procs p = .woken) (hidle : s.log.committing = false)
    (hroom : s.log.lh.length + (s.log.outstanding + 1) * MAXOPBLOCKS ≤ LOGSIZE) :
    Reserve m { s with
      log := { s.log with outstanding := s.log.outstanding + 1 }
      procs := update s.procs p (.inOp s.nextOp)
      nextOp := s.nextOp + 1 } where
  __ := h
  room := by
    have hsum := sum_update (reserve m s.writes) s.procs p (.inOp s.nextOp)
    have hold : reserve m s.writes (s.procs p) = 0 := by rcases hp with hp | hp <;> rw [hp] <;> rfl
    have hnew : reserve m s.writes (.inOp s.nextOp) ≤ m := Nat.sub_le _ _
    have hothers := sum_reserve_le m s.writes s.procs
    rw [← hinv.counts] at hothers
    have hempty := hinv.empty hidle
    simp only [MAXOPBLOCKS, LOGSIZE] at hm hroom ⊢
    -- three operations at most, so the products below are linear
    have hout : s.log.outstanding < 3 := by omega
    interval_cases hcase : s.log.outstanding
    · rw [hempty rfl]
      simp only [List.length_nil]
      omega
    · omega
    · omega

/-- A `log_write` under the bound: a block new to the header is new to its operation, whose
reservation shrinks by one. -/
theorem Reserve.logWrite {op b : Nat} {lh : List Nat} (hinv : TransInv s) (h : Reserve m s)
    (hp : s.procs p = .inOp op) (hbound : (insert b (opBlocks s.writes op)).card ≤ m)
    (hlh : lh = s.log.lh ∨ b ∉ s.log.lh ∧ lh = s.log.lh ++ [b]) :
    Reserve m { s with
      log := { s.log with lh := lh }, writes := s.writes ++ [(op, b)] } where
  __ := h
  room := by
    have hsum := sum_add_of_eq_off (p := p)
      (f := fun q => reserve m (s.writes ++ [(op, b)]) (s.procs q))
      (g := fun q => reserve m s.writes (s.procs q)) fun q hq => by
        cases hcase : s.procs q with
        | inOp o =>
          have hne : o ≠ op := fun heq => hq (hinv.distinct q p o hcase (by rw [heq]; exact hp))
          simp only [reserve_inOp, opBlocks_append, if_neg hne]
        | _ => rfl
    simp only [hp, reserve_inOp, opBlocks_append, if_true] at hsum
    have hroom := h.room
    rcases hlh with rfl | ⟨hnew, rfl⟩
    · have hgrow : (opBlocks s.writes op).card ≤ (insert b (opBlocks s.writes op)).card :=
        card_le_card (subset_insert _ _)
      simp only
      omega
    · have hb : b ∉ opBlocks s.writes op := fun hb =>
        hnew ((hinv.header b).mpr ⟨op, mem_opBlocks.mp hb⟩)
      rw [card_insert_of_notMem hb] at hsum hbound
      simp only [List.length_append, List.length_singleton]
      omega

theorem Reserve.commit (hinv : TransInv s) (h : Reserve m s) (hp : s.procs p = .inCommit false) :
    Reserve m { s with
      log := { s.log with lh := [] }
      procs := update s.procs p (.inCommit true)
      writes := [] } where
  __ := h
  room := by
    have hsum := sum_reserve_le m [] (update s.procs p (.inCommit true))
    have hnone : inOps s.procs = 0 := by
      rw [← hinv.counts]
      exact hinv.quiet (hinv.flag.mpr ⟨p, false, hp⟩)
    rw [inOps_update_waiting (by rw [hp]; rfl) rfl, hnone, Nat.zero_mul] at hsum
    simp only [List.length_nil]
    omega

theorem Reserve.step {l : TransLabel P} (hm : m < MAXOPBLOCKS) (hinv : TransInv s)
    (h : Reserve m s) (hbound : OpBound m s l) (hstep : TransStep s l s') : Reserve m s' := by
  cases hstep with
  | sleep | endLast | wake =>
    exact h.leave (by simp only [update_apply]; grind) _ _
  | enter p hp hidle hroom => exact h.enter hm hinv hp hidle hroom
  | absorb p op b hp _ => exact h.logWrite hinv hp (hbound.card_le hp) (.inl rfl)
  | append p op b hp hnew _ _ =>
    exact h.logWrite hinv hp (hbound.card_le hp) (.inr ⟨hnew, rfl⟩)
  | tooBig p op b hp hfull =>
    have := h.room
    have := h.size
    simp only [LOGSIZE] at *
    omega
  | outsideTrans | endPanic => exact { h with noPanic := by simp }
  | endMore | commitDone =>
    exact h.leave (by simp only [wakeup_eq_inOp, update_apply]; grind) _ _
  | commit p hp => exact h.commit hinv hp

theorem reserve_of_reachable (hm : m < MAXOPBLOCKS)
    (h : Reachable ((transMachine P Mkfs.sb).restrict (OpBound m)) s) : Reserve m s := by
  refine Reachable.invariant (I := Reserve m) ?_ ?_ h
  · rintro s rfl
    exact reserve_init
  · intro s l s' hs hres hstep
    exact hres.step hm (transInv_of_reachable hs.of_restrict) hstep.1
      (transStep_of_trans hstep.2).2

end Space

/-! ### Three full operations -/

/-- Three processes are admitted and log ten blocks each. -/
def fullSchedule : List (TransLabel (Fin 3)) :=
  [.beginOp 0, .beginOp 1, .beginOp 2] ++
    (List.range 30).map fun i => .logWrite (Fin.ofNat 3 (i / 10)) (100 + i)

theorem fullSchedule_tooBig :
    (fullSchedule.foldlM (fun s l => if OpBound MAXOPBLOCKS s l then trans s l else none)
      (bootState (Fin 3) Mkfs.sb)).bind (·.panic) = some .tooBig := by
  decide +kernel

/-- The panic is reached by operations that keep to `MAXOPBLOCKS` blocks. -/
theorem tooBig_reachable : ∃ s : TransState (Fin 3),
    Reachable ((transMachine (Fin 3) Mkfs.sb).restrict (OpBound MAXOPBLOCKS)) s ∧
      s.panic = some .tooBig := by
  obtain ⟨s, hrun, hpanic⟩ := Option.bind_eq_some_iff.mp fullSchedule_tooBig
  refine ⟨s, Reachable.schedule ?_ (.start rfl) hrun, hpanic⟩
  intro s l s' h
  split at h
  · rename_i hbound
    exact ⟨hbound, h⟩
  · cases h

/-- **The space an operation may use.** On the file system of `mkfs`, `log_write` never reaches
`panic("too big a transaction")` in runs where every operation logs at most `m` distinct blocks
exactly when `m` is below `MAXOPBLOCKS`. -/
theorem neverTooBig_iff (m : Nat) : NeverTooBig m ↔ m < MAXOPBLOCKS := by
  constructor
  · intro h
    by_contra hm
    obtain ⟨s, hs, hpanic⟩ := tooBig_reachable
    exact h (Fin 3) s (hs.restrict_mono fun _ _ hb => hb.mono (Nat.le_of_not_lt hm)) hpanic
  · intro hm P _ _ s hs
    exact (reserve_of_reachable hm hs).noPanic

/-- Operations that use the `MAXOPBLOCKS` blocks `begin_op` reserves for them can overflow the
log. -/
theorem not_neverTooBig_MAXOPBLOCKS : ¬ NeverTooBig MAXOPBLOCKS := by
  intro h
  obtain ⟨s, hs, hpanic⟩ := tooBig_reachable
  exact h (Fin 3) s hs hpanic

end Xv6
