import Xv6.Proc.Tree
import Xv6.Vm.Copy

/-!
# `wait` and `wait2`

Both functions (`kernel/proc.c`) as they are written, next to each other. The caller gives up the CPU
where it takes the lock of a child and where it sleeps; a schedule says what the other processes do
there, and the two functions are compared under the same schedule.
-/

namespace Xv6

open Prog Radix Function

/-! ## The caller's memory -/

abbrev UserMem : Type := Nat → Option UInt8

/-- `copyout`, on the memory that the caller sees: bytes are stored up to the first that it may not
use. -/
def UserMem.copyout (mem : UserMem) (va : Nat) : List UInt8 → Int × UserMem
  | [] => (0, mem)
  | b :: bs =>
    match mem va with
    | none => (-1, mem)
    | some _ => UserMem.copyout (update mem va (some b)) (va + 1) bs

def intBytes (x : Int32) : List UInt8 :=
  (List.range 4).map fun i => UInt8.ofNat (x.toUInt32.toNat / 256 ^ i)

theorem UserMem.copyout_eq {mem : UserMem} {va m : Nat} {bs : List UInt8} (hm : m ≤ bs.length)
    (hin : ∀ j, j < m → mem (va + j) ≠ none) (hstop : m = bs.length ∨ mem (va + m) = none) :
    mem.copyout va bs = (if m = bs.length then 0 else -1,
      fun a => if va ≤ a ∧ a < va + m then some (bs.getD (a - va) 0) else mem a) := by
  induction bs generalizing mem va m with
  | nil =>
    obtain rfl : m = 0 := Nat.le_zero.mp hm
    refine Prod.ext rfl (funext fun a => ?_)
    exact (if_neg (by omega)).symm
  | cons b bs ih =>
    unfold UserMem.copyout
    cases m with
    | zero =>
      obtain hnone : mem va = none := hstop.resolve_left (by simp)
      rw [hnone]
      refine Prod.ext rfl (funext fun a => ?_)
      exact (if_neg (by omega)).symm
    | succ m =>
      obtain ⟨x, hx⟩ := Option.ne_none_iff_exists'.mp (hin 0 (Nat.succ_pos m))
      rw [Nat.add_zero] at hx
      rw [hx]
      dsimp only
      have hnext (j : Nat) : update mem va (some b) (va + 1 + j) = mem (va + (j + 1)) := by
        rw [update_of_ne (by omega), Nat.add_assoc, Nat.add_comm 1]
      rw [ih (Nat.le_of_succ_le_succ hm) (fun j hj => hnext j ▸ hin (j + 1) (by omega))
        (by simpa [hnext] using hstop)]
      refine Prod.ext (if_congr (by simp) rfl rfl) (funext fun a => ?_)
      -- the first byte, and what the induction gives for the others
      grind [update_apply]

open Classical in
/-- What the user sees through the page table `t`. -/
noncomputable def userView (t : Shape Pte) (s : Vm) : UserMem := fun a =>
  if Reach t a then some (userByte t s.mem a) else none

/-- `copyout` to a page table, as the user sees it: it stores the bytes up to the first that falls
on an address the user may not use, and returns −1 if there is one. -/
theorem copyout_view {s : Vm} {root : Nat} {t : Shape Pte} (h : UserTable s root t) (va : Nat)
    (bs : List UInt8) {E : VmPanic → Prop} :
    wp E (copyout root va (bs.getD · 0) bs.length)
      (fun r s' => (userView t s).copyout va bs = (r, userView t s')) s := by
  refine (copyout_user h va (bs.getD · 0) bs.length).call ?_
  rintro r s' ⟨m, hstored, hreach, hres⟩
  have hle : m ≤ bs.length := by omega
  -- the bytes stored are those within reach, from the first on
  have hin (a : Nat) (ha : va ≤ a ∧ a < va + m) : Reach t a := by
    have := hreach (a - va) (by omega)
    rwa [Nat.add_sub_cancel' ha.1] at this
  rw [UserMem.copyout_eq hle (fun j hj => ?_) (hres.imp And.right fun hno => if_neg hno.2.2)]
  · refine Prod.ext ?_ (funext fun a => ?_)
    · rcases hres with ⟨rfl, rfl⟩ | ⟨rfl, hlt, -⟩
      · exact if_pos rfl
      · exact if_neg hlt.ne
    · dsimp only [userView]
      by_cases ha : Reach t a
      · rw [if_pos ha, if_pos ha, hstored.byte a ha, apply_ite some]
      · rw [if_neg fun hrange => ha (hin a hrange), if_neg ha, if_neg ha]
  · unfold userView
    rw [if_pos (hreach j hj)]
    exact Option.some_ne_none _

/-- Four bytes across a page boundary. -/
theorem copyout_view_two_pages : ∃ t s',
    (copyout 0x80100 4094 ([1, 2, 3, 4].getD · 0) 4).run twoPageVm = .ok (0, s') ∧
      (userView t twoPageVm).copyout 4094 [1, 2, 3, 4] = (0, userView t s') := by
  obtain ⟨t, c, h, -⟩ := twoPageVm_space
  obtain ⟨s', hrun⟩ : ∃ s', (copyout 0x80100 4094 ([1, 2, 3, 4].getD · 0) 4).run twoPageVm
      = .ok (0, s') := ok_of_map_fst (by decide +kernel)
  have hview := copyout_view (E := fun _ => False) h.userTable 4094 [1, 2, 3, 4]
  exact ⟨t, s', hrun, (wp_iff.mp hview).1 0 s' hrun⟩

/-! ## The functions -/

/-- The process table, and the memory of the process that calls `wait`. -/
structure WaitSys where
  proc : Fin NPROC → Proc
  mem : UserMem

/-- What the other processes do when the caller waits for a lock or sleeps. `wait_lock` protects
`p->parent`. -/
structure Others where
  locked : WaitSys → WaitSys
  parent : ∀ s i, ((locked s).proc i).parent = (s.proc i).parent
  asleep : WaitSys → WaitSys

inductive WaitExit where
  -- It frees `np`, which was `child`.
  | reaped (np : Fin NPROC) (child : Proc)
  -- It cannot store what it knows of `np`, which is `child`.
  | copyFailed (np : Fin NPROC) (child : Proc)
  -- There are no children, or the caller has been killed.
  | none
  -- The schedule ends before the call does.
  | blocked
  deriving DecidableEq

structure WaitEnd where
  exit : WaitExit
  -- The value returned.
  ret : Int32
  sys : WaitSys

namespace WaitSys

/-- `addr != 0 && copyout(p->pagetable, addr, (char *)&x, sizeof(x)) < 0`, with an `int` for `x`. -/
def copyFails (s : WaitSys) (addr : Nat) (x : Int32) : Bool × WaitSys :=
  if addr ≠ 0 then
    let r := s.mem.copyout addr (intBytes x)
    (decide (r.1 < 0), { s with mem := r.2 })
  else
    (false, s)

def free (s : WaitSys) (np : Fin NPROC) : WaitSys :=
  { s with proc := update s.proc np (freeproc (s.proc np)) }

/-- `sleep(p, &wait_lock)`, as far as `sched`. -/
def sleep (s : WaitSys) (p : Fin NPROC) : WaitSys :=
  { s with proc := update s.proc p { s.proc p with chan := .proc p, state := .SLEEPING } }

def wake (s : WaitSys) (p : Fin NPROC) : WaitSys :=
  { s with proc := update s.proc p { s.proc p with chan := .null } }

end WaitSys

/-- The loop of `wait` over the table: it returns, or comes to the end with `havekids`. -/
def waitScan (p : Fin NPROC) (addr : Nat) :
    List (Fin NPROC) → Bool → List Others → WaitSys → Except WaitEnd (Bool × List Others × WaitSys)
  | [], havekids, sched, s => .ok (havekids, sched, s)
  | np :: rest, havekids, sched, s =>
    if (s.proc np).parent = some p then
      match sched with
      | [] => .error ⟨.blocked, 0, s⟩
      | o :: sched =>
        -- `acquire(&np->lock)`
        let s := o.locked s
        if (s.proc np).state = .ZOMBIE then
          let pid := (s.proc np).pid
          match s.copyFails addr (s.proc np).xstate with
          | (true, s) => .error ⟨.copyFailed np (s.proc np), -1, s⟩
          | (false, s) => .error ⟨.reaped np (s.proc np), pid, s.free np⟩
        else
          waitScan p addr rest true sched s
    else
      waitScan p addr rest havekids sched s

/-- The loop `for(;;)` of `wait`. Every round but the last sleeps once. -/
def waitLoop (p : Fin NPROC) (addr : Nat) : Nat → List Others → WaitSys → WaitEnd
  | 0, _, s => ⟨.blocked, 0, s⟩
  | fuel + 1, sched, s =>
    match waitScan p addr (List.finRange NPROC) false sched s with
    | .error e => e
    | .ok (havekids, sched, s) =>
      if havekids = false ∨ (s.proc p).killed = true then
        ⟨.none, -1, s⟩
      else
        match sched with
        | [] => ⟨.blocked, 0, s.sleep p⟩
        | o :: sched => waitLoop p addr fuel sched ((o.asleep (s.sleep p)).wake p)

/-- `wait(addr)`, called by `p`. It takes `wait_lock` first. -/
def wait (p : Fin NPROC) (addr : Nat) : List Others → WaitSys → WaitEnd
  | [], s => ⟨.blocked, 0, s⟩
  | o :: sched, s => waitLoop p addr (sched.length + 1) sched (o.asleep s)

def wait2Scan (p : Fin NPROC) (addr addr2 : Nat) :
    List (Fin NPROC) → Bool → List Others → WaitSys → Except WaitEnd (Bool × List Others × WaitSys)
  | [], havekids, sched, s => .ok (havekids, sched, s)
  | np :: rest, havekids, sched, s =>
    if (s.proc np).parent = some p then
      match sched with
      | [] => .error ⟨.blocked, 0, s⟩
      | o :: sched =>
        let s := o.locked s
        if (s.proc np).state = .ZOMBIE then
          let pid := (s.proc np).pid
          let cputime := (s.proc np).cputime
          match s.copyFails addr (s.proc np).xstate with
          | (true, s) => .error ⟨.copyFailed np (s.proc np), -1, s⟩
          | (false, s) =>
            match s.copyFails addr2 cputime with
            | (true, s) => .error ⟨.copyFailed np (s.proc np), -1, s⟩
            | (false, s) => .error ⟨.reaped np (s.proc np), pid, s.free np⟩
        else
          wait2Scan p addr addr2 rest true sched s
    else
      wait2Scan p addr addr2 rest havekids sched s

def wait2Loop (p : Fin NPROC) (addr addr2 : Nat) : Nat → List Others → WaitSys → WaitEnd
  | 0, _, s => ⟨.blocked, 0, s⟩
  | fuel + 1, sched, s =>
    match wait2Scan p addr addr2 (List.finRange NPROC) false sched s with
    | .error e => e
    | .ok (havekids, sched, s) =>
      if havekids = false ∨ (s.proc p).killed = true then
        ⟨.none, -1, s⟩
      else
        match sched with
        | [] => ⟨.blocked, 0, s.sleep p⟩
        | o :: sched => wait2Loop p addr addr2 fuel sched ((o.asleep (s.sleep p)).wake p)

def wait2 (p : Fin NPROC) (addr addr2 : Nat) : List Others → WaitSys → WaitEnd
  | [], s => ⟨.blocked, 0, s⟩
  | o :: sched, s => wait2Loop p addr addr2 (sched.length + 1) sched (o.asleep s)

/-! ## The comparison -/

/-- How `wait2` ends, compared with `wait`: `cputime` is stored besides; or that, or the status,
cannot be stored, and the child is left alone; or they end alike. -/
def WaitEnd.Extends (p : Fin NPROC) (addr2 : Nat) (e₂ e₁ : WaitEnd) : Prop :=
  match e₂.exit with
  | .reaped np child => child.state = .ZOMBIE ∧ child.parent = some p ∧
      e₁.exit = .reaped np child ∧ e₁.ret = child.pid ∧ e₂.ret = child.pid ∧
      e₂.sys.proc = e₁.sys.proc ∧
      e₁.sys.mem.copyout addr2 (intBytes child.cputime) = (0, e₂.sys.mem)
  | .copyFailed np child => child.state = .ZOMBIE ∧ child.parent = some p ∧ e₂.ret = -1 ∧
      e₂.sys.proc np = child ∧ (e₁.exit = .copyFailed np child ∨ e₁.exit = .reaped np child)
  | _ => e₂ = e₁

def ScanExtends (p : Fin NPROC) (addr2 : Nat) :
    Except WaitEnd (Bool × List Others × WaitSys) → Except WaitEnd (Bool × List Others × WaitSys) →
    Prop
  | .error e₂, .error e₁ => e₂.Extends p addr2 e₁
  | r₂, r₁ => r₂ = r₁

section Compare

variable {p : Fin NPROC} {addr addr2 : Nat}

theorem UserMem.copyout_cases (mem : UserMem) (va : Nat) (bs : List UInt8) :
    (mem.copyout va bs).1 = 0 ∨ (mem.copyout va bs).1 = -1 := by
  induction bs generalizing mem va with
  | nil => exact .inl rfl
  | cons b bs ih =>
    unfold UserMem.copyout
    split
    · exact .inr rfl
    · exact ih _ _

theorem proc_copyFails (s : WaitSys) (addr : Nat) (x : Int32) :
    (s.copyFails addr x).2.proc = s.proc := by
  unfold WaitSys.copyFails
  split
  · rfl
  · rfl

theorem copyFails_zero (s : WaitSys) (x : Int32) : s.copyFails 0 x = (false, s) := if_neg (by simp)

theorem copyout_of_copyFails {s s' : WaitSys} {x : Int32} (haddr : addr2 ≠ 0)
    (h : s.copyFails addr2 x = (false, s')) : s.mem.copyout addr2 (intBytes x) = (0, s'.mem) := by
  unfold WaitSys.copyFails at h
  rw [if_pos haddr] at h
  obtain ⟨hret, rfl⟩ := Prod.mk.inj h
  refine Prod.ext ?_ rfl
  rcases UserMem.copyout_cases s.mem addr2 (intBytes x) with hzero | hneg
  · exact hzero
  · rw [hneg] at hret
    exact absurd hret (by decide)

theorem wait2Scan_extends (haddr : addr2 ≠ 0) (nps : List (Fin NPROC)) (havekids : Bool)
    (sched : List Others) (s : WaitSys) :
    ScanExtends p addr2 (wait2Scan p addr addr2 nps havekids sched s)
      (waitScan p addr nps havekids sched s) := by
  induction nps generalizing havekids sched s with
  | nil => rfl
  | cons np rest ih =>
    unfold wait2Scan waitScan
    by_cases hparent : (s.proc np).parent = some p
    swap
    · rw [if_neg hparent, if_neg hparent]
      exact ih ..
    rw [if_pos hparent, if_pos hparent]
    cases sched with
    | nil => rfl
    | cons o sched =>
      dsimp only
      have hkept : ((o.locked s).proc np).parent = some p := by rw [o.parent, hparent]
      generalize o.locked s = s at hkept
      by_cases hzombie : (s.proc np).state = .ZOMBIE
      swap
      · rw [if_neg hzombie, if_neg hzombie]
        exact ih ..
      rw [if_pos hzombie, if_pos hzombie]
      have hproc := proc_copyFails s addr (s.proc np).xstate
      rcases hfirst : s.copyFails addr (s.proc np).xstate with ⟨failed, s1⟩
      rw [hfirst] at hproc
      have hchild : s1.proc np = s.proc np := congrFun hproc np
      -- the first `copyout` is the same in both functions; only `wait2` makes the second
      cases failed with
      | true =>
        refine ⟨?_, ?_, rfl, rfl, .inl rfl⟩
        · rw [hchild, hzombie]
        · rw [hchild, hkept]
      | false =>
        dsimp only
        have hproc2 := proc_copyFails s1 addr2 (s.proc np).cputime
        rcases hsecond : s1.copyFails addr2 (s.proc np).cputime with ⟨failed, s2⟩
        rw [hsecond] at hproc2
        have hchild2 : s2.proc np = s1.proc np := congrFun hproc2 np
        cases failed with
        | true =>
          refine ⟨?_, ?_, rfl, rfl, .inr ?_⟩
          · rw [hchild2, hchild, hzombie]
          · rw [hchild2, hchild, hkept]
          · rw [hchild2]
        | false =>
          refine ⟨?_, ?_, ?_, ?_, ?_, ?_, ?_⟩
          · rw [hchild2, hchild, hzombie]
          · rw [hchild2, hchild, hkept]
          · rw [hchild2]
          · rw [hchild2, hchild]
          · rw [hchild2, hchild]
          · show update s2.proc np _ = update s1.proc np _
            rw [hproc2]
          · have hstored := copyout_of_copyFails haddr hsecond
            rw [← hchild, ← hchild2] at hstored
            exact hstored

theorem wait2Loop_extends (haddr : addr2 ≠ 0) (fuel : Nat) (sched : List Others) (s : WaitSys) :
    (wait2Loop p addr addr2 fuel sched s).Extends p addr2 (waitLoop p addr fuel sched s) := by
  induction fuel generalizing sched s with
  | zero => rfl
  | succ fuel ih =>
    unfold wait2Loop waitLoop
    have hscan : ScanExtends p addr2 (wait2Scan p addr addr2 (List.finRange NPROC) false sched s)
        (waitScan p addr (List.finRange NPROC) false sched s) :=
      wait2Scan_extends haddr (List.finRange NPROC) false sched s
    -- the scans end alike: both stop, or both go on in the same state
    generalize wait2Scan p addr addr2 (List.finRange NPROC) false sched s = r2 at hscan
    generalize waitScan p addr (List.finRange NPROC) false sched s = r1 at hscan
    cases r2 with
    | error e2 =>
      cases r1 with
      | error e1 => exact hscan
      | ok r1 => cases hscan
    | ok r2 =>
      cases hscan
      obtain ⟨havekids, sched, s⟩ := r2
      dsimp only
      split
      · rfl
      · cases sched with
        | nil => rfl
        | cons o sched => exact ih ..

theorem wait2Scan_zero (nps : List (Fin NPROC)) (havekids : Bool) (sched : List Others)
    (s : WaitSys) :
    wait2Scan p addr 0 nps havekids sched s = waitScan p addr nps havekids sched s := by
  induction nps generalizing havekids sched s with
  | nil => rfl
  | cons np rest ih =>
    unfold wait2Scan waitScan
    simp only [ih, copyFails_zero]

theorem wait2Loop_zero (fuel : Nat) (sched : List Others) (s : WaitSys) :
    wait2Loop p addr 0 fuel sched s = waitLoop p addr fuel sched s := by
  induction fuel generalizing sched s with
  | zero => rfl
  | succ fuel ih =>
    unfold wait2Loop waitLoop
    simp only [ih, wait2Scan_zero]

end Compare

/-- **`wait2` extends `wait`.** Without a second address it is the same function; with one it does the
same under every schedule, and stores the `cputime` of the child it reaps, or leaves the child as it
is. -/
theorem wait2_extends_wait (p : Fin NPROC) (addr : Nat) (sched : List Others) (s : WaitSys) :
    wait2 p addr 0 sched s = wait p addr sched s ∧
      ∀ addr2, addr2 ≠ 0 → (wait2 p addr addr2 sched s).Extends p addr2 (wait p addr sched s) := by
  cases sched with
  | nil => exact ⟨rfl, fun _ _ => rfl⟩
  | cons o sched => exact ⟨wait2Loop_zero .., fun _ haddr => wait2Loop_extends haddr ..⟩

/-- The first process with a dead child, and memory of 32 bytes. -/
def deadChild : WaitSys where
  proc i :=
    { state := if i = 1 then .ZOMBIE else .RUNNING
      chan := .null, killed := false, xstate := 7, pid := 2, cputime := 300, priority := 0
      readytime := 0, parent := if i = 1 then some 0 else none }
  mem a := if a < 32 then some 0 else none

def idle : Others := ⟨id, fun _ _ => rfl, id⟩

/-- The child is reaped, and 300 is stored at 16. -/
theorem wait2_extends_wait_child :
    (wait2 0 8 16 [idle, idle] deadChild).exit = .reaped 1 (deadChild.proc 1) ∧
      (wait 0 8 [idle, idle] deadChild).exit = .reaped 1 (deadChild.proc 1) ∧
      (wait 0 8 [idle, idle] deadChild).sys.mem.copyout 16 [44, 1, 0, 0]
        = (0, (wait2 0 8 16 [idle, idle] deadChild).sys.mem) := by
  have hexit : (wait2 0 8 16 [idle, idle] deadChild).exit = .reaped 1 (deadChild.proc 1) := by
    decide +kernel
  have hext := (wait2_extends_wait 0 8 [idle, idle] deadChild).2 16 (by decide)
  unfold WaitEnd.Extends at hext
  rw [hexit] at hext
  obtain ⟨-, -, hexit1, -, -, -, hmem⟩ := hext
  exact ⟨hexit, hexit1, hmem⟩

end Xv6
