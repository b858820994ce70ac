import Xv6.Pipe.Fifo

/-!
# What `piperead` consumes

`piperead` as one process runs it while it holds `pi->lock`: a sequence of stores to user memory, and
the pipe it leaves. The counter `nread` is advanced before the byte is copied, so
`piperead_consumes_iff` says when it has been advanced by what is returned.
-/

namespace Xv6

open Machines

abbrev Store : Type := UInt64 × UInt8

/-! ## The code -/

/-- The second loop of `piperead`, with `fuel` rounds to go. `mapped` tells which addresses of the
user `copyout` can store to. -/
def pipereadLoop (mapped : UInt64 → Bool) (addr : UInt64) :
    Nat → Nat → Pipe → Nat × Pipe × List Store
  | 0, i, pi => (i, pi, [])
  | fuel + 1, i, pi =>
    if pi.nread = pi.nwrite then
      (i, pi, [])
    else
      let ch := pi.next
      let pi := pi.take
      if mapped (addr + UInt64.ofNat i) then
        let (r, pi, stores) := pipereadLoop mapped addr fuel (i + 1) pi
        (r, pi, (addr + UInt64.ofNat i, ch) :: stores)
      else
        (i, pi, [])

/-- `piperead` with `pi->lock` held: what it returns, the pipe, and what it has stored. It is `none`
when it has to sleep. -/
def piperead (mapped : UInt64 → Bool) (killed : Bool) (pi : Pipe) (addr : UInt64) (n : Int) :
    Option (Int × Pipe × List Store) :=
  if pi.nread = pi.nwrite ∧ pi.writeopen = true then
    if killed then some (-1, pi, []) else none
  else
    let (i, pi, stores) := pipereadLoop mapped addr n.toNat 0 pi
    some (i, pi, stores)

def Pipe.skip (pi : Pipe) (i : Nat) : Pipe := { pi with nread := pi.nread + UInt32.ofNat i }

/-- `bytes` stored one after another, from `addr + i` on. -/
def storesAt (addr : UInt64) : Nat → List UInt8 → List Store
  | _, [] => []
  | i, ch :: rest => (addr + UInt64.ofNat i, ch) :: storesAt addr (i + 1) rest

/-- A call that returned `i` has stored the next `i` bytes of the pipe at `addr`, and these are gone
from the pipe; the others are still in it. -/
structure Consumed (pi : Pipe) (addr : UInt64) (i : Nat) (pi' : Pipe) (stores : List Store) :
    Prop where
  nread : pi' = pi.skip i
  stores : stores = storesAt addr 0 (pi.bytes.take i)
  bytes : pi'.bytes = pi.bytes.drop i

/-! ## The loop -/

section Loop

variable (mapped : UInt64 → Bool) (addr : UInt64)

theorem Pipe.skip_zero (pi : Pipe) : pi.skip 0 = pi := by
  unfold skip
  rw [show UInt32.ofNat 0 = 0 from rfl, UInt32.add_zero]

theorem Pipe.take_skip (pi : Pipe) (i : Nat) : pi.take.skip i = pi.skip (i + 1) := by
  have hsum : pi.nread + 1 + UInt32.ofNat i = pi.nread + UInt32.ofNat (i + 1) := by
    rw [UInt32.ofNat_add, UInt32.add_assoc, UInt32.add_comm (UInt32.ofNat i)]
    rfl
  unfold skip take
  dsimp only
  rw [hsum]

theorem Pipe.bytes_skip {pi : Pipe} {i : Nat} (hi : i ≤ pi.len) :
    (pi.skip i).bytes = pi.bytes.drop i := by
  induction i generalizing pi with
  | zero => rw [skip_zero, List.drop_zero]
  | succ i ih =>
    have hlen : pi.take.len + 1 = pi.len := len_take (by omega)
    have hbytes : pi.bytes = pi.next :: pi.take.bytes := bytes_take (by omega)
    rw [← take_skip, ih (by omega), hbytes, List.drop_succ_cons]

theorem piperead_ok {mapped : UInt64 → Bool} {killed : Bool} {pi pi' : Pipe} {addr : UInt64}
    {n : Int} {i : Nat} {stores : List Store}
    (hrun : piperead mapped killed pi addr n = some ((i : Int), pi', stores)) :
    (pi.nread ≠ pi.nwrite ∨ pi.writeopen = false) ∧
      pipereadLoop mapped addr n.toNat 0 pi = (i, pi', stores) := by
  unfold piperead at hrun
  by_cases hwait : pi.nread = pi.nwrite ∧ pi.writeopen = true
  · -- a killed process returns −1
    rw [if_pos hwait] at hrun
    split at hrun
    · have := (Prod.mk.inj (Option.some.inj hrun)).1
      omega
    · cases hrun
  rw [if_neg hwait] at hrun
  obtain ⟨hi, hrest⟩ := Prod.mk.inj (Option.some.inj hrun)
  refine ⟨?_, Prod.ext (by exact_mod_cast hi) hrest⟩
  rw [not_and_or] at hwait
  exact hwait.imp id (by simp)

/-- How the loop ends: `g` bytes are stored, and either there are no more of them or the next cannot
be stored; in that case it is gone from the pipe as well. -/
structure LoopEnd (mapped : UInt64 → Bool) (addr : UInt64) (fuel i : Nat) (pi : Pipe) (g : Nat)
    (res : Nat × Pipe × List Store) : Prop where
  le : g ≤ min fuel pi.len
  ok : ∀ j, j < g → mapped (addr + UInt64.ofNat (i + j)) = true
  ret : res.1 = i + g
  stores : res.2.2 = storesAt addr i (pi.bytes.take g)
  pipe : g = min fuel pi.len ∧ res.2.1 = pi.skip g ∨
    g < min fuel pi.len ∧ mapped (addr + UInt64.ofNat (i + g)) = false ∧ res.2.1 = pi.skip (g + 1)

theorem pipereadLoop_end (fuel i : Nat) (pi : Pipe) :
    ∃ g, LoopEnd mapped addr fuel i pi g (pipereadLoop mapped addr fuel i pi) := by
  induction fuel generalizing i pi with
  | zero =>
    exact ⟨0, by omega, by omega, rfl, rfl, .inl ⟨by omega, pi.skip_zero.symm⟩⟩
  | succ fuel ih =>
    unfold pipereadLoop
    by_cases hempty : pi.nread = pi.nwrite
    · rw [if_pos hempty]
      have hlen := Pipe.empty_iff.mp hempty
      exact ⟨0, by omega, by omega, rfl, rfl, .inl ⟨by omega, pi.skip_zero.symm⟩⟩
    rw [if_neg hempty]
    have hne : pi.len ≠ 0 := fun hlen => hempty (Pipe.empty_iff.mpr hlen)
    have hlen := Pipe.len_take hne
    dsimp only
    by_cases hmapped : mapped (addr + UInt64.ofNat i) = true
    · rw [if_pos hmapped]
      obtain ⟨g, hle, hok, hret, hstores, hpipe⟩ := ih (i + 1) pi.take
      have hidx : ∀ j, i + 1 + j = i + (j + 1) := fun j => by omega
      refine ⟨g + 1, by omega, fun j hj => ?_, by rw [hret]; omega, ?_, ?_⟩
      · cases j with
        | zero => exact hmapped
        | succ j =>
          rw [← hidx]
          exact hok j (by omega)
      · rw [hstores, Pipe.bytes_take hne]
        rfl
      · rw [Pipe.take_skip, Pipe.take_skip, hidx] at hpipe
        exact hpipe.imp (fun h => ⟨by omega, h.2⟩) fun h => ⟨by omega, h.2⟩
    · rw [if_neg hmapped]
      refine ⟨0, by omega, by omega, rfl, rfl, .inr ⟨by omega, by simpa using hmapped, ?_⟩⟩
      rw [← Pipe.take_skip, Pipe.skip_zero]

theorem PipeSys.At.setPc {s t : PipeSys} {p : Fin NPROC} {pc pc' : PipePc} (hp : s.At p pc)
    (ht : t.proc = s.proc) : (t.setPc p pc').At p pc' := by
  refine ⟨by rw [PipeSys.setPc_self], ?_⟩
  rw [PipeSys.setPc_self, ht]
  exact hp.awake

/-- The loop as the steps of one process. Induction on the rounds to go; the state is the one before
but for the pipe and for where the process is. -/
theorem pipereadLoop_steps {s : PipeSys} {p : Fin NPROC} {n : Int} {i : Nat} {g : List UInt8}
    (fuel : Nat) (hp : s.At p (.reading (fun j => mapped (addr + UInt64.ofNat j)) n i g))
    (hfuel : n ≤ i + fuel) (hless : fuel = 0 ∨ (i + fuel : Int) = n) :
    Relation.ReflTransGen (fun a b => PipeStep a (.go p) b) s
      ({ s with pi := (pipereadLoop mapped addr fuel i s.pi).2.1 }.setPc p
        (.waking .nwrite 0 (.read n (pipereadLoop mapped addr fuel i s.pi).1
          (g ++ (pipereadLoop mapped addr fuel i s.pi).2.2.map Prod.snd)))) := by
  induction fuel generalizing i s g with
  | zero =>
    rw [pipereadLoop, List.map_nil, List.append_nil]
    exact .single (.readEnd hp (.inl (by omega)))
  | succ fuel ih =>
    unfold pipereadLoop
    by_cases hempty : s.pi.nread = s.pi.nwrite
    · rw [if_pos hempty, List.map_nil, List.append_nil]
      exact .single (.readEnd hp (.inr hempty))
    rw [if_neg hempty]
    dsimp only
    by_cases hmapped : mapped (addr + UInt64.ofNat i) = true
    · rw [if_pos hmapped]
      have hrest := ih (i := i + 1) (g := g ++ [s.pi.next])
        (hp.setPc (t := { s with pi := s.pi.take }) rfl) (by omega) (by omega)
      rw [PipeSys.setPc_setPc, List.append_assoc] at hrest
      exact .head (.readByte hp (by omega) hempty hmapped) hrest
    · rw [if_neg hmapped, List.map_nil, List.append_nil]
      exact .single (.readFault hp (by omega) hempty (by simpa using hmapped))

/-- **The call is what the steps do.** A process that has taken `pi->lock` in `piperead` and need not
wait goes, by steps of its own, to where it has in hand the bytes that the call stores, with the pipe
that the call leaves; nothing else has changed. -/
theorem piperead_steps {s : PipeSys} {p : Fin NPROC} {n : Int} {i : Nat} {pi' : Pipe}
    {stores : List Store}
    (hp : s.At p (.waiting (fun j => mapped (addr + UInt64.ofNat j)) n))
    (hrun : piperead mapped (s.proc p).killed s.pi addr n = some ((i : Int), pi', stores)) :
    Relation.ReflTransGen (fun a b => PipeStep a (.go p) b) s
      ({ s with pi := pi' }.setPc p (.waking .nwrite 0 (.read n i (stores.map Prod.snd)))) := by
  obtain ⟨hready, hloop⟩ := piperead_ok hrun
  have hsteps := pipereadLoop_steps mapped addr (n := n) (i := 0) (g := []) n.toNat
    (hp.setPc (t := s) rfl) (by omega) (by omega)
  rw [show (s.setPc p _).pi = s.pi from rfl, hloop, PipeSys.setPc_setPc] at hsteps
  exact .head (.readStart hp hready) hsteps

def twoBytes : Pipe := ((⟨fun _ => 0, 0, 0, true, true⟩ : Pipe).put 5).put 6

/-- Process 0 has asked for three bytes, and has the lock of that pipe. -/
def twoBytesSys : PipeSys :=
  { pipe0 with pi := twoBytes, lock := some 0 }.setPc 0 (.waiting (fun _ => true) 3)

theorem piperead_steps_two : Relation.ReflTransGen (fun a b => PipeStep a (.go 0) b) twoBytesSys
    ({ twoBytesSys with pi := twoBytes.skip 2 }.setPc 0 (.waking .nwrite 0 (.read 3 2 [5, 6]))) := by
  have hrun : piperead (fun _ => true) false twoBytes 0 3
      = some (((2 : Nat) : Int), twoBytes.skip 2, [(0, 5), (1, 6)]) := rfl
  exact piperead_steps (fun _ => true) 0 (s := twoBytesSys) (p := 0) ⟨rfl, rfl⟩ hrun

end Loop

/-! ## The call -/

theorem Pipe.skip_ne_skip_succ (pi : Pipe) (i : Nat) : pi.skip (i + 1) ≠ pi.skip i := by
  intro heq
  have hnread : pi.nread + UInt32.ofNat (i + 1) = pi.nread + UInt32.ofNat i :=
    congrArg Pipe.nread heq
  have hval := congrArg UInt32.toNat hnread
  simp only [UInt32.toNat_add, UInt32.toNat_ofNat'] at hval
  omega

/-- A `piperead` that does not sleep has consumed what it returns exactly when it can store all the
bytes that it finds and was asked for. -/
theorem piperead_consumes_iff {mapped : UInt64 → Bool} {killed : Bool} {pi pi' : Pipe}
    {addr : UInt64} {n : Int} {i : Nat} {stores : List Store}
    (hrun : piperead mapped killed pi addr n = some ((i : Int), pi', stores)) :
    Consumed pi addr i pi' stores ↔
      ∀ j, j < min n.toNat (pi.nwrite - pi.nread).toNat → mapped (addr + UInt64.ofNat j) = true := by
  obtain ⟨-, hloop⟩ := piperead_ok hrun
  obtain ⟨g, hle, hok, hret, hstores, hpipe⟩ := pipereadLoop_end mapped addr n.toNat 0 pi
  rw [hloop] at hret hstores hpipe
  simp only [Nat.zero_add] at hok hret hpipe
  subst hret
  change _ ↔ ∀ j, j < min n.toNat pi.len → _
  rcases hpipe with ⟨hall, hskip⟩ | ⟨hlt, hstop, hskip⟩
  · refine iff_of_true ⟨hskip, hstores, ?_⟩ fun j hj => hok j (by omega)
    rw [hskip, Pipe.bytes_skip (by omega)]
  · refine iff_of_false (fun hcons => ?_) fun hall => ?_
    · exact pi.skip_ne_skip_succ i (hskip.symm.trans hcons.nread)
    · rw [hall i hlt] at hstop
      cases hstop

theorem piperead_consumes_iff_two :
    Consumed twoBytes 4096 2 (twoBytes.skip 2) [(4096, 5), (4097, 6)] ↔
      ∀ j, j < min (Int.toNat 9) (twoBytes.nwrite - twoBytes.nread).toNat →
        (fun _ => true) (4096 + UInt64.ofNat j) = true :=
  piperead_consumes_iff (show piperead (fun _ => true) false twoBytes 4096 9 = _ from rfl)

/-- The page at 4096 is not mapped: nothing is returned, and the byte 5 is gone. -/
theorem piperead_loses_byte : ∃ pi', piperead (fun _ => false) false twoBytes 4096 9
      = some (0, pi', []) ∧
    twoBytes.bytes = [5, 6] ∧ pi'.bytes = [6] ∧ ¬ Consumed twoBytes 4096 0 pi' [] := by
  refine ⟨twoBytes.skip 1, rfl, by decide, by decide, fun hcons => ?_⟩
  exact twoBytes.skip_ne_skip_succ 0 hcons.nread

end Xv6
