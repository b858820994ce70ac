import Xv6.Pipe.Pipe

/-!
# A pipe is a queue

What the calls of `piperead` have stored for their callers, followed by the bytes in the ring, is what
was written.
-/

namespace Xv6

open Machines

namespace Pipe

def len (pi : Pipe) : Nat := (pi.nwrite - pi.nread).toNat

/-- The bytes in the pipe, the next one to be read first. -/
def bytes (pi : Pipe) : List UInt8 := Ring.contents pi.data PIPESIZE pi.nread.toNat pi.len

variable {pi : Pipe}

theorem full_iff : pi.Full ↔ pi.len = PIPESIZE := by
  unfold Full len
  rw [← UInt32.toNat_inj, UInt32.toNat_add, UInt32.toNat_sub]
  have hr := pi.nread.toNat_lt
  have hw := pi.nwrite.toNat_lt
  show _ = (_ + 512) % _ ↔ _ = 512
  omega

theorem empty_iff : pi.nread = pi.nwrite ↔ pi.len = 0 := by
  unfold len
  rw [← UInt32.toNat_inj, UInt32.toNat_sub]
  have hr := pi.nread.toNat_lt
  have hw := pi.nwrite.toNat_lt
  omega

theorem pipesize_dvd : PIPESIZE ∣ 2 ^ 32 := by decide

theorem len_put (hroom : pi.len < PIPESIZE) (ch : UInt8) : (pi.put ch).len = pi.len + 1 := by
  have hr := pi.nread.toNat_lt
  have hw := pi.nwrite.toNat_lt
  unfold len put at *
  simp only [PIPESIZE, UInt32.toNat_sub, UInt32.toNat_add, UInt32.reduceToNat] at *
  omega

theorem len_take (hsome : pi.len ≠ 0) : pi.take.len + 1 = pi.len := by
  have hr := pi.nread.toNat_lt
  have hw := pi.nwrite.toNat_lt
  unfold len take at *
  simp only [UInt32.toNat_sub, UInt32.toNat_add, UInt32.reduceToNat] at *
  omega

theorem bytes_put (hroom : pi.len < PIPESIZE) (ch : UInt8) : (pi.put ch).bytes = pi.bytes ++ [ch] := by
  unfold bytes
  rw [len_put hroom]
  show Ring.contents (Function.update pi.data (pi.nwrite.toNat % PIPESIZE) ch) _ _ _ = _
  rw [← Ring.mod_add_sub pipesize_dvd pi.nread pi.nwrite]
  exact Ring.contents_push _ _ hroom ch

theorem bytes_take (hsome : pi.len ≠ 0) : pi.bytes = pi.next :: pi.take.bytes := by
  unfold bytes
  rw [← len_take hsome, Ring.contents_pop]
  refine congrArg (pi.next :: ·) (Ring.contents_congr ?_)
  exact (Ring.toNat_add_mod pipesize_dvd pi.nread 1).symm

theorem bytes_close (w : Bool) : (pi.close w).bytes = pi.bytes := by
  cases w <;> rfl

theorem len_close (w : Bool) : (pi.close w).len = pi.len := by
  cases w <;> rfl

theorem nread_close (w : Bool) : (pi.close w).nread = pi.nread := by
  cases w <;> rfl

end Pipe

def PipePc.got : PipePc → List UInt8
  | .reading _ _ _ got => got
  | .waking _ _ (.read _ _ got) => got
  | _ => []

def PipeSys.inHand (s : PipeSys) : List UInt8 :=
  match s.lock with
  | some p => (s.proc p).pc.got
  | none => []

/-- The bytes that the calls of `piperead` have stored for their callers: those that have returned,
in the order in which they did, and then the one under way. -/
def PipeSys.read (s : PipeSys) : List UInt8 := s.returned.flatMap Prod.snd ++ s.inHand

/-- The bytes read, followed by those in the ring, are the bytes written; each call returns the
number of bytes it has stored; and the counters are at most `PIPESIZE` apart. -/
structure Fifo (s : PipeSys) : Prop where
  size : s.pi.len ≤ PIPESIZE
  order : s.read ++ s.pi.bytes = s.written
  count : ∀ x ∈ s.returned, x.1 = x.2.length

def PipeCall.Mapped : PipeCall → Prop
  | .pipewrite src n _ => ∀ j : Nat, (j : Int) < n → src j ≠ none
  | .piperead dst n => ∀ j : Nat, (j : Int) < n → dst j = true
  | .pipeclose _ => True

/-- What a process that is reading knows: there was something to read when it started, or no writer,
so it returns nothing only at the end of the stream. -/
def PipePc.Reads (pi : Pipe) : PipePc → Prop
  | .want c => c.Mapped
  | .writing src n _ i => (PipeCall.pipewrite src n i).Mapped
  | .waiting dst n => (PipeCall.piperead dst n).Mapped
  | .reading dst n i got => (PipeCall.piperead dst n).Mapped ∧ i = got.length ∧
      (i = 0 → pi.nread ≠ pi.nwrite ∨ pi.writeopen = false)
  | .waking _ _ (.read n i got) => i = got.length ∧
      (0 < n → i = 0 → pi.nread = pi.nwrite ∧ pi.writeopen = false)
  | .waking _ _ (.sleep _ c) => c.Mapped
  | _ => True

variable {s s' : PipeSys} {l : PipeLabel}

theorem PipeSys.Locked.read_append {p : Fin NPROC} {pc : PipePc} {x : List UInt8} (h : s.Locked)
    (hp : s.At p pc) (hin : pc.Inside) (hlock : s'.lock = s.lock) (hret : s'.returned = s.returned)
    (hgot : (s'.proc p).pc.got = pc.got ++ x) : s'.read = s.read ++ x := by
  have hheld : s.lock = some p := (h p).mp (hp.pc ▸ hin)
  simp [read, inHand, hlock, hret, hheld, hgot, hp.pc]

theorem PipeSys.Locked.read_leave {p : Fin NPROC} {pc : PipePc} {x : List (Nat × List UInt8)}
    (h : s.Locked) (hp : s.At p pc) (hin : pc.Inside) (hlock : s'.lock = none)
    (hret : s'.returned = s.returned ++ x) (hx : x.flatMap Prod.snd = pc.got) : s'.read = s.read := by
  have hheld : s.lock = some p := (h p).mp (hp.pc ▸ hin)
  simp [read, inHand, hlock, hret, hheld, hx, hp.pc]

/-- Only the step that counts `nread` up adds to what has been read. -/
theorem PipeStep.read_eq (hlocked : s.Locked) (hstep : PipeStep s l s')
    (hsame : s'.pi.nread = s.pi.nread) : s'.read = s.read := by
  have hstay : ∀ {p pc}, s.At p pc → pc.Inside → s'.lock = s.lock → s'.returned = s.returned →
      (s'.proc p).pc.got = pc.got → s'.read = s.read := fun hp hin hlock hret hgot => by
    simpa using hlocked.read_append (x := []) hp hin hlock hret (by simpa using hgot)
  have henter : ∀ {p}, s.lock = none → s'.lock = some p → s'.returned = s.returned →
      (s'.proc p).pc.got = [] → s'.read = s.read := fun hfree hlock hret hgot => by
    simp [PipeSys.read, PipeSys.inHand, hfree, hlock, hret, hgot]
  -- who is not the holder of the lock does not move it
  have hother : s'.lock = s.lock → s'.returned = s.returned →
      (∀ p, s.lock = some p → (s'.proc p).pc = (s.proc p).pc) → s'.read = s.read := by
    intro hlock hret hpc
    simp only [PipeSys.read, PipeSys.inHand, hlock, hret]
    cases hheld : s.lock with
    | none => rfl
    | some p =>
      dsimp only
      rw [hpc p hheld]
  have hstep' := hstep
  cases hstep with
  | @call p c hp hc =>
    refine hother rfl rfl fun q hq => hstep'.pc_other ?_
    rintro ⟨⟩
    have hin := (hlocked p).mpr hq
    rw [hp.pc] at hin
    exact hin
  | kill | fallAsleep => exact hother rfl rfl fun q _ => PipeSys.setProc_pc s (by rfl) q
  | acquireWrite _ hfree | acquireRead _ hfree | acquireClose _ hfree =>
    exact henter hfree rfl rfl (by rw [PipeSys.setPc_self]; rfl)
  | readByte | readFault =>
    have hone : s.pi.nread + 1 = s.pi.nread := hsame
    simp at hone
  | readSleep hp => exact hlocked.read_leave (x := []) hp trivial rfl (List.append_nil _).symm rfl
  | @wakeSleep p chan on c hp =>
    exact hlocked.read_leave (x := []) hp trivial rfl (List.append_nil _).symm rfl
  | failReturn hp => exact hlocked.read_leave hp trivial rfl rfl rfl
  | @wakeReturn p chan k hp hk =>
    refine hlocked.read_leave hp trivial rfl rfl ?_
    cases k <;> simp [AfterWakeup.result, PipePc.got]
  | @wake p chan k q hp _ =>
    refine hstay hp trivial rfl rfl ?_
    rw [PipeSys.setPc_self]
    cases k <;> rfl
  | _ hp => exact hstay hp trivial rfl rfl (by rw [PipeSys.setPc_self]; rfl)

/-- A byte is put in only if there is room, and taken out only if there is one. A copy that fails
loses a byte, so the destination has to be usable. -/
theorem Fifo.step (h : Fifo s) (hlocked : s.Locked) (hstep : PipeStep s l s')
    (hmapped : ∀ p, (s.proc p).pc.Reads s.pi) : Fifo s' := by
  have hread := hstep.read_eq hlocked
  cases hstep with
  | writeByte hp hi hopen hkilled hroom hsrc =>
    rw [Pipe.full_iff] at hroom
    have hlt : s.pi.len < PIPESIZE := lt_of_le_of_ne h.size hroom
    refine ⟨?_, ?_, h.count⟩
    · show (s.pi.put _).len ≤ PIPESIZE
      rw [Pipe.len_put hlt]
      exact hlt
    · rw [hread rfl]
      show s.read ++ (s.pi.put _).bytes = s.written ++ [_]
      rw [Pipe.bytes_put hlt, ← List.append_assoc, h.order]
  | @readByte p dst n i got hp hi hsome hdst =>
    rw [ne_eq, Pipe.empty_iff] at hsome
    have hlen := Pipe.len_take hsome
    have hsize := h.size
    refine ⟨show s.pi.take.len ≤ PIPESIZE by omega, ?_, h.count⟩
    have hmore : ({ s with pi := s.pi.take }.setPc p (.reading dst n (i + 1) (got ++ [s.pi.next]))).read
        = s.read ++ [s.pi.next] :=
      hlocked.read_append hp trivial rfl rfl (by rw [PipeSys.setPc_self]; rfl)
    rw [hmore]
    show s.read ++ [s.pi.next] ++ s.pi.take.bytes = s.written
    rw [List.append_assoc, List.singleton_append, ← Pipe.bytes_take hsome, h.order]
  | @readFault p dst n i got hp hi hsome hdst =>
    have hp' := hmapped p
    rw [hp.pc] at hp'
    rw [hp'.1 i hi] at hdst
    cases hdst
  | acquireClose hp hfree =>
    refine ⟨?_, ?_, h.count⟩
    · show (s.pi.close _).len ≤ PIPESIZE
      rw [Pipe.len_close]
      exact h.size
    · rw [hread (Pipe.nread_close _)]
      show s.read ++ (s.pi.close _).bytes = s.written
      rw [Pipe.bytes_close]
      exact h.order
  | @wakeReturn p chan k hp hk =>
    refine ⟨h.size, by rw [hread rfl]; exact h.order, fun x hx => ?_⟩
    rcases List.mem_append.mp hx with hx | hx
    · exact h.count x hx
    · have hp' := hmapped p
      rw [hp.pc] at hp'
      cases k with
      | read n i got =>
        rw [List.mem_singleton.mp hx]
        exact hp'.1
      | _ => cases hx
  | failReturn => exact ⟨h.size, by rw [hread rfl]; exact h.order, fun x hx =>
      h.count x ((List.append_nil s.returned) ▸ hx)⟩
  | _ => exact ⟨h.size, by rw [hread rfl]; exact h.order, h.count⟩

end Xv6
