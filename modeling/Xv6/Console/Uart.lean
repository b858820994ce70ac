import Xv6.Lib.Machine
import Xv6.Lib.Ring
import Xv6.Proc.Table

/-!
# The transmit queue of the UART

`uartputc`, `uartstart` and the second half of `uartintr` (`kernel/uart.c`), run by any number of
processes and interrupts.
-/

namespace Xv6

open Machines Function

def UART_TX_BUF_SIZE : Nat := 32

inductive UartPc where
  -- `uartputc(c)`, at `if(panicked)`.
  | entry (c : UInt8)
  -- `uartputc(c)`, at the head of its loop.
  | loop (c : UInt8)
  -- `uartstart`, at the head of its loop.
  | start
  -- In `wakeup(&uart_tx_r)`, at entry `j`, with `c` still to be written to THR.
  | wake (c : UInt8) (j : Nat)

structure UartHolder where
  -- `myproc()`: the process that called `uartputc`, or that the interrupt came upon.
  self : Option (Fin NPROC)
  pc : UartPc

/-- A process, as far as `sleep(&uart_tx_r, &uart_tx_lock)` goes. -/
inductive UartRest where
  | out
  -- In `sleep`, not yet SLEEPING.
  | dozing (c : UInt8)
  | sleeping (c : UInt8)
  -- Made RUNNABLE, and not yet back from `sleep`.
  | awake (c : UInt8)

def UartRest.Down : UartRest → Prop
  | dozing _ | sleeping _ => True
  | _ => False

structure UartSys where
  buf : Nat → UInt8
  w : UInt64
  r : UInt64
  lock : Option UartHolder
  rest : Fin NPROC → UartRest
  panicked : Bool
  -- `LSR_TX_IDLE`.
  idle : Bool
  -- The transmitter has become idle, and `uartintr` has not run since.
  intr : Bool
  -- What has been passed to `uartputc` and stored.
  stored : List UInt8
  -- What `uartstart` has written to THR.
  sent : List UInt8

namespace UartSys

def goto (s : UartSys) (self : Option (Fin NPROC)) (pc : UartPc) : UartSys :=
  { s with lock := some { self, pc } }

def setRest (s : UartSys) (p : Fin NPROC) (x : UartRest) : UartSys :=
  { s with rest := update s.rest p x }

end UartSys

/-- One step of whoever holds `uart_tx_lock`, or of a process on its way through `sleep`. A process
holds its own lock from before it releases `uart_tx_lock` until it is asleep, so that `wakeup` waits
for it. The transmitter becomes idle, with an interrupt, or busy at any time. -/
inductive UartStep (s : UartSys) : UartSys → Prop where
  | uartputc (p : Fin NPROC) (c : UInt8) (hlock : s.lock = none) (hp : s.rest p = .out) :
      UartStep s (s.goto (some p) (.entry c))
  -- A panic leaves the caller spinning.
  | entry (p : Option (Fin NPROC)) (c : UInt8) (h : s.lock = some ⟨p, .entry c⟩)
      (hpanic : s.panicked = false) : UartStep s (s.goto p (.loop c))
  | full (p : Fin NPROC) (c : UInt8) (h : s.lock = some ⟨some p, .loop c⟩)
      (hfull : s.w = s.r + UART_TX_BUF_SIZE.toUInt64) :
      UartStep s { s.setRest p (.dozing c) with lock := none }
  | store (p : Option (Fin NPROC)) (c : UInt8) (h : s.lock = some ⟨p, .loop c⟩)
      (hroom : s.w ≠ s.r + UART_TX_BUF_SIZE.toUInt64) :
      UartStep s { s.goto p .start with
        buf := update s.buf (s.w.toNat % UART_TX_BUF_SIZE) c
        w := s.w + 1
        stored := s.stored ++ [c] }
  | sleep (p : Fin NPROC) (c : UInt8) (h : s.rest p = .dozing c) :
      UartStep s (s.setRest p (.sleeping c))
  | kill (p : Fin NPROC) (c : UInt8) (h : s.rest p = .sleeping c) :
      UartStep s (s.setRest p (.awake c))
  | resume (p : Fin NPROC) (c : UInt8) (hlock : s.lock = none) (h : s.rest p = .awake c) :
      UartStep s ((s.setRest p .out).goto (some p) (.loop c))
  -- An interrupt comes upon a process that does not hold its own lock.
  | uartintr (p : Option (Fin NPROC)) (hlock : s.lock = none) (hp : ∀ q ∈ p, ¬ (s.rest q).Down) :
      UartStep s { s.goto p .start with intr := false }
  -- `uartstart` finds the buffer empty, or the transmitter busy.
  | done (p : Option (Fin NPROC)) (h : s.lock = some ⟨p, .start⟩)
      (hdone : s.w = s.r ∨ s.idle = false) : UartStep s { s with lock := none }
  | send (p : Option (Fin NPROC)) (h : s.lock = some ⟨p, .start⟩) (hne : s.w ≠ s.r)
      (hidle : s.idle = true) :
      UartStep s { s.goto p (.wake (s.buf (s.r.toNat % UART_TX_BUF_SIZE)) 0) with r := s.r + 1 }
  | woken (p : Option (Fin NPROC)) (c x : UInt8) (j : Fin NPROC)
      (h : s.lock = some ⟨p, .wake c j⟩) (hself : p ≠ some j) (hj : s.rest j = .sleeping x) :
      UartStep s ((s.setRest j (.awake x)).goto p (.wake c (j + 1)))
  -- `wakeup` skips its caller, and those that are neither asleep nor about to be.
  | notWoken (p : Option (Fin NPROC)) (c : UInt8) (j : Fin NPROC)
      (h : s.lock = some ⟨p, .wake c j⟩) (hj : p = some j ∨ ¬ (s.rest j).Down) :
      UartStep s (s.goto p (.wake c (j + 1)))
  | thr (p : Option (Fin NPROC)) (c : UInt8) (h : s.lock = some ⟨p, .wake c NPROC⟩) :
      UartStep s { s.goto p .start with sent := s.sent ++ [c], idle := false }
  -- The transmitter has taken the character and interrupts.
  | idle : UartStep s { s with idle := true, intr := true }
  -- `uartputc_sync` has given it one.
  | busy : UartStep s { s with idle := false }
  | panic : UartStep s { s with panicked := true }

namespace UartSys

def len (s : UartSys) : Nat := (s.w - s.r).toNat

def queue (s : UartSys) : List UInt8 :=
  Ring.contents s.buf UART_TX_BUF_SIZE s.r.toNat s.len

/-- What has been taken out of the buffer and not yet written to THR. -/
def inFlight (s : UartSys) : List UInt8 :=
  match s.lock with
  | some ⟨_, .wake c _⟩ => [c]
  | _ => []

/-- What has been sent, is about to be sent and is in the buffer is what was stored, in that
order. -/
structure Fifo (s : UartSys) : Prop where
  len_le : s.len ≤ UART_TX_BUF_SIZE
  order : s.stored = s.sent ++ s.inFlight ++ s.queue

/-- Whom the holder of the lock is still going to wake. -/
def Owes (s : UartSys) (q : Fin NPROC) : Prop :=
  ∃ p c j, s.lock = some ⟨p, .wake c j⟩ ∧ j ≤ q

/-- Nobody sleeps while there is room, apart from those the holder of the lock is still going to
wake. -/
structure Calm (s : UartSys) : Prop where
  self : ∀ h p, s.lock = some h → h.self = some p → ¬ (s.rest p).Down
  owed : ∀ q, (s.rest q).Down → s.len = UART_TX_BUF_SIZE ∨ s.Owes q

/-- The holder of the lock is in `uartstart`. -/
def Starting (s : UartSys) : Prop :=
  ∃ p, s.lock = some ⟨p, .start⟩ ∨ ∃ c j, s.lock = some ⟨p, .wake c j⟩

/-- What is in the buffer will be looked at again: somebody is in `uartstart`, or the transmitter is
busy, or its interrupt has still to be taken. -/
def Armed (s : UartSys) : Prop := s.w = s.r ∨ s.Starting ∨ s.idle = false ∨ s.intr = true

end UartSys

/-! ## The counters -/

section Counters

variable {w r : UInt64}

theorem eq_add_iff : w = r + UART_TX_BUF_SIZE.toUInt64 ↔ (w - r).toNat = UART_TX_BUF_SIZE := by
  rw [show UART_TX_BUF_SIZE = UART_TX_BUF_SIZE.toUInt64.toNat from rfl, UInt64.toNat_inj,
    UInt64.sub_eq_iff_eq_add, UInt64.add_comm]
  rfl

theorem len_succ (h : (w - r).toNat ≤ UART_TX_BUF_SIZE) :
    (w + 1 - r).toNat = (w - r).toNat + 1 := by
  have := r.toNat_lt
  have := w.toNat_lt
  simp only [UInt64.toNat_sub, UInt64.toNat_add, UInt64.reduceToNat, UART_TX_BUF_SIZE] at h ⊢
  omega

theorem len_pred (h : w ≠ r) : (w - r).toNat = (w - (r + 1)).toNat + 1 := by
  have := r.toNat_lt
  have := w.toNat_lt
  have hne : w.toNat ≠ r.toNat := fun heq => h (UInt64.toNat_inj.mp heq)
  simp only [UInt64.toNat_sub, UInt64.toNat_add, UInt64.reduceToNat]
  omega

theorem cell_w : w.toNat % UART_TX_BUF_SIZE = (r.toNat + (w - r).toNat) % UART_TX_BUF_SIZE := by
  have := r.toNat_lt
  have := w.toNat_lt
  rw [UInt64.toNat_sub]
  simp only [UART_TX_BUF_SIZE]
  omega

theorem cell_succ : (r + 1).toNat % UART_TX_BUF_SIZE = (r.toNat + 1) % UART_TX_BUF_SIZE := by
  rw [UInt64.toNat_add]
  exact Nat.mod_mod_of_dvd _ (by decide)

end Counters

/-! ## One step -/

section Step

open UartSys

variable {s s' : UartSys}

theorem UartSys.Fifo.congr (h : s.Fifo) (hbuf : s'.buf = s.buf) (hw : s'.w = s.w) (hr : s'.r = s.r)
    (hstored : s'.stored = s.stored) (hsent : s'.sent = s.sent)
    (hflight : s'.inFlight = s.inFlight) : s'.Fifo := by
  have hlen : s'.len = s.len := by rw [len, hw, hr, len]
  have hqueue : s'.queue = s.queue := by rw [queue, hbuf, hr, hlen, queue]
  exact ⟨hlen ▸ h.len_le, by rw [hstored, hsent, hflight, hqueue, h.order]⟩

theorem UartSys.Fifo.step (h : s.Fifo) (hstep : UartStep s s') : s'.Fifo := by
  cases hstep with
  | store p c hlock hroom =>
    have hlt : (s.w - s.r).toNat < UART_TX_BUF_SIZE :=
      lt_of_le_of_ne h.len_le fun heq => hroom (eq_add_iff.mpr heq)
    have hlen := len_succ h.len_le
    have hflight : s.inFlight = [] := by simp [inFlight, hlock]
    refine ⟨hlen.trans_le hlt, ?_⟩
    show s.stored ++ [c] = s.sent ++ [] ++ Ring.contents
      (update s.buf (s.w.toNat % UART_TX_BUF_SIZE) c) UART_TX_BUF_SIZE s.r.toNat (s.w + 1 - s.r).toNat
    rw [hlen, cell_w (r := s.r), Ring.contents_push _ _ hlt, h.order, hflight]
    simp only [List.append_assoc]
    rfl
  | send p hlock hne =>
    have hlen := len_pred hne
    have hflight : s.inFlight = [] := by simp [inFlight, hlock]
    refine ⟨(Nat.le_succ _).trans (hlen.symm.trans_le h.len_le), ?_⟩
    show s.stored = s.sent ++ [_] ++
      Ring.contents s.buf UART_TX_BUF_SIZE (s.r + 1).toNat (s.w - (s.r + 1)).toNat
    rw [h.order, hflight, queue, len, hlen, Ring.contents_pop, Ring.contents_congr cell_succ,
      List.append_assoc, List.append_assoc]
    rfl
  | thr p c hlock =>
    refine ⟨h.len_le, ?_⟩
    have hflight : s.inFlight = [c] := by simp [inFlight, hlock]
    show s.stored = s.sent ++ [c] ++ [] ++ s.queue
    rw [h.order, hflight, List.append_nil]
  | sleep | kill | panic | idle | busy => exact h.congr rfl rfl rfl rfl rfl rfl
  | uartputc p c hlock | resume p c hlock | uartintr p hlock | entry p c hlock | full p c hlock
  | done p hlock | woken p c x j hlock | notWoken p c j hlock =>
    exact h.congr rfl rfl rfl rfl rfl (by simp [inFlight, goto, setRest, hlock])

theorem UartSys.Calm.full (h : s.Calm) (hlock : ∀ p c j, s.lock ≠ some ⟨p, .wake c j⟩)
    (q : Fin NPROC) (hq : (s.rest q).Down) : s.len = UART_TX_BUF_SIZE :=
  (h.owed q hq).resolve_right fun ⟨p, c, j, heq, _⟩ => hlock p c j heq

theorem UartSys.Calm.move (h : s.Calm) (hlen : s'.len = s.len)
    (hlock : ∀ p c j, s.lock ≠ some ⟨p, .wake c j⟩)
    (hself : ∀ h p, s'.lock = some h → h.self = some p → ¬ (s'.rest p).Down)
    (hrest : ∀ q, (s'.rest q).Down → (s.rest q).Down ∨ s.len = UART_TX_BUF_SIZE) : s'.Calm :=
  ⟨hself, fun q hq => .inl (hlen.trans ((hrest q hq).elim (h.full hlock q) id))⟩

theorem UartSys.down_setRest {p q : Fin NPROC} {x : UartRest} (hx : ¬ x.Down)
    (h : ((s.setRest p x).rest q).Down) : q ≠ p ∧ (s.rest q).Down := by
  by_cases hq : q = p
  · subst hq
    simp only [setRest, update_self] at h
    exact absurd h hx
  · simp only [setRest, update_of_ne hq] at h
    exact ⟨hq, h⟩

theorem UartSys.Calm.next {p : Option (Fin NPROC)} {c : UInt8} {j : Fin NPROC} (h : s.Calm)
    (hlock : s.lock = some ⟨p, .wake c j⟩) (hlock' : s'.lock = some ⟨p, .wake c (j + 1)⟩)
    (hlen : s'.len = s.len) (hrest : ∀ q, (s'.rest q).Down → q ≠ j ∧ (s.rest q).Down) : s'.Calm := by
  refine ⟨fun k q hk hq hdown => ?_, fun q hq => ?_⟩
  · cases hlock'.symm.trans hk
    exact h.self _ q hlock hq (hrest q hdown).2
  · obtain ⟨hne, hdown⟩ := hrest q hq
    refine (h.owed q hdown).imp hlen.trans fun ⟨_, _, i, hk, hle⟩ => ?_
    cases hlock.symm.trans hk
    exact ⟨p, c, j + 1, hlock', Nat.lt_of_le_of_ne hle (Fin.val_ne_of_ne hne.symm)⟩

theorem UartSys.Calm.step (h : s.Calm) (hstep : UartStep s s') : s'.Calm := by
  cases hstep with
  | uartputc p c hlock hp =>
    refine h.move rfl (by simp [hlock]) ?_ fun q hq => .inl hq
    rintro _ q ⟨⟩ ⟨⟩
    simp [goto, hp, UartRest.Down]
  | entry p c hlock hpanic =>
    refine h.move rfl (by simp [hlock]) ?_ fun q hq => .inl hq
    rintro _ q ⟨⟩ hq
    exact h.self _ q hlock hq
  | full p c hlock hfull =>
    refine h.move rfl (by simp [hlock]) (by simp) fun q hq => .inr (eq_add_iff.mp hfull)
  | store p c hlock hroom =>
    have hnone : ∀ q, ¬ (s.rest q).Down := fun q hq =>
      hroom (eq_add_iff.mpr (h.full (by simp [hlock]) q hq))
    exact ⟨fun _ q _ _ => hnone q, fun q hq => absurd hq (hnone q)⟩
  | sleep p c hp =>
    have hrest : ∀ q, ((s.setRest p (.sleeping c)).rest q).Down ↔ (s.rest q).Down := by
      intro q
      by_cases hq : q = p
      · simp [setRest, hq, hp, UartRest.Down]
      · simp [setRest, hq]
    exact ⟨fun k q hk hq hd => h.self k q hk hq ((hrest q).mp hd),
      fun q hq => h.owed q ((hrest q).mp hq)⟩
  | kill p c hp =>
    have hrest : ∀ q, ((s.setRest p (.awake c)).rest q).Down → (s.rest q).Down :=
      fun q hq => (down_setRest id hq).2
    exact ⟨fun k q hk hq hd => h.self k q hk hq (hrest q hd), fun q hq => h.owed q (hrest q hq)⟩
  | resume p c hlock hp =>
    refine h.move rfl (by simp [hlock]) ?_ fun q hq => .inl (down_setRest id hq).2
    rintro _ q ⟨⟩ ⟨⟩ hq
    exact (down_setRest id hq).1 rfl
  | uartintr p hlock hp =>
    refine h.move rfl (by simp [hlock]) ?_ fun q hq => .inl hq
    rintro _ q ⟨⟩ hq
    exact hp q hq
  | done p hlock => exact h.move rfl (by simp [hlock]) (by simp) fun q hq => .inl hq
  | send p hlock hne =>
    exact ⟨fun _ q hk hq => by cases hk; exact h.self _ q hlock hq,
      fun q _ => .inr ⟨_, _, 0, rfl, Nat.zero_le _⟩⟩
  | woken p c x j hlock hself hj => exact h.next hlock rfl rfl fun q hq => down_setRest id hq
  | notWoken p c j hlock hj =>
    have hup : ¬ (s.rest j).Down := hj.elim (h.self _ j hlock) id
    exact h.next hlock rfl rfl fun q hq => ⟨fun heq => hup (heq ▸ hq), hq⟩
  | thr p c hlock =>
    refine ⟨fun _ q hk hq => by cases hk; exact h.self _ q hlock hq, fun q hq => ?_⟩
    rcases h.owed q hq with hlen | ⟨_, _, j, hk, hle⟩
    · exact .inl hlen
    · cases hlock.symm.trans hk
      exact absurd q.isLt (Nat.not_lt_of_le hle)
  | panic | idle | busy => exact ⟨h.self, h.owed⟩

/-- The steps outside `uartstart` touch neither the transmitter nor, but for the last of them, the
buffer; `uartstart` is left on an empty buffer or a busy transmitter. -/
theorem UartSys.Armed.step (h : s.Armed) (hstep : UartStep s s') : s'.Armed := by
  have hkeep (hlock : ¬ s.Starting) : s.w = s.r ∨ s.idle = false ∨ s.intr = true :=
    h.imp_right fun hs => hs.resolve_left hlock
  cases hstep with
  | store p | uartintr p | thr p => exact .inr (.inl ⟨p, .inl rfl⟩)
  | send p | woken p | notWoken p => exact .inr (.inl ⟨p, .inr ⟨_, _, rfl⟩⟩)
  | done p hlock hdone => exact hdone.imp_right fun hbusy => .inr (.inl hbusy)
  | idle => exact .inr (.inr (.inr rfl))
  | busy => exact .inr (.inr (.inl rfl))
  | sleep | kill | panic => exact h
  | uartputc p c hlock | resume p c hlock | entry p c hlock | full p c hlock =>
    exact (hkeep (by simp [Starting, hlock])).imp_right .inr

end Step

/-! ## Whole runs -/

/-- Nobody else is about, and the transmitter has sent what it was given. -/
structure UartSys.Ready (s : UartSys) : Prop where
  lock : s.lock = none
  rest : ∀ q, s.rest q = .out
  panicked : s.panicked = false
  idle : s.idle = true
  empty : s.w = s.r

end Xv6
