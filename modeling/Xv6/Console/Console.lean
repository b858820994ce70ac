import Xv6.Lib.Machine
import Xv6.Lib.Ring
import Xv6.Proc.Table

/-!
# The console

`kernel/console.c`: `consoleintr`, which the UART's interrupt handler calls for each character typed,
and `consoleread`. The echo on the screen is left out.
-/

namespace Xv6

open Function List

def INPUT_BUF : Nat := 128

/-- `C(x)`: Control-x -/
def ctrl (x : Char) : UInt8 := UInt8.ofNat (x.toNat - '@'.toNat)

def newline : UInt8 := 10
def carriageReturn : UInt8 := 13
def delete : UInt8 := 0x7f

structure Cons where
  buf : Nat → UInt8
  r : UInt32
  w : UInt32
  e : UInt32

/-! ## Characters -/

/-- The loop of the kill-line character. Each round brings `e` one closer to `w`. -/
def killLine : Nat → Cons → Cons
  | 0, s => s
  | fuel + 1, s =>
    if s.e ≠ s.w ∧ s.buf ((s.e - 1).toNat % INPUT_BUF) ≠ newline then
      killLine fuel { s with e := s.e - 1 }
    else
      s

/-- `cons.buf[cons.e++ % INPUT_BUF] = c`, and `cons.w = cons.e` if the line is complete. -/
def storeChar (c : UInt8) (s : Cons) : Cons :=
  let s := { s with buf := update s.buf (s.e.toNat % INPUT_BUF) c, e := s.e + 1 }
  if c = newline ∨ c = ctrl 'D' ∨ s.e = s.r + UInt32.ofNat INPUT_BUF then
    { s with w := s.e }
  else
    s

def consoleintr (c : UInt8) (s : Cons) : Cons :=
  if c = ctrl 'P' then
    s
  else if c = ctrl 'U' then
    killLine (s.e - s.w).toNat s
  else if c = ctrl 'H' ∨ c = delete then
    if s.e ≠ s.w then { s with e := s.e - 1 } else s
  else if c ≠ 0 ∧ (s.e - s.r).toNat < INPUT_BUF then
    storeChar (if c = carriageReturn then newline else c) s
  else
    s

/-! ## Readers -/

inductive ConsStop where
  -- `n` is `0`.
  | count
  | newline
  -- Control-D.
  | eof
  -- The copy to the destination failed.
  | fault
  deriving DecidableEq

/-- Where a process is in `consoleread`. It was asked for `target` bytes and has copied those in
`got`, so `n` is `target - got.length`; `dst j` tells whether byte `j` of the destination can be stored
to. -/
inductive ConsPc where
  | idle
  -- `acquire(&cons.lock)`, at the start or when `sleep` returns.
  | want (dst : Nat → Bool) (target : Int) (got : List UInt8)
  -- At the loop, with the lock.
  | loop (dst : Nat → Bool) (target : Int) (got : List UInt8)
  -- `release(&cons.lock); return target - n`
  | stop (target : Int) (got : List UInt8) (how : ConsStop)

/-- `typed` and `eaten` are histories that the code does not have: the characters typed so far, each
with the number of bytes that could be read when it came, and the bytes removed, each with the
reader that removed it. `since` tells how many there were when the call of a reader started. -/
structure ConsSys where
  cons : Cons
  lock : Option (Fin NPROC)
  pc : Fin NPROC → ConsPc
  killed : Fin NPROC → Bool
  typed : List (UInt8 × Nat)
  eaten : List (Fin NPROC × UInt8)
  since : Fin NPROC → Nat

namespace ConsSys

def setPc (s : ConsSys) (p : Fin NPROC) (pc : ConsPc) : ConsSys :=
  { s with pc := update s.pc p pc }

/-- `cons.buf[cons.r % INPUT_BUF]` -/
def next (s : ConsSys) : UInt8 := s.cons.buf (s.cons.r.toNat % INPUT_BUF)

def eat (s : ConsSys) (p : Fin NPROC) : ConsSys :=
  { s with cons := { s.cons with r := s.cons.r + 1 }, eaten := s.eaten ++ [(p, s.next)] }

def removed (s : ConsSys) (p : Fin NPROC) : List UInt8 :=
  ((s.eaten.drop (s.since p)).filter (·.1 = p)).map Prod.snd

end ConsSys

inductive ConsLabel where
  -- A character is typed.
  | intr (c : UInt8)
  | call (p : Fin NPROC) (dst : Nat → Bool) (n : Int)
  | go (p : Fin NPROC)
  | kill (p : Fin NPROC)

/-- A step is a call of `consoleintr`, or one round of the loop of `consoleread`; a reader that
sleeps has given up `cons.lock` and takes it again whenever it is woken. -/
inductive ConsStep (s : ConsSys) : ConsLabel → ConsSys → Prop where
  | intr {c} (hfree : s.lock = none) :
    ConsStep s (.intr c) { s with
      cons := consoleintr c s.cons
      typed := s.typed ++ [(c, (s.cons.w - s.cons.r).toNat)] }
  | call {p dst n} (hp : s.pc p = .idle) : ConsStep s (.call p dst n)
      ({ s with since := update s.since p s.eaten.length }.setPc p (.want dst n []))
  | acquire {p dst target got} (hp : s.pc p = .want dst target got) (hfree : s.lock = none) :
    ConsStep s (.go p) ({ s with lock := some p }.setPc p (.loop dst target got))
  -- a round of the loop
  | count {p dst target got} (hp : s.pc p = .loop dst target got) (hn : target - got.length ≤ 0) :
    ConsStep s (.go p) (s.setPc p (.stop target got .count))
  | fail {p dst target got} (hp : s.pc p = .loop dst target got) (hn : 0 < target - got.length)
    (hempty : s.cons.r = s.cons.w) (hkilled : s.killed p = true) :
    ConsStep s (.go p) ({ s with lock := none }.setPc p .idle)
  | sleep {p dst target got} (hp : s.pc p = .loop dst target got) (hn : 0 < target - got.length)
    (hempty : s.cons.r = s.cons.w) (hkilled : s.killed p = false) :
    ConsStep s (.go p) ({ s with lock := none }.setPc p (.want dst target got))
  | eof {p dst target got} (hp : s.pc p = .loop dst target got) (hn : 0 < target - got.length)
    (hsome : s.cons.r ≠ s.cons.w) (hc : s.next = ctrl 'D') (hnone : ¬ target - got.length < target) :
    ConsStep s (.go p) ((s.eat p).setPc p (.stop target got .eof))
  -- `cons.r--` after `cons.r++`
  | eofAgain {p dst target got} (hp : s.pc p = .loop dst target got) (hn : 0 < target - got.length)
    (hsome : s.cons.r ≠ s.cons.w) (hc : s.next = ctrl 'D') (hdata : target - got.length < target) :
    ConsStep s (.go p) ({ s with cons := { s.cons with r := s.cons.r + 1 - 1 } }.setPc p
      (.stop target got .eof))
  | fault {p dst target got} (hp : s.pc p = .loop dst target got) (hn : 0 < target - got.length)
    (hsome : s.cons.r ≠ s.cons.w) (hc : s.next ≠ ctrl 'D') (hdst : dst got.length = false) :
    ConsStep s (.go p) ((s.eat p).setPc p (.stop target got .fault))
  | newline {p dst target got} (hp : s.pc p = .loop dst target got) (hn : 0 < target - got.length)
    (hsome : s.cons.r ≠ s.cons.w) (hc : s.next = newline) (hdst : dst got.length = true) :
    ConsStep s (.go p) ((s.eat p).setPc p (.stop target (got ++ [s.next]) .newline))
  | byte {p dst target got} (hp : s.pc p = .loop dst target got) (hn : 0 < target - got.length)
    (hsome : s.cons.r ≠ s.cons.w) (hc : s.next ≠ ctrl 'D') (hline : s.next ≠ newline)
    (hdst : dst got.length = true) :
    ConsStep s (.go p) ((s.eat p).setPc p (.loop dst target (got ++ [s.next])))
  | ret {p target got how} (hp : s.pc p = .stop target got how) :
    ConsStep s (.go p) ({ s with lock := none }.setPc p .idle)
  | kill {p} : ConsStep s (.kill p) { s with killed := update s.killed p true }

structure ConsSys.Fresh (s : ConsSys) : Prop where
  r : s.cons.r = 0
  w : s.cons.w = 0
  e : s.cons.e = 0
  lock : s.lock = none
  pc : ∀ p, s.pc p = .idle
  typed : s.typed = []
  eaten : s.eaten = []
  since : ∀ p, s.since p = 0

def cons0 : ConsSys where
  cons := ⟨fun _ => 0, 0, 0, 0⟩
  lock := none
  pc _ := .idle
  killed _ := false
  typed := []
  eaten := []
  since _ := 0

theorem cons0_fresh : cons0.Fresh := ⟨rfl, rfl, rfl, rfl, fun _ => rfl, rfl, rfl, fun _ => rfl⟩

def consMachine : Machines.Machine ConsSys ConsLabel where
  init := ConsSys.Fresh
  step := ConsStep

/-! ## The line editor -/

/-- What typing `c` does to the bytes committed and to the line being edited, when `unread` of the
bytes committed have not been read. -/
def feed (unread : Nat) (c : UInt8) (st : List UInt8 × List UInt8) : List UInt8 × List UInt8 :=
  if c = 0 ∨ c = ctrl 'P' then
    st
  else if c = ctrl 'U' then
    (st.1, [])
  else if c = ctrl 'H' ∨ c = delete then
    (st.1, st.2.dropLast)
  else if unread + st.2.length = INPUT_BUF then
    -- dropped: there is no room
    st
  else
    let c := if c = carriageReturn then newline else c
    if c = newline ∨ c = ctrl 'D' ∨ unread + (st.2.length + 1) = INPUT_BUF then
      (st.1 ++ (st.2 ++ [c]), [])
    else
      (st.1, st.2 ++ [c])

/-- The bytes committed and the line being edited, from what was typed. -/
def edited (typed : List (UInt8 × Nat)) : List UInt8 × List UInt8 :=
  typed.foldl (fun st x => feed x.2 x.1 st) ([], [])

theorem edited_concat (typed : List (UInt8 × Nat)) (x : UInt8 × Nat) :
    edited (typed ++ [x]) = feed x.2 x.1 (edited typed) := by
  unfold edited
  rw [foldl_append]
  rfl

theorem feed_prefix (unread : Nat) (c : UInt8) (st : List UInt8 × List UInt8) :
    st.1 <+: (feed unread c st).1 := by
  unfold feed
  generalize (if c = carriageReturn then newline else c) = d
  split
  · exact prefix_rfl
  split
  · exact prefix_rfl
  split
  · exact prefix_rfl
  split
  · exact prefix_rfl
  dsimp only
  split
  · exact prefix_append ..
  · exact prefix_rfl

example : (edited [(ctrl 'U', 0), (97, 0), (98, 0), (delete, 0), (carriageReturn, 0), (99, 2)]).1
    = [97, newline] := by decide

end Xv6
