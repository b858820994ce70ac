import Xv6.Lib.Machine
import Xv6.Fs.Contents

/-!
# Writing a file through a shared `struct file` (kernel/file.c)

`filewrite` on an inode cuts the buffer into chunks and writes each in a transaction of its own,
under the lock of the inode; the offset, which all users of the `struct file` share, is read and
advanced under that lock. The steps of a process are what it does between two points where another
process may run: `begin_op`, taking the lock, `writei`, the addition to `f->off`, releasing the
lock, `end_op`. `begin_op` and `end_op` only wait, and a process that waits for the lock takes no
step. A panic stops the machine.
-/

namespace Xv6

open Machines Prog

/-- `max` in `filewrite`: what fits in a transaction. -/
def maxChunk : Nat := ((MAXOPBLOCKS - 1 - 1 - 2) / 2) * BSIZE

structure InodeFile where
  writable : Bool
  ip : Fin NINODE
  off : UInt32

/-- A call `filewrite(f, addr, n)`: byte `j` at `addr` is `src j`, if it can be loaded. The calls
are numbered by the ghost `id`. -/
structure WriteCall where
  src : Nat → Option UInt8
  n : Int
  id : Nat

namespace WriteCall

variable (c : WriteCall) (i : Nat)

def n1 : Nat := min (c.n.toNat - i) maxChunk

def bytes (m : Nat) : List UInt8 := (List.range m).map fun j => (c.src (i + j)).getD 0

def chunk : List UInt8 := c.bytes i (c.n1 i)

def ret : Int := if (i : Int) = c.n then c.n else -1

end WriteCall

inductive WritePc where
  | idle
  -- at the test of the loop
  | test (c : WriteCall) (i : Nat)
  -- after `begin_op`, waiting for the lock
  | enter (c : WriteCall) (i : Nat)
  | locked (c : WriteCall) (i : Nat)
  | wrote (c : WriteCall) (i : Nat) (r : Int)
  -- after the addition to `f->off`
  | moved (c : WriteCall) (i : Nat) (r : Int)
  | unlocked (c : WriteCall) (i : Nat) (r : Int)

structure WriteSys (P : Type) where
  fs : Fs
  f : InodeFile
  proc : P → WritePc
  panic : Option FsPanic
  -- ghosts: the number of calls made, the chunks in the order in which they got the lock, each with
  -- the number of its call, and the calls that have returned, with what they returned
  count : Nat
  order : List (Nat × List UInt8)
  returned : List (WriteCall × Int)

section Step

variable {P : Type} [DecidableEq P]

def WriteSys.setPc (s : WriteSys P) (p : P) (pc : WritePc) : WriteSys P :=
  { s with proc := Function.update s.proc p pc }

def WriteSys.leave (s : WriteSys P) (p : P) (c : WriteCall) (r : Int) : WriteSys P :=
  { s.setPc p .idle with returned := (c, r) :: s.returned }

inductive WriteLabel (P : Type) where
  | call (p : P) (src : Nat → Option UInt8) (n : Int)
  | run (p : P)

variable (sb : Superblock)

/-- The steps of `filewrite`, between two points where another process may run. -/
inductive WriteStep : WriteSys P → WriteLabel P → WriteSys P → Prop
  | call {s : WriteSys P} {p : P} {src : Nat → Option UInt8} {n : Int} (hok : s.panic = none)
      (hp : s.proc p = .idle) (hn : -2 ^ 31 ≤ n ∧ n < 2 ^ 31) (hw : s.f.writable = true) :
      WriteStep s (.call p src n)
        { s.setPc p (.test ⟨src, n, s.count⟩ 0) with count := s.count + 1 }
  | callReadOnly {s : WriteSys P} {p : P} {src : Nat → Option UInt8} {n : Int}
      (hok : s.panic = none) (hp : s.proc p = .idle) (hn : -2 ^ 31 ≤ n ∧ n < 2 ^ 31)
      (hw : s.f.writable = false) :
      WriteStep s (.call p src n)
        { s.leave p ⟨src, n, s.count⟩ (-1) with count := s.count + 1 }
  -- begin_op()
  | enter {s : WriteSys P} {p : P} {c : WriteCall} {i : Nat} (hok : s.panic = none)
      (hp : s.proc p = .test c i) (hi : (i : Int) < c.n) :
      WriteStep s (.run p) (s.setPc p (.enter c i))
  | done {s : WriteSys P} {p : P} {c : WriteCall} {i : Nat} (hok : s.panic = none)
      (hp : s.proc p = .test c i) (hi : ¬ (i : Int) < c.n) :
      WriteStep s (.run p) (s.leave p c (c.ret i))
  | lock {s : WriteSys P} {p : P} {c : WriteCall} {i : Nat} {fs : Fs} (hok : s.panic = none)
      (hp : s.proc p = .enter c i) (hr : (ilock sb s.f.ip).run s.fs = .ok ((), fs)) :
      WriteStep s (.run p) { s.setPc p (.locked c i) with
        fs := fs, order := s.order ++ [(c.id, c.chunk i)] }
  | lockPanic {s : WriteSys P} {p : P} {c : WriteCall} {i : Nat} {e : FsPanic}
      (hok : s.panic = none) (hp : s.proc p = .enter c i)
      (hr : (ilock sb s.f.ip).run s.fs = .error e) (he : e ≠ .asleep) :
      WriteStep s (.run p) { s with panic := some e }
  | write {s : WriteSys P} {p : P} {c : WriteCall} {i : Nat} {r : Int} {fs : Fs}
      (hok : s.panic = none) (hp : s.proc p = .locked c i)
      (hr : (writei sb s.f.ip (fun j => c.src (i + j)) s.f.off (UInt32.ofNat (c.n1 i))).run s.fs
        = .ok (r, fs)) :
      WriteStep s (.run p) { s.setPc p (.wrote c i r) with fs := fs }
  | writePanic {s : WriteSys P} {p : P} {c : WriteCall} {i : Nat} {e : FsPanic}
      (hok : s.panic = none) (hp : s.proc p = .locked c i)
      (hr : (writei sb s.f.ip (fun j => c.src (i + j)) s.f.off (UInt32.ofNat (c.n1 i))).run s.fs
        = .error e) :
      WriteStep s (.run p) { s with panic := some e }
  -- if(r > 0) f->off += r
  | move {s : WriteSys P} {p : P} {c : WriteCall} {i : Nat} {r : Int} (hok : s.panic = none)
      (hp : s.proc p = .wrote c i r) :
      WriteStep s (.run p) { s.setPc p (.moved c i r) with
        f := { s.f with off := if 0 < r then s.f.off + UInt32.ofNat r.toNat else s.f.off } }
  | unlock {s : WriteSys P} {p : P} {c : WriteCall} {i : Nat} {r : Int} {fs : Fs}
      (hok : s.panic = none) (hp : s.proc p = .moved c i r)
      (hr : (iunlock s.f.ip).run s.fs = .ok ((), fs)) :
      WriteStep s (.run p) { s.setPc p (.unlocked c i r) with fs := fs }
  | unlockPanic {s : WriteSys P} {p : P} {c : WriteCall} {i : Nat} {r : Int} {e : FsPanic}
      (hok : s.panic = none) (hp : s.proc p = .moved c i r)
      (hr : (iunlock s.f.ip).run s.fs = .error e) :
      WriteStep s (.run p) { s with panic := some e }
  -- end_op(), and the next chunk or, after an error, the end of the loop
  | next {s : WriteSys P} {p : P} {c : WriteCall} {i : Nat} {r : Int} (hok : s.panic = none)
      (hp : s.proc p = .unlocked c i r) (hr : r = c.n1 i) :
      WriteStep s (.run p) (s.setPc p (.test c (i + c.n1 i)))
  | fail {s : WriteSys P} {p : P} {c : WriteCall} {i : Nat} {r : Int} (hok : s.panic = none)
      (hp : s.proc p = .unlocked c i r) (hr : r ≠ c.n1 i) :
      WriteStep s (.run p) (s.leave p c (c.ret i))

def writeMachine (s₀ : WriteSys P) : Machine (WriteSys P) (WriteLabel P) where
  init s := s = s₀
  step := WriteStep sb

structure WriteSys.Fresh (s : WriteSys P) : Prop where
  good : s.fs.Good sb
  ref : 0 < (s.fs.itable s.f.ip).ref
  alloc : (s.fs.vol sb).Alloc sb (s.fs.itable s.f.ip).inum
  lock : (s.fs.itable s.f.ip).lock = false
  writable : s.f.writable = true
  proc : ∀ p, s.proc p = .idle
  panic : s.panic = none
  order : s.order = []
  returned : s.returned = []

omit [DecidableEq P] in
/-- The buffers are mapped, and no chunk goes past the largest size of a file. -/
def WriteSys.Fits (s : WriteSys P) : WriteLabel P → Prop
  | .call _ src n => ∀ j, j < n.toNat → src j ≠ none
  | .run p => ∀ c i, s.proc p = .locked c i → s.f.off.toNat + c.n1 i ≤ MAXFILE * BSIZE

def WriteSys.content (s : WriteSys P) : List UInt8 :=
  (s.fs.vol sb).content (s.fs.itable s.f.ip).inum

end Step

end Xv6
