import Xv6.Lib.Extent
import Xv6.Lib.Machine

/-!
# The user heap allocator (user/umalloc.c)

`malloc`, `free` and `morecore` over a memory of headers. A header lies at every address the
allocator has ever treated as one; two headers never overlap, since every block is at least one
header long, which is part of what is proved about the allocator. `sizeof(Header)` is 16.

The loops of `free` and `malloc` follow pointers in memory and take fuel; that they come to an
end is proved, not assumed. The kernel's `sbrk` is a parameter with its contract.
-/

namespace Xv6

open Extents Machines Function

/-- `union header`: the next block of the free list, and the size in units of the header. -/
structure Header where
  ptr : Nat
  size : UInt32

/-- The allocator's memory: the headers, the static `freep` (`0` before the first `malloc`) and
the end of the process image. -/
structure Heap where
  mem : Nat → Header
  freep : Nat
  brk : Nat
  -- ghost: the regions `sbrk` has added for `morecore`
  got : List Extent

/-- The system call `sbrk(n)` as a function of the current break: it fails, or returns the start
of a fresh region. `growproc` keeps the size of a process in a `uint`, so that no address of the
region reaches `2^32`. Nothing is said of a call with a negative argument. -/
structure Sbrk where
  run : Nat → Int32 → Option Nat
  fresh : ∀ brk n p, 0 ≤ n.toInt → run brk n = some p →
    brk ≤ p ∧ (p : Int) + n.toInt < 2 ^ 32

/-- `p + p->s.size`, a pointer to a header plus a number of headers. -/
def blockEnd (mem : Nat → Header) (p : Nat) : Nat := p + 16 * (mem p).size.toNat

/-- Both tails of `free`: make `q` the successor of the block at `p`, or, if `q` begins where the
block ends, make the block at `q` part of it. -/
def coalesce (mem : Nat → Header) (p q : Nat) : Nat → Header :=
  if blockEnd mem p = q then
    update mem p ⟨(mem q).ptr, (mem p).size + (mem q).size⟩
  else
    update mem p ⟨q, (mem p).size⟩

/-- The condition on which the search loop of `free` stops at `p`. -/
def Stops (mem : Nat → Header) (bp p : Nat) : Prop :=
  -- the loop condition fails
  (p < bp ∧ bp < (mem p).ptr) ∨
  -- the break: `p` is the block with the highest address
  ((mem p).ptr ≤ p ∧ (p < bp ∨ bp < (mem p).ptr))

instance (mem : Nat → Header) (bp p : Nat) : Decidable (Stops mem bp p) :=
  inferInstanceAs (Decidable (_ ∨ _))

def freeSearch (mem : Nat → Header) (bp : Nat) : Nat → Nat → Option Nat
  | 0, _ => none
  | fuel + 1, p => if Stops mem bp p then some p else freeSearch mem bp fuel (mem p).ptr

def free (fuel : Nat) (h : Heap) (ap : Nat) : Option Heap := do
  let bp := ap - 16
  let p ← freeSearch h.mem bp fuel h.freep
  let mem := coalesce h.mem bp (h.mem p).ptr
  return { h with mem := coalesce mem p bp, freep := p }

/-- `morecore`: `0` if the system has no more memory, else the `freep` that `free` left. -/
def morecore (os : Sbrk) (fuel : Nat) (h : Heap) (nu : UInt32) : Option (Heap × Nat) :=
  let nu := if nu < 4096 then 4096 else nu
  -- the 64-bit product is passed as an int
  let n := Int32.ofNat (nu.toNat * 16)
  match os.run h.brk n with
  | none => some (h, 0)
  | some p => do
    let h := { h with
      mem := update h.mem p { h.mem p with size := nu }
      brk := ((p : Int) + n.toInt).toNat
      got := ⟨p, n.toInt.toNat⟩ :: h.got }
    let h ← free fuel h (p + 16)
    return (h, h.freep)

/-- The number of units for a request: rounded up, and one for the header. The sum is computed
in 64 bits. -/
def nunits (nbytes : UInt32) : UInt32 := UInt32.ofNat ((nbytes.toNat + 16 - 1) / 16 + 1)

/-- The body of the loop of `malloc` once a block at `p` is big enough. -/
def mallocTake (h : Heap) (n : UInt32) (prevp p : Nat) : Heap × Nat :=
  if (h.mem p).size = n then
    let mem := update h.mem prevp { h.mem prevp with ptr := (h.mem p).ptr }
    ({ h with mem := mem, freep := prevp }, p + 16)
  else
    -- the tail of the block is handed out
    let mem := update h.mem p { h.mem p with size := (h.mem p).size - n }
    let p := blockEnd mem p
    let mem := update mem p { mem p with size := n }
    ({ h with mem := mem, freep := prevp }, p + 16)

def mallocLoop (os : Sbrk) (n : UInt32) : Nat → Heap → Nat → Nat → Option (Heap × Nat)
  | 0, _, _, _ => none
  | fuel + 1, h, prevp, p =>
    if n ≤ (h.mem p).size then some (mallocTake h n prevp p)
    else if p = h.freep then
      match morecore os fuel h n with
      | none => none
      | some (h, p) => if p = 0 then some (h, 0) else mallocLoop os n fuel h p (h.mem p).ptr
    else mallocLoop os n fuel h p (h.mem p).ptr

/-- The first call of `malloc` makes `base` the only member of the list. -/
def Heap.init (base : Nat) (h : Heap) : Heap :=
  if h.freep = 0 then { h with mem := update h.mem base ⟨base, 0⟩, freep := base } else h

/-- `malloc`: the heap after the call and the pointer returned. -/
def malloc (base : Nat) (os : Sbrk) (fuel : Nat) (h : Heap) (nbytes : UInt32) :
    Option (Heap × Nat) :=
  let h := h.init base
  mallocLoop os (nunits nbytes) fuel h h.freep (h.mem h.freep).ptr

/-! ## The program that uses the heap -/

/-- A process: its heap and (ghost) the blocks it has been given and has not freed, headers
included. -/
structure HeapSys where
  heap : Heap
  live : List Extent

inductive HeapLabel where
  | malloc (nbytes : UInt32) (ret : Nat)
  | free (ap : Nat)
  -- the program writes into the blocks it owns
  | write

/-- The block behind a pointer that `malloc` returned. -/
def blockOf (mem : Nat → Header) (ap : Nat) : Extent := ⟨ap - 16, 16 * (mem (ap - 16)).size.toNat⟩

/-- What a block leaves for the program: all but the header. -/
def payload (b : Extent) : Extent := ⟨b.start + 16, b.len - 16⟩

inductive HeapStep (base : Nat) : HeapSys → HeapLabel → HeapSys → Prop
  | malloc {s : HeapSys} {h : Heap} {os : Sbrk} {fuel ret : Nat} {nbytes : UInt32}
      (hm : malloc base os fuel s.heap nbytes = some (h, ret)) :
      HeapStep base s (.malloc nbytes ret)
        ⟨h, if ret = 0 then s.live else blockOf h.mem ret :: s.live⟩
  | free {s : HeapSys} {h : Heap} {fuel : Nat} {b : Extent} (hb : b ∈ s.live)
      (hf : free fuel s.heap (b.start + 16) = some h) :
      HeapStep base s (.free (b.start + 16)) ⟨h, s.live.erase b⟩
  | write {s : HeapSys} {mem : Nat → Header}
      -- headers that share no byte with a payload keep their value
      (hw : ∀ a, (∀ b ∈ s.live, (payload b).Apart ⟨a, 16⟩) → mem a = s.heap.mem a) :
      HeapStep base s .write ⟨{ s.heap with mem := mem }, s.live⟩

/-- Before the first call: `freep` is null, and the process image, which holds `base`, ends at
the break. -/
structure HeapSys.Fresh (base : Nat) (s : HeapSys) : Prop where
  base_pos : 0 < base
  base_le : base + 16 ≤ s.heap.brk
  freep : s.heap.freep = 0
  got : s.heap.got = []
  live : s.live = []

def heapMachine (base : Nat) : Machine HeapSys HeapLabel where
  init := HeapSys.Fresh base
  step := HeapStep base

/-- Requests of less than `2^31` bytes, the header included. -/
def SmallRequests (_ : HeapSys) : HeapLabel → Prop
  | .malloc nbytes _ => (nunits nbytes).toNat * 16 < 2 ^ 31
  | _ => True

end Xv6
