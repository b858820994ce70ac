import Xv6.Lib.Bytes
import Xv6.Lib.Prog

/-!
# Physical pages and page tables

`kernel/kalloc.c` and the page table functions of `kernel/vm.c`.

Physical memory is a page of bytes for every physical page number; a physical address that the
source keeps page aligned is that number. `kmem.freelist` is the list of the pages on it. The
kernel ends below page `base`. Page table entries lie in the bytes of their pages, and a
`pte_t *` is a page and an index. Virtual addresses and sizes are `uint64`s, kept as numbers with
the wrap-around written out.
-/

namespace Xv6

open Prog

def PGSIZE : Nat := 4096

def PGROUNDUP (sz : Nat) : Nat := (sz + (PGSIZE - 1)) % 2 ^ 64 / PGSIZE * PGSIZE

def PGROUNDDOWN (a : Nat) : Nat := a / PGSIZE * PGSIZE

def MAXVA : Nat := 2 ^ (9 + 9 + 9 + 12 - 1)

def TRAMPOLINE : Nat := MAXVA - PGSIZE

def TRAPFRAME : Nat := TRAMPOLINE - PGSIZE

def KERNBASE : Nat := 0x80000000

def PHYSTOP : Nat := KERNBASE + 128 * 1024 * 1024

/-- `PX(level, va)`: the index into the table at `level`. -/
def PX (level va : Nat) : Nat := va / 2 ^ (12 + 9 * level) % 512

/-! ## Page table entries -/

abbrev Pte := UInt64

def PTE_V : Nat := 1
def PTE_R : Nat := 2
def PTE_W : Nat := 4
def PTE_X : Nat := 8
def PTE_U : Nat := 16

namespace Pte

variable (pte : Pte)

/-- `PTE2PA(pte)`. -/
@[irreducible] def pa : Nat := pte.toNat / 1024

/-- `PTE_FLAGS(pte)`. -/
@[irreducible] def flags : Nat := pte.toNat % 1024

/-- `pte & PTE_V`. -/
@[irreducible] def V : Bool := pte.flags % 2 = 1

/-- `pte & (PTE_R|PTE_W|PTE_X)`. -/
@[irreducible] def RWX : Bool := pte.flags / 2 % 8 ≠ 0

/-- `pte & PTE_U`. -/
@[irreducible] def U : Bool := pte.flags / 16 % 2 = 1

/-- `PA2PTE(pa) | flags`. -/
def mk (pa flags : Nat) : Pte := UInt64.ofNat (pa * 1024 + flags)

/-- `pte & ~PTE_U`. -/
def clearU : Pte := if pte.U then mk pte.pa (pte.flags - PTE_U) else pte

end Pte

/-! ## Physical pages -/

abbrev Page := Nat → UInt8

/-- `((pte_t *) page)[i]`. -/
@[irreducible] def Page.pte (pg : Page) (i : Nat) : Pte := UInt64.ofNat (Bytes.getLE pg (8 * i) 8)

@[irreducible] def Page.setPte (pg : Page) (i : Nat) (pte : Pte) : Page :=
  Bytes.putLE pg (8 * i) 8 pte.toNat

/-- Physical memory: the pages by number, and those on `kmem.freelist`; the kernel ends below
`base`. -/
structure Vm where
  mem : Nat → Page
  free : List Nat
  base : Nat

inductive VmPanic where
  -- `"kfree"`
  | kfree
  -- `"walk"`
  | walk
  -- `"mappages: size"`
  | mappagesSize
  -- `"mappages: remap"`
  | remap
  -- `"uvmunmap: not aligned"`
  | notAligned
  -- `"uvmunmap: walk"`
  | unmapWalk
  -- `"uvmunmap: not mapped"`
  | notMapped
  -- `"uvmunmap: not a leaf"`
  | notLeaf
  -- `"freewalk: leaf"`
  | freewalkLeaf
  -- `freewalk` goes below the lowest level, into a page of data.
  | freewalkBelow
  -- `"uvmcopy: pte should exist"`
  | uvmcopyPte
  -- `"uvmcopy: page not present"`
  | uvmcopyPresent
  -- `"uvmclear"`
  | uvmclear
  deriving DecidableEq, Repr

abbrev VmM (α : Type) : Type := Act Vm VmPanic α

def loadPage (p : Nat) : VmM Page := do
  let s ← get
  return s.mem p

def storePage (p : Nat) (pg : Page) : VmM Unit :=
  modify fun s => { s with mem := Function.update s.mem p pg }

def memset (p : Nat) (c : UInt8) : VmM Unit := storePage p fun _ => c

def loadPte (p i : Nat) : VmM Pte := do
  let pg ← loadPage p
  return pg.pte i

def storePte (p i : Nat) (pte : Pte) : VmM Unit := do
  let pg ← loadPage p
  storePage p (pg.setPte i pte)

/-- The link to the rest of the list, which overwrites the first bytes of the page, is not kept
in the page. -/
def kfree (p : Nat) : VmM Unit := do
  let s ← get
  if p < s.base ∨ PHYSTOP ≤ p * PGSIZE then
    throw .kfree
  else
    memset p 1
    modify fun s => { s with free := p :: s.free }

def kalloc : VmM (Option Nat) := do
  let s ← get
  match s.free with
  | [] => return none
  | p :: rest =>
    modify fun s => { s with free := rest }
    memset p 5
    return some p

/-! ## Page tables -/

/-- The loop of `walk`: from the table `pagetable` at `level` down to the entry. -/
def walkFrom (va : Nat) (alloc : Bool) : Nat → Nat → VmM (Option (Nat × Nat))
  | 0, pagetable => return some (pagetable, PX 0 va)
  | level + 1, pagetable => do
    let pte ← loadPte pagetable (PX (level + 1) va)
    if pte.V then
      walkFrom va alloc level pte.pa
    else if alloc = false then
      return none
    else
      match ← kalloc with
      | none => return none
      | some p =>
        memset p 0
        storePte pagetable (PX (level + 1) va) (Pte.mk p PTE_V)
        walkFrom va alloc level p

def walk (pagetable va : Nat) (alloc : Bool) : VmM (Option (Nat × Nat)) := do
  if MAXVA ≤ va then
    throw .walk
  else
    walkFrom va alloc 2 pagetable

def walkaddr (pagetable va : Nat) : VmM Nat := do
  if MAXVA ≤ va then
    return 0
  else
    match ← walk pagetable va false with
    | none => return 0
    | some (p, i) =>
      let pte ← loadPte p i
      if pte.V = false then
        return 0
      else if pte.U = false then
        return 0
      else
        return pte.pa

/-- The loop of `mappages`; there are `n` pages left after this one. -/
def mappagesFrom (pagetable perm : Nat) : Nat → Nat → Nat → VmM Int
  | n, a, pa => do
    match ← walk pagetable a true with
    | none => return -1
    | some (p, i) =>
      let pte ← loadPte p i
      if pte.V then
        throw .remap
      else
        storePte p i (Pte.mk pa (perm ||| PTE_V))
        match n with
        | 0 => return 0
        | n + 1 => mappagesFrom pagetable perm n ((a + PGSIZE) % 2 ^ 64) (pa + 1)

def mappages (pagetable va size pa perm : Nat) : VmM Int := do
  if size = 0 then
    throw .mappagesSize
  else
    let a := PGROUNDDOWN va
    let last := PGROUNDDOWN ((va + size - 1) % 2 ^ 64)
    -- from `a` to `last`, which may lie on the other side of the wrap-around
    mappagesFrom pagetable perm ((last + 2 ^ 64 - a) % 2 ^ 64 / PGSIZE) a pa

/-- The loop of `uvmunmap`, over the `n` pages from `a` on. -/
def uvmunmapFrom (pagetable : Nat) (doFree : Bool) : Nat → Nat → VmM Unit
  | 0, _ => return ()
  | n + 1, a => do
    match ← walk pagetable a false with
    | none => throw .unmapWalk
    | some (p, i) =>
      let pte ← loadPte p i
      if pte.V = false then
        throw .notMapped
      else if pte.flags = PTE_V then
        throw .notLeaf
      else
        if doFree then
          kfree pte.pa
        storePte p i 0
        uvmunmapFrom pagetable doFree n (a + PGSIZE)

def uvmunmap (pagetable va npages : Nat) (doFree : Bool) : VmM Unit := do
  if va % PGSIZE ≠ 0 then
    throw .notAligned
  else
    uvmunmapFrom pagetable doFree npages va

def uvmcreate : VmM (Option Nat) := do
  match ← kalloc with
  | none => return none
  | some pagetable =>
    memset pagetable 0
    return some pagetable

def uvmdealloc (pagetable oldsz newsz : Nat) : VmM Nat := do
  if newsz ≥ oldsz then
    return oldsz
  else
    if PGROUNDUP newsz < PGROUNDUP oldsz then
      let npages := (PGROUNDUP oldsz - PGROUNDUP newsz) / PGSIZE
      uvmunmap pagetable (PGROUNDUP newsz) npages true
    return newsz

/-- The loop of `uvmalloc`, over the `n` pages from `a` on. -/
def uvmallocFrom (pagetable oldsz newsz : Nat) : Nat → Nat → VmM Nat
  | 0, _ => return newsz
  | n + 1, a => do
    match ← kalloc with
    | none =>
      let _ ← uvmdealloc pagetable a oldsz
      return 0
    | some mem =>
      memset mem 0
      if (← mappages pagetable a PGSIZE mem (PTE_W ||| PTE_X ||| PTE_R ||| PTE_U)) ≠ 0 then
        kfree mem
        let _ ← uvmdealloc pagetable a oldsz
        return 0
      else
        uvmallocFrom pagetable oldsz newsz n (a + PGSIZE)

def uvmalloc (pagetable oldsz newsz : Nat) : VmM Nat := do
  if newsz < oldsz then
    return oldsz
  else
    let oldsz := PGROUNDUP oldsz
    uvmallocFrom pagetable oldsz newsz ((newsz - oldsz + (PGSIZE - 1)) / PGSIZE) oldsz

/-- The body of the loop of `freewalk`; `child` frees a table one level down. -/
def freewalkEntry (child : Nat → VmM Unit) (pagetable i : Nat) : VmM Unit := do
  let pte ← loadPte pagetable i
  if pte.V = true ∧ pte.RWX = false then
    child pte.pa
    storePte pagetable i 0
  else if pte.V then
    throw .freewalkLeaf

@[irreducible] def freewalkEntries (child : Nat → VmM Unit) (pagetable : Nat) : VmM Unit :=
  (List.range 512).forM (freewalkEntry child pagetable)

/-- `freewalk` of a table with `levels` levels. -/
def freewalk : Nat → Nat → VmM Unit
  | 0, _ => throw .freewalkBelow
  | levels + 1, pagetable => do
    freewalkEntries (freewalk levels) pagetable
    kfree pagetable

def uvmfree (pagetable sz : Nat) : VmM Unit := do
  if 0 < sz then
    uvmunmap pagetable 0 (PGROUNDUP sz / PGSIZE) true
  freewalk 3 pagetable

/-- The loop of `uvmcopy`, over the `n` pages from `i` on. -/
def uvmcopyFrom (old new : Nat) : Nat → Nat → VmM Int
  | 0, _ => return 0
  | n + 1, i => do
    match ← walk old i false with
    | none => throw .uvmcopyPte
    | some (p, j) =>
      let pte ← loadPte p j
      if pte.V = false then
        throw .uvmcopyPresent
      else
        match ← kalloc with
        | none =>
          uvmunmap new 0 (i / PGSIZE) true
          return -1
        | some mem =>
          let pg ← loadPage pte.pa
          storePage mem pg
          if (← mappages new i PGSIZE mem pte.flags) ≠ 0 then
            kfree mem
            uvmunmap new 0 (i / PGSIZE) true
            return -1
          else
            uvmcopyFrom old new n (i + PGSIZE)

def uvmcopy (old new sz : Nat) : VmM Int :=
  uvmcopyFrom old new ((sz + (PGSIZE - 1)) / PGSIZE) 0

def uvmclear (pagetable va : Nat) : VmM Unit := do
  match ← walk pagetable va false with
  | none => throw .uvmclear
  | some (p, i) =>
    let pte ← loadPte p i
    storePte p i pte.clearU

/-! ## Copying to and from user memory -/

/-- The loop of `copyout`: `done` bytes of `src` have been copied, and `len` are left. A round
copies a byte at least, so `len` is fuel enough. -/
def copyoutFrom (pagetable : Nat) (src : Nat → UInt8) : Nat → Nat → Nat → Nat → VmM Int
  | 0, _, _, _ => return 0
  | fuel + 1, dstva, done, len =>
    if 0 < len then do
      let va0 := PGROUNDDOWN dstva
      let pa0 ← walkaddr pagetable va0
      if pa0 = 0 then
        return -1
      else
        let n := min (PGSIZE - (dstva - va0)) len
        let pg ← loadPage pa0
        storePage pa0 (Bytes.blit pg (dstva - va0) n fun j => src (done + j))
        copyoutFrom pagetable src fuel ((va0 + PGSIZE) % 2 ^ 64) (done + n) (len - n)
    else
      return 0

def copyout (pagetable dstva : Nat) (src : Nat → UInt8) (len : Nat) : VmM Int :=
  copyoutFrom pagetable src len dstva 0 len

/-- The loop of `copyin`; `acc` is what has been stored at `dst`. -/
def copyinFrom (pagetable : Nat) : Nat → Nat → Nat → List UInt8 → VmM (Int × List UInt8)
  | 0, _, _, acc => return (0, acc)
  | fuel + 1, srcva, len, acc =>
    if 0 < len then do
      let va0 := PGROUNDDOWN srcva
      let pa0 ← walkaddr pagetable va0
      if pa0 = 0 then
        return (-1, acc)
      else
        let n := min (PGSIZE - (srcva - va0)) len
        let pg ← loadPage pa0
        copyinFrom pagetable fuel ((va0 + PGSIZE) % 2 ^ 64) (len - n)
          (acc ++ (List.range n).map fun j => pg (srcva - va0 + j))
    else
      return (0, acc)

/-- `copyin`: the value returned and the bytes stored at `dst`. -/
def copyin (pagetable srcva len : Nat) : VmM (Int × List UInt8) :=
  copyinFrom pagetable len srcva len []

/-- The inner loop of `copyinstr`: the bytes of `pg` from `p` on, `n` at most, up to a NUL. -/
def copyinstrPage (pg : Page) : Nat → Nat → Bool × List UInt8
  | 0, _ => (false, [])
  | n + 1, p =>
    if pg p = 0 then (true, [0])
    else
      let r := copyinstrPage pg n (p + 1)
      (r.1, pg p :: r.2)

/-- The loop of `copyinstr`; `acc` is what has been stored at `dst`. -/
def copyinstrFrom (pagetable : Nat) : Nat → Nat → Nat → List UInt8 → VmM (Int × List UInt8)
  | 0, _, _, acc => return (-1, acc)
  | fuel + 1, srcva, max, acc =>
    if 0 < max then do
      let va0 := PGROUNDDOWN srcva
      let pa0 ← walkaddr pagetable va0
      if pa0 = 0 then
        return (-1, acc)
      else
        let n := min (PGSIZE - (srcva - va0)) max
        let pg ← loadPage pa0
        let r := copyinstrPage pg n (srcva - va0)
        if r.1 then
          return (0, acc ++ r.2)
        else
          copyinstrFrom pagetable fuel ((va0 + PGSIZE) % 2 ^ 64) (max - n) (acc ++ r.2)
    else
      return (-1, acc)

/-- `copyinstr`: the value returned and the bytes stored at `dst`. -/
def copyinstr (pagetable srcva max : Nat) : VmM (Int × List UInt8) :=
  copyinstrFrom pagetable max srcva max []

end Xv6
