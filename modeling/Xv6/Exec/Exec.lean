import Xv6.Fs.Dir
import Xv6.Vm.Sbrk

/-!
# Replacing the user image

`kernel/exec.c`, and `sys_exec` with the functions it fetches its arguments with.

The inode of `myproc()->cwd` and the page of the trampoline do not change and are parameters.
`argv` is the list of the pages of its strings, the end of the list standing for the null pointer.
-/

namespace Xv6

open Prog

def MAXARG : Nat := 32

/-! ## File headers -/

def ELF_MAGIC : Nat := 0x464C457F

def ELF_PROG_LOAD : Nat := 1

/-- The fields of `struct elfhdr` that `exec` reads. -/
structure Elfhdr where
  magic : Nat
  entry : Nat
  phoff : Nat
  phnum : Nat

def EHSIZE : Nat := 64

def Elfhdr.ofBytes (bytes : List UInt8) : Elfhdr where
  magic := Bytes.getLE (bytes.getD · 0) 0 4
  entry := Bytes.getLE (bytes.getD · 0) 24 8
  phoff := Bytes.getLE (bytes.getD · 0) 32 8
  phnum := Bytes.getLE (bytes.getD · 0) 56 2

/-- The fields of `struct proghdr` that `exec` reads. -/
structure Proghdr where
  type : Nat
  off : Nat
  vaddr : Nat
  filesz : Nat
  memsz : Nat

def PHSIZE : Nat := 56

def Proghdr.ofBytes (bytes : List UInt8) : Proghdr where
  type := Bytes.getLE (bytes.getD · 0) 0 4
  off := Bytes.getLE (bytes.getD · 0) 8 8
  vaddr := Bytes.getLE (bytes.getD · 0) 16 8
  filesz := Bytes.getLE (bytes.getD · 0) 32 8
  memsz := Bytes.getLE (bytes.getD · 0) 40 8

/-! ## The state -/

/-- What `exec` works on: physical memory, the file system, the number of system calls between
`begin_op` and `end_op`, and the process. -/
structure ExecSys where
  vm : Vm
  fs : Fs
  -- `log.outstanding`.
  ops : Nat
  proc : UserProc

inductive ExecPanic where
  | vm (e : VmPanic)
  | fs (e : FsPanic)
  -- `"loadseg: address should exist"`
  | loadseg
  -- The loop of `loadseg` wraps around and does not end.
  | loadsegLoop
  -- `strlen` runs past the page of its argument.
  | strlen
  -- A store beyond `ustack[MAXARG - 1]`.
  | ustack
  deriving DecidableEq, Repr

abbrev ExecM (α : Type) : Type := Act ExecSys ExecPanic α

namespace ExecM

def vm {α : Type} (c : VmM α) : ExecM α :=
  within ExecSys.vm (fun v s => { s with vm := v }) ExecPanic.vm c

def fs {α : Type} (c : FsM α) : ExecM α :=
  within ExecSys.fs (fun v s => { s with fs := v }) ExecPanic.fs c

def beginOp : ExecM Unit := modify fun s => { s with ops := s.ops + 1 }

def endOp : ExecM Unit := modify fun s => { s with ops := s.ops - 1 }

def myproc : ExecM UserProc := do
  let s ← get
  return s.proc

def setProc (p : UserProc) : ExecM Unit := modify fun s => { s with proc := p }

end ExecM

open ExecM

section Exec

variable (sb : Superblock)

/-! ## Loading -/

/-- The loop of `loadseg`: `n` rounds are left of the `npages sz` that it takes to come to `sz`. -/
def loadsegFrom (pagetable va : Nat) (ip : Fin NINODE) (offset : UInt32) (sz : Nat) :
    Nat → Nat → ExecM Int
  | 0, i => if i < sz then throw .loadsegLoop else return 0
  | rounds + 1, i => do
    let pa ← vm (walkaddr pagetable ((va + i) % 2 ^ 64))
    if pa = 0 then
      throw .loadseg
    else
      let n := if sz - i < PGSIZE then sz - i else PGSIZE
      let r ← fs (readi sb ip (fun _ => true) (offset + UInt32.ofNat i) (UInt32.ofNat n))
      let pg ← vm (loadPage pa)
      vm (storePage pa (Bytes.blit pg 0 r.2.length (r.2.getD · 0)))
      if r.1 ≠ n then
        return -1
      else
        loadsegFrom pagetable va ip offset sz rounds ((i + PGSIZE) % 2 ^ 32)

def loadseg (pagetable va : Nat) (ip : Fin NINODE) (offset sz : UInt32) : ExecM Int :=
  loadsegFrom sb pagetable va ip offset sz.toNat (npages sz.toNat) 0

/-- The body of the loop over the program headers, from the header on: whether to go on, and `sz`. -/
def loadProghdr (pagetable : Nat) (ip : Fin NINODE) (ph : Proghdr) (sz : Nat) : ExecM (Bool × Nat) := do
  if ph.type ≠ ELF_PROG_LOAD then
    return (true, sz)
  else if ph.memsz < ph.filesz then
    return (false, sz)
  else if (ph.vaddr + ph.memsz) % 2 ^ 64 < ph.vaddr then
    return (false, sz)
  else
    let sz1 ← vm (uvmalloc pagetable sz ((ph.vaddr + ph.memsz) % 2 ^ 64))
    if sz1 = 0 then
      return (false, sz)
    else if ph.vaddr % PGSIZE ≠ 0 then
      return (false, sz1)
    else if (← loadseg sb pagetable ph.vaddr ip (UInt32.ofNat ph.off) (UInt32.ofNat ph.filesz)) < 0 then
      return (false, sz1)
    else
      return (true, sz1)

/-- The loop over the program headers, with `n` of them left: whether all were loaded, and `sz`. -/
def loadSegments (pagetable : Nat) (ip : Fin NINODE) : Nat → UInt32 → Nat → ExecM (Bool × Nat)
  | 0, _, sz => return (true, sz)
  | n + 1, off, sz => do
    let r ← fs (readi sb ip (fun _ => true) off (UInt32.ofNat PHSIZE))
    if r.1 ≠ PHSIZE then
      return (false, sz)
    else
      match ← loadProghdr sb pagetable ip (Proghdr.ofBytes r.2) sz with
      | (false, sz) => return (false, sz)
      | (true, sz) => loadSegments pagetable ip n (off + UInt32.ofNat PHSIZE) sz

/-! ## The stack -/

/-- `strlen` of a string at the start of a page, from offset `i` on. -/
def strlenFrom (pg : Page) : Nat → Nat → Option Nat
  | 0, _ => none
  | n + 1, i => if pg i = 0 then some i else strlenFrom pg n (i + 1)

def strlen (p : Nat) : ExecM Nat := do
  let pg ← vm (loadPage p)
  match strlenFrom pg PGSIZE 0 with
  | some n => return n
  | none => throw .strlen

/-- `sp -= n; sp -= sp % 16;` -/
def pushSp (sp n : Nat) : Nat :=
  let sp := (sp + 2 ^ 64 - n) % 2 ^ 64
  sp - sp % 16

/-- The loop over the arguments; `ustack` is what has been stored, so its length is `argc`. -/
def pushArgs (pagetable stackbase : Nat) : List Nat → Nat → List Nat → ExecM (Option (Nat × List Nat))
  | [], sp, ustack => return some (sp, ustack)
  | arg :: argv, sp, ustack => do
    if MAXARG ≤ ustack.length then
      return none
    else
      let len ← strlen arg
      let sp := pushSp sp (len + 1)
      if sp < stackbase then
        return none
      else
        let src ← vm (loadPage arg)
        if (← vm (copyout pagetable sp src (len + 1))) < 0 then
          return none
        else
          pushArgs pagetable stackbase argv sp (ustack ++ [sp])

def wordBytes (words : List Nat) (j : Nat) : UInt8 := UInt8.ofNat (words.getD (j / 8) 0 / 256 ^ (j % 8))

/-- From the loop over the arguments on: `argc`, `sp`. -/
def pushArgv (pagetable stackbase sp : Nat) (argv : List Nat) : ExecM (Option (Nat × Nat)) := do
  match ← pushArgs pagetable stackbase argv sp [] with
  | none => return none
  | some (sp, ustack) =>
    let argc := ustack.length
    if MAXARG ≤ argc then
      throw .ustack
    else
      -- push the array of argv[] pointers
      let sp := pushSp sp ((argc + 1) * 8)
      if sp < stackbase then
        return none
      else if (← vm (copyout pagetable sp (wordBytes (ustack ++ [0])) ((argc + 1) * 8))) < 0 then
        return none
      else
        return some (argc, sp)

/-! ## The system call -/

def execBad (pagetable : Option Nat) (sz : Nat) (ip : Option (Fin NINODE)) : ExecM Int := do
  if let some pagetable := pagetable then
    vm (procFreepagetable pagetable sz)
  if let some ip := ip then
    fs (iunlockput sb ip)
    endOp
  return -1

/-- `for(last=s=path; *s; s++) if(*s == '/') last = s+1;` -/
def lastElem : List UInt8 → List UInt8 → List UInt8
  | last, [] => last
  | last, c :: s => if c = slash then lastElem s s else lastElem last s

def NAMESIZE : Nat := 16

/-- `safestrcpy(s, t, n)`: the string at `s`. -/
def safestrcpy (t : List UInt8) (n : Nat) : List UInt8 := (t.take (n - 1)).takeWhile (· ≠ 0)

/-- `exec` once the segments are loaded. -/
def execImage (pagetable sz entry : Nat) (path : List UInt8) (argv : List Nat) : ExecM Int := do
  let p ← myproc
  let oldsz := p.sz
  -- two pages at the next page boundary, the second as the user stack
  let sz := PGROUNDUP sz
  let sz1 ← vm (uvmalloc pagetable sz ((sz + 2 * PGSIZE) % 2 ^ 64))
  if sz1 = 0 then
    execBad sb (some pagetable) sz none
  else
    let sz := sz1
    vm (uvmclear pagetable (sz - 2 * PGSIZE))
    match ← pushArgv pagetable (sz - PGSIZE) sz argv with
    | none => execBad sb (some pagetable) sz none
    | some (argc, sp) =>
      let oldpagetable := p.pagetable
      setProc { p with
        pagetable := pagetable
        sz := sz
        name := safestrcpy (lastElem path path) NAMESIZE
        trapframe := { p.trapframe with a1 := sp, epc := entry, sp := sp } }
      vm (procFreepagetable oldpagetable oldsz)
      return argc

def execFile (trampoline : Nat) (ip : Fin NINODE) (path : List UInt8) (argv : List Nat) :
    ExecM Int := do
  let r ← fs (readi sb ip (fun _ => true) 0 (UInt32.ofNat EHSIZE))
  let elf := Elfhdr.ofBytes r.2
  if r.1 ≠ EHSIZE then
    execBad sb none 0 (some ip)
  else if elf.magic ≠ ELF_MAGIC then
    execBad sb none 0 (some ip)
  else
    match ← vm (procPagetable trampoline (← myproc).tfPage) with
    | none => execBad sb none 0 (some ip)
    | some pagetable =>
      match ← loadSegments sb pagetable ip elf.phnum (UInt32.ofNat elf.phoff) 0 with
      | (false, sz) => execBad sb (some pagetable) sz (some ip)
      | (true, sz) =>
        fs (iunlockput sb ip)
        endOp
        execImage sb pagetable sz elf.entry path argv

/-- `namei(path)`, and `ilock(ip)` of what it finds. -/
def nameiLock (cwd : Fin NINODE) (path : List UInt8) : FsM (Option (Fin NINODE)) := do
  match ← namei sb cwd path with
  | none => return none
  | some ip =>
    ilock sb ip
    return some ip

def exec (trampoline : Nat) (cwd : Fin NINODE) (path : List UInt8) (argv : List Nat) : ExecM Int := do
  beginOp
  match ← fs (nameiLock sb cwd path) with
  | none =>
    endOp
    return -1
  | some ip => execFile sb trampoline ip path argv

/-! ## The arguments of the system call -/

/-- `fetchaddr`: the value returned, and `*ip`. -/
def fetchaddr (addr : Nat) : ExecM (Int × Nat) := do
  let p ← myproc
  if addr ≥ p.sz ∨ (addr + 8) % 2 ^ 64 > p.sz then
    return (-1, 0)
  else
    let r ← vm (copyin p.pagetable addr 8)
    if r.1 ≠ 0 then
      return (-1, 0)
    else
      return (0, Bytes.getLE (r.2.getD · 0) 0 8)

/-- `fetchstr`, or its `copyinstr`: the value returned is negative or not, and `buf`. -/
def fetchstr (addr max : Nat) : ExecM (Int × List UInt8) := do
  let p ← myproc
  vm (copyinstr p.pagetable addr max)

/-- The loop of `sys_exec` that fetches the strings, `n` entries of `argv` being left: whether it
came to the null pointer, and `argv`. -/
def fetchArgs (uargv : Nat) : Nat → List Nat → ExecM (Bool × List Nat)
  | 0, argv => return (false, argv)
  | n + 1, argv => do
    let (r, uarg) ← fetchaddr ((uargv + 8 * argv.length) % 2 ^ 64)
    if r < 0 then
      return (false, argv)
    else if uarg = 0 then
      return (true, argv)
    else
      match ← vm kalloc with
      | none => return (false, argv)
      | some arg =>
        let (r, str) ← fetchstr uarg PGSIZE
        let pg ← vm (loadPage arg)
        vm (storePage arg (Bytes.blit pg 0 str.length (str.getD · 0)))
        if r < 0 then
          return (false, argv ++ [arg])
        else
          fetchArgs uargv n (argv ++ [arg])

/-- `for(i = 0; i < NELEM(argv) && argv[i] != 0; i++) kfree(argv[i]);` -/
def freeArgs : List Nat → ExecM Unit
  | [] => return ()
  | arg :: argv => do
    vm (kfree arg)
    freeArgs argv

/-- `sys_exec`; `upath` and `uargv` are the arguments of the system call. -/
def sysExec (trampoline : Nat) (cwd : Fin NINODE) (upath uargv : Nat) : ExecM Int := do
  let (r, path) ← fetchstr upath MAXPATH
  if r < 0 then
    return -1
  else
    match ← fetchArgs uargv MAXARG [] with
    | (true, argv) =>
      let ret ← exec sb trampoline cwd (path.takeWhile (· ≠ 0)) argv
      freeArgs argv
      return ret
    | (false, argv) =>
      freeArgs argv
      return -1

end Exec

end Xv6
