import Xv6.File.Filewrite

/-!
# System calls on files and directories

`kernel/sysfile.c` from `sys_link` to `sys_chdir`, with `create` and the functions of `kernel/file.c`
that drop references to inodes. A call runs by itself from start to end.

* **Inside a transaction** — what a call does between `begin_op` and `end_op`, as a program over the
  file system. Every way out of these calls ends the transaction, so it is ended in one place.
* **System calls** — `FileSys` adds the log, the file table, and the descriptors and the current
  directory of the caller. A path argument is what `argstr` fetched, or nothing when it failed.
-/

namespace Xv6

open Prog

def O_RDONLY : UInt32 := 0x000
def O_WRONLY : UInt32 := 0x001
def O_RDWR : UInt32 := 0x002
def O_CREATE : UInt32 := 0x200
def O_TRUNC : UInt32 := 0x400

/-! ## Inside a transaction -/

section Transaction

variable (sb : Superblock)

def addNlink (k : Fin NINODE) (n : Int16) : FsM Unit := do
  modifyInode k fun ip => { ip with din := { ip.din with nlink := ip.din.nlink + n } }
  iupdate sb k

def linkBad (ip : Fin NINODE) : FsM Int := do
  ilock sb ip
  addNlink sb ip (-1)
  iunlockput sb ip
  return -1

/-- `dp->dev != ip->dev || dirlink(dp, name, ip->inum) < 0` -/
def linkFails (dp ip : Fin NINODE) (name : List UInt8) : FsM Bool := do
  let d ← getInode dp
  let i ← getInode ip
  if d.dev ≠ i.dev then
    return true
  else
    return decide ((← dirlink sb dp name i.inum) < 0)

def linkNew (cwd ip : Fin NINODE) (path : List UInt8) : FsM Int := do
  match ← nameiparent sb cwd path with
  | none => linkBad sb ip
  | some (dp, name) =>
    ilock sb dp
    if ← linkFails sb dp ip name then
      iunlockput sb dp
      linkBad sb ip
    else
      iunlockput sb dp
      iput sb ip
      return 0

def link (cwd : Fin NINODE) (old new : List UInt8) : FsM Int := do
  match ← namei sb cwd old with
  | none => return -1
  | some ip =>
    ilock sb ip
    let i ← getInode ip
    if i.din.type = T_DIR then
      iunlockput sb ip
      return -1
    else
      addNlink sb ip 1
      iunlock ip
      linkNew sb cwd ip new

def isdiremptyFrom (dp : Fin NINODE) : List Nat → FsM Bool
  | [] => return true
  | off :: rest => do
    let de ← readDirent sb dp off .isdiremptyRead
    if de.inum ≠ 0 then
      return false
    else
      isdiremptyFrom dp rest

/-- Is the directory `dp` empty except for `"."` and `".."`? -/
def isdirempty (dp : Fin NINODE) : FsM Bool := do
  let d ← getInode dp
  isdiremptyFrom sb dp (direntOffs (2 * DESIZE) d.din.size.toNat)

def fullDir (ip : Fin NINODE) : FsM Bool := do
  let i ← getInode ip
  if i.din.type = T_DIR then
    return !(← isdirempty sb ip)
  else
    return false

/-- `sys_unlink` once nothing can fail: the entry at `off` is cleared, and the link given up. -/
def unlinkEntry (dp ip : Fin NINODE) (off : Nat) : FsM Unit := do
  writeDirent sb dp off Dirent.zero .unlinkWritei
  let i ← getInode ip
  if i.din.type = T_DIR then
    addNlink sb dp (-1)
  iunlockput sb dp
  addNlink sb ip (-1)
  iunlockput sb ip

def unlink (cwd : Fin NINODE) (path : List UInt8) : FsM Int := do
  match ← nameiparent sb cwd path with
  | none => return -1
  | some (dp, name) =>
    ilock sb dp
    -- cannot unlink "." or ".."
    if namecmp name [dot] = 0 ∨ namecmp name [dot, dot] = 0 then
      iunlockput sb dp
      return -1
    else
      match ← dirlookup sb dp name with
      | none =>
        iunlockput sb dp
        return -1
      | some (ip, off) =>
        ilock sb ip
        let i ← getInode ip
        if i.din.nlink < 1 then
          throw .unlinkNlink
        else if ← fullDir sb ip then
          iunlockput sb ip
          iunlockput sb dp
          return -1
        else
          unlinkEntry sb dp ip off
          return 0

/-- The part of `create` for directories: the entries `"."` and `".."`. -/
def createDots (dp ip : Fin NINODE) : FsM Unit := do
  addNlink sb dp 1
  let i ← getInode ip
  if (← dirlink sb ip [dot] i.inum) < 0 then
    throw .createDots
  else
    let d ← getInode dp
    if (← dirlink sb ip [dot, dot] d.inum) < 0 then
      throw .createDots

/-- `ip->major = major; ip->minor = minor; ip->nlink = 1; iupdate(ip);` -/
def initInode (k : Fin NINODE) (major minor : Int16) : FsM Unit := do
  modifyInode k fun ip => { ip with din := { ip.din with major := major, minor := minor, nlink := 1 } }
  iupdate sb k

/-- `create` of a name that is not in the directory. -/
def createNew (dp : Fin NINODE) (name : List UInt8) (type major minor : Int16) : FsM (Fin NINODE) := do
  let d ← getInode dp
  let ip ← ialloc sb d.dev type
  ilock sb ip
  initInode sb ip major minor
  if type = T_DIR then
    createDots sb dp ip
  let i ← getInode ip
  if (← dirlink sb dp name i.inum) < 0 then
    throw .createDirlink
  else
    iunlockput sb dp
    return ip

/-- `create` returns the inode locked. -/
def create (cwd : Fin NINODE) (path : List UInt8) (type major minor : Int16) :
    FsM (Option (Fin NINODE)) := do
  match ← nameiparent sb cwd path with
  | none => return none
  | some (dp, name) =>
    ilock sb dp
    match ← dirlookup sb dp name with
    | some (ip, _) =>
      iunlockput sb dp
      ilock sb ip
      let i ← getInode ip
      if type = T_FILE ∧ (i.din.type = T_FILE ∨ i.din.type = T_DEVICE) then
        return some ip
      else
        iunlockput sb ip
        return none
    | none => return some (← createNew sb dp name type major minor)

/-- `sys_mkdir` and `sys_mknod`. -/
def make (cwd : Fin NINODE) (path : Option (List UInt8)) (type major minor : Int16) : FsM Int := do
  match path with
  | none => return -1
  | some path =>
    match ← create sb cwd path type major minor with
    | none => return -1
    | some ip =>
      iunlockput sb ip
      return 0

/-- `sys_chdir`: the new current directory. -/
def chdir (cwd : Fin NINODE) (path : Option (List UInt8)) : FsM (Option (Fin NINODE)) := do
  match path with
  | none => return none
  | some path =>
    match ← namei sb cwd path with
    | none => return none
    | some ip =>
      ilock sb ip
      let i ← getInode ip
      if i.din.type ≠ T_DIR then
        iunlockput sb ip
        return none
      else
        iunlock ip
        iput sb cwd
        return some ip

/-- The part of `sys_open` without `O_CREATE`. -/
def openOld (cwd : Fin NINODE) (path : List UInt8) (omode : UInt32) : FsM (Option (Fin NINODE)) := do
  match ← namei sb cwd path with
  | none => return none
  | some ip =>
    ilock sb ip
    let i ← getInode ip
    if i.din.type = T_DIR ∧ omode ≠ O_RDONLY then
      iunlockput sb ip
      return none
    else
      return some ip

/-- `if(omode & O_CREATE){ .. } else { .. }` of `sys_open`. -/
def openFound (cwd : Fin NINODE) (path : List UInt8) (omode : UInt32) : FsM (Option (Fin NINODE)) :=
  if omode &&& O_CREATE ≠ 0 then create sb cwd path T_FILE 0 0 else openOld sb cwd path omode

/-- `sys_open` up to `filealloc`: the inode, locked. -/
def openInode (cwd : Fin NINODE) (path : List UInt8) (omode : UInt32) :
    FsM (Option (Fin NINODE)) := do
  match ← openFound sb cwd path omode with
  | none => return none
  | some ip =>
    let i ← getInode ip
    if i.din.type = T_DEVICE ∧ (i.din.major < 0 ∨ NDEV ≤ i.din.major) then
      iunlockput sb ip
      return none
    else
      return some ip

def openEnd (ip : Fin NINODE) (omode : UInt32) : FsM Unit := do
  let i ← getInode ip
  if omode &&& O_TRUNC ≠ 0 ∧ i.din.type = T_FILE then
    itrunc sb ip
  iunlock ip

end Transaction

/-! ## System calls -/

inductive FileType where
  | none
  | pipe
  | inode
  | device
  deriving DecidableEq

structure File where
  type : FileType
  ref : Nat
  readable : Bool
  writable : Bool
  ip : Fin NINODE
  off : UInt32
  major : Int16

structure FileSys where
  fs : Fs
  -- `log.outstanding`
  outstanding : Nat
  ftable : Fin NFILE → File
  -- `myproc()->ofile`
  ofile : Fin NOFILE → Option (Fin NFILE)
  -- `myproc()->cwd`
  cwd : Fin NINODE
  -- The blocks of the transactions that have ended, a ghost.
  sections : List (List Nat)

inductive SysPanic where
  | fs (e : FsPanic)
  -- `"fileclose"`
  | fileclose
  deriving DecidableEq

abbrev SysM (α : Type) : Type := Act FileSys SysPanic α

/-- What `argstr` can fetch. -/
structure PathStr where
  bytes : List UInt8
  noNul : (0 : UInt8) ∉ bytes
  short : bytes.length < MAXPATH

namespace SysM

def fs {α : Type} (c : FsM α) : SysM α :=
  within FileSys.fs (fun v s => { s with fs := v }) SysPanic.fs c

def beginOp : SysM Unit := modify fun s => { s with outstanding := s.outstanding + 1 }

/-- `end_op`: the last operation commits, which empties the log. -/
def endOp : SysM Unit := modify fun s =>
  if s.outstanding - 1 = 0 then
    { s with
      outstanding := s.outstanding - 1
      fs := { s.fs with lh := [] }
      sections := s.sections ++ [s.fs.lh] }
  else
    { s with outstanding := s.outstanding - 1 }

def transaction {α : Type} (c : FsM α) : SysM α := do
  beginOp
  let r ← fs c
  endOp
  return r

def getCwd : SysM (Fin NINODE) := do
  let s ← get
  return s.cwd

def getFile (f : Fin NFILE) : SysM File := do
  let s ← get
  return s.ftable f

def setFile (f : Fin NFILE) (x : File) : SysM Unit :=
  modify fun s => { s with ftable := Function.update s.ftable f x }

def setOfile (fd : Fin NOFILE) (f : Option (Fin NFILE)) : SysM Unit :=
  modify fun s => { s with ofile := Function.update s.ofile fd f }

end SysM

open SysM

/-! ### Files and descriptors -/

def filealloc : SysM (Option (Fin NFILE)) := do
  let s ← get
  match (List.finRange NFILE).find? fun f => (s.ftable f).ref = 0 with
  | some f =>
    setFile f { s.ftable f with ref := 1 }
    return some f
  | none => return none

def fdalloc (f : Fin NFILE) : SysM (Option (Fin NOFILE)) := do
  let s ← get
  match (List.finRange NOFILE).find? fun fd => s.ofile fd = none with
  | some fd =>
    setOfile fd (some f)
    return some fd
  | none => return none

section Calls

variable (sb : Superblock)

/-- `fileclose`. Closing a pipe leaves the file system alone. -/
def fileclose (f : Fin NFILE) : SysM Unit := do
  let ff ← getFile f
  if ff.ref < 1 then
    throw .fileclose
  else if 0 < ff.ref - 1 then
    setFile f { ff with ref := ff.ref - 1 }
  else
    setFile f { ff with ref := 0, type := .none }
    if ff.type = .inode ∨ ff.type = .device then
      transaction (iput sb ff.ip)

/-- `(f = filealloc()) == 0 || (fd = fdalloc(f)) < 0`, with `fileclose(f)` when it fails. -/
def allocFile : SysM (Option (Fin NFILE × Fin NOFILE)) := do
  match ← filealloc with
  | none => return none
  | some f =>
    match ← fdalloc f with
    | none =>
      fileclose sb f
      return none
    | some fd => return some (f, fd)

def File.opened (f : File) (ip : Fin NINODE) (din : Dinode) (omode : UInt32) : File :=
  let f := if din.type = T_DEVICE then { f with type := .device, major := din.major }
    else { f with type := .inode, off := 0 }
  { f with
    ip := ip
    readable := omode &&& O_WRONLY = 0
    writable := omode &&& O_WRONLY ≠ 0 ∨ omode &&& O_RDWR ≠ 0 }

def openPath (path : List UInt8) (omode : UInt32) : SysM Int := do
  beginOp
  match ← fs (openInode sb (← getCwd) path omode) with
  | none =>
    endOp
    return -1
  | some ip =>
    match ← allocFile sb with
    | none =>
      fs (iunlockput sb ip)
      endOp
      return -1
    | some (f, fd) =>
      let i ← fs (getInode ip)
      setFile f ((← getFile f).opened ip i.din omode)
      fs (openEnd sb ip omode)
      endOp
      return fd

def sysOpen (path : Option PathStr) (omode : UInt32) : SysM Int :=
  match path with
  | none => return -1
  | some path => openPath sb path.bytes omode

def sysLink (old new : Option PathStr) : SysM Int :=
  match old, new with
  | some old, some new => do
    let cwd ← getCwd
    transaction (link sb cwd old.bytes new.bytes)
  | _, _ => return -1

def sysUnlink (path : Option PathStr) : SysM Int :=
  match path with
  | none => return -1
  | some path => do
    let cwd ← getCwd
    transaction (unlink sb cwd path.bytes)

def sysMkdir (path : Option PathStr) : SysM Int := do
  let cwd ← getCwd
  transaction (make sb cwd (path.map PathStr.bytes) T_DIR 0 0)

/-- `major` and `minor` are cut to `short`s in the call of `create`. -/
def sysMknod (path : Option PathStr) (major minor : Int32) : SysM Int := do
  let cwd ← getCwd
  transaction (make sb cwd (path.map PathStr.bytes) T_DEVICE major.toInt16 minor.toInt16)

def sysChdir (path : Option PathStr) : SysM Int := do
  let cwd ← getCwd
  match ← transaction (chdir sb cwd (path.map PathStr.bytes)) with
  | none => return -1
  | some ip =>
    modify fun s => { s with cwd := ip }
    return 0

end Calls

end Xv6
