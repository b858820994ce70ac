import Xv6.Fs.Inode

/-!
# Directories and paths

The upper half of `kernel/fs.c`: directory entries, `dirlookup` and `dirlink`, and the walk along
a path. A string is the list of its bytes, the end of the list standing for the NUL.
-/

namespace Xv6

/-! ## Strings -/

def strncmp : Nat → List UInt8 → List UInt8 → Int
  | 0, _, _ => 0
  | n + 1, p, q =>
    if p.headD 0 ≠ 0 ∧ p.headD 0 = q.headD 0 then
      strncmp n p.tail q.tail
    else
      ((p.headD 0).toNat : Int) - (q.headD 0).toNat

/-- The `n` bytes that `strncpy(s, t, n)` stores at `s`. -/
def strncpy : Nat → List UInt8 → List UInt8
  | 0, _ => []
  | n + 1, t =>
    if t.headD 0 = 0 then
      List.replicate (n + 1) 0
    else
      t.headD 0 :: strncpy n t.tail

def slash : UInt8 := 47
def dot : UInt8 := 46

/-! ## Directory entries -/

structure Dirent where
  inum : UInt16
  name : List UInt8

def DESIZE : Nat := 2 + DIRSIZ

namespace Dirent

def ofBytes (bytes : List UInt8) : Dirent where
  inum := UInt16.ofNat ((bytes.getD 0 0).toNat + 256 * (bytes.getD 1 0).toNat)
  name := bytes.drop 2

def bytes (de : Dirent) : List UInt8 :=
  UInt8.ofNat de.inum.toNat :: UInt8.ofNat (de.inum.toNat / 256) :: de.name

def zero : Dirent where
  inum := 0
  name := List.replicate DIRSIZ 0

end Dirent

def namecmp (s t : List UInt8) : Int := strncmp DIRSIZ s t

section Dirs

variable (sb : Superblock)

/-- `readi(dp, 0, (uint64)&de, off, sizeof(de))`, with the panic of the caller. -/
def readDirent (dp : Fin NINODE) (off : Nat) (e : FsPanic) : FsM Dirent := do
  let r ← readi sb dp (fun _ => true) (UInt32.ofNat off) (UInt32.ofNat DESIZE)
  if r.1 = DESIZE then
    return Dirent.ofBytes r.2
  else
    throw e

/-- `writei(dp, 0, (uint64)&de, off, sizeof(de))`, with the panic of the caller. -/
def writeDirent (dp : Fin NINODE) (off : Nat) (de : Dirent) (e : FsPanic) : FsM Unit := do
  let r ← writei sb dp (fun j => de.bytes[j]?) (UInt32.ofNat off) (UInt32.ofNat DESIZE)
  if r = DESIZE then
    return ()
  else
    throw e

/-- The values of `off` in `for(off = from; off < size; off += sizeof(de))`. -/
def direntOffs (start size : Nat) : List Nat :=
  (List.range ((size - start + DESIZE - 1) / DESIZE)).map fun i => start + i * DESIZE

/-- The loop of `dirlookup`: the inode number and the offset of the entry. -/
def dirlookupFrom (dp : Fin NINODE) (name : List UInt8) : List Nat → FsM (Option (Nat × Nat))
  | [] => return none
  | off :: rest => do
    let de ← readDirent sb dp off .dirlookupRead
    if de.inum = 0 then
      dirlookupFrom dp name rest
    else if namecmp name de.name = 0 then
      return some (de.inum.toNat, off)
    else
      dirlookupFrom dp name rest

/-- `dirlookup`, with `*poff`. -/
def dirlookup (dp : Fin NINODE) (name : List UInt8) : FsM (Option (Fin NINODE × Nat)) := do
  let d ← getInode dp
  if d.din.type = T_DIR then
    match ← dirlookupFrom sb dp name (direntOffs 0 d.din.size.toNat) with
    | some (inum, off) =>
      let ip ← iget d.dev inum
      return some (ip, off)
    | none => return none
  else
    throw .notDir

/-- The loop of `dirlink` that looks for an empty entry; `off` when there is none. -/
def emptyFrom (dp : Fin NINODE) (last : Nat) : List Nat → FsM Nat
  | [] => return last
  | off :: rest => do
    let de ← readDirent sb dp off .dirlinkRead
    if de.inum = 0 then
      return off
    else
      emptyFrom dp last rest

def dirlink (dp : Fin NINODE) (name : List UInt8) (inum : Nat) : FsM Int := do
  match ← dirlookup sb dp name with
  | some (ip, _) =>
    iput sb ip
    return -1
  | none =>
    let d ← getInode dp
    let offs := direntOffs 0 d.din.size.toNat
    let off ← emptyFrom sb dp (offs.length * DESIZE) offs
    writeDirent sb dp off ⟨UInt16.ofNat inum, strncpy DIRSIZ name⟩ .dirlink
    return 0

/-! ## Paths -/

/-- `skipelem`: the next element of the path, and the path after it. -/
def skipelem (path : List UInt8) : Option (List UInt8 × List UInt8) :=
  let path := path.dropWhile (· = slash)
  if path.headD 0 = 0 then
    none
  else
    let elem := path.takeWhile fun c => c ≠ slash ∧ c ≠ 0
    some (elem.take DIRSIZ, (path.drop elem.length).dropWhile (· = slash))

/-- The loop of `namex`, with the last element for `nameiparent`. Every round shortens the path, so
its length is fuel enough. -/
def namexFrom (nameiparent : Bool) :
    Nat → Fin NINODE → List UInt8 → FsM (Option (Fin NINODE × List UInt8))
  | fuel, ip, path =>
    match fuel, skipelem path with
    | fuel + 1, some (name, path) => do
      ilock sb ip
      let d ← getInode ip
      if d.din.type ≠ T_DIR then
        iunlockput sb ip
        return none
      else if nameiparent = true ∧ path.headD 0 = 0 then
        -- stop one level early
        iunlock ip
        return some (ip, name)
      else
        match ← dirlookup sb ip name with
        | none =>
          iunlockput sb ip
          return none
        | some (next, _) =>
          iunlockput sb ip
          namexFrom nameiparent fuel next path
    | _, _ =>
      if nameiparent then do
        iput sb ip
        return none
      else
        return some (ip, [])

/-- `cwd` is the entry of `myproc()->cwd`. -/
def namex (cwd : Fin NINODE) (path : List UInt8) (nameiparent : Bool) :
    FsM (Option (Fin NINODE × List UInt8)) := do
  let ip ← if path.headD 0 = slash then iget ROOTDEV ROOTINO else idup cwd
  namexFrom sb nameiparent path.length ip path

def namei (cwd : Fin NINODE) (path : List UInt8) : FsM (Option (Fin NINODE)) := do
  let r ← namex sb cwd path false
  return r.map Prod.fst

def nameiparent (cwd : Fin NINODE) (path : List UInt8) : FsM (Option (Fin NINODE × List UInt8)) :=
  namex sb cwd path true

end Dirs

end Xv6
