import Xv6.Fs.Mkfs

/-!
# `mkfs`

The program that writes the disk image (`mkfs/mkfs.c`). The image is a host file: a sector can be
read once it, or one behind it, has been written. Calls of the host succeed, except that opening
an input file may fail; `read` returns the content of an input file in pieces of any size. The
host is little-endian, so `xshort` and `xint` do nothing.

`mkfs` ends with status 0, or with a `Quit`.
-/

namespace Xv6

open Prog

namespace Mkfs

def magic : Nat := 0x10203040

/-- How `mkfs` ends with another status than 0. -/
inductive Quit where
  -- `die(argv[i])`
  | noFile
  -- `die("read")`
  | read
  -- `assert(index(shortname, '/') == 0)`
  | slash
  -- `assert(rootino == ROOTINO)`
  | rootino
  -- `assert(fbn < MAXFILE)`
  | maxfile
  -- `assert(used < BSIZE*8)`
  | used
  deriving DecidableEq, Repr

structure Image where
  data : Nat → Block
  -- The length of the file, in blocks.
  len : Nat
  freeinode : Nat
  freeblock : Nat

def blank : Image where
  data _ := Block.zero
  len := 0
  freeinode := 1
  freeblock := nmeta

abbrev MkM (α : Type) : Type := Act Image Quit α

def wsect (sec : Nat) (buf : Block) : MkM Unit :=
  modify fun s => { s with data := Function.update s.data sec buf, len := max s.len (sec + 1) }

def rsect (sec : Nat) : MkM Block := do
  let s ← get
  if sec < s.len then
    return s.data sec
  else
    throw .read

def winode (inum : Nat) (ip : Dinode) : MkM Unit := do
  let buf ← rsect (sb.IBLOCK inum)
  wsect (sb.IBLOCK inum) (buf.setDinode (inum % IPB) ip)

def rinode (inum : Nat) : MkM Dinode := do
  let buf ← rsect (sb.IBLOCK inum)
  return buf.dinode (inum % IPB)

def ialloc (type : Int16) : MkM Nat := do
  let s ← get
  set { s with freeinode := s.freeinode + 1 }
  winode s.freeinode { Dinode.zero with type := type, nlink := 1 }
  return s.freeinode

/-- `balloc(used)` writes the bitmap. -/
def balloc (used : Nat) : MkM Unit :=
  if used < BSIZE * 8 then
    wsect sb.bmapstart (bitmap used)
  else
    throw .used

def nextBlock : MkM Nat := do
  let s ← get
  set { s with freeblock := s.freeblock + 1 }
  return s.freeblock

/-- `if(xint(din.addrs[j]) == 0) din.addrs[j] = xint(freeblock++)` -/
def appendAddr (din : Dinode) (j : Fin (NDIRECT + 1)) : MkM Dinode := do
  if din.addrs j = 0 then
    let b ← nextBlock
    return din.setAddr j b
  else
    return din

/-- The same for entry `m` of the indirect block, with the address of the block. -/
def appendEntry (addr m : Nat) : MkM Nat := do
  let indirect ← rsect addr
  if indirect.word m = 0 then
    let b ← nextBlock
    wsect addr (indirect.setWord m b)
    return (indirect.setWord m b).word m
  else
    return indirect.word m

/-- The inode with block `fbn` in place, and the address `x` of that block. -/
def appendBlock (din : Dinode) (fbn : Nat) : MkM (Dinode × Nat) := do
  if h : fbn < NDIRECT then
    let din ← appendAddr din ⟨fbn, Nat.lt_succ_of_lt h⟩
    return (din, (din.addrs ⟨fbn, Nat.lt_succ_of_lt h⟩).toNat)
  else
    let din ← appendAddr din (Fin.last NDIRECT)
    let x ← appendEntry (din.addrs (Fin.last NDIRECT)).toNat (fbn - NDIRECT)
    return (din, x)

/-- The loop of `iappend`. Every round takes a byte, so the number of bytes is fuel enough. -/
def iappendLoop : Nat → Dinode → Nat → List UInt8 → MkM (Dinode × Nat)
  | 0, din, off, _ => return (din, off)
  | fuel + 1, din, off, p =>
    if 0 < p.length then
      if off / BSIZE < MAXFILE then do
        let (din, x) ← appendBlock din (off / BSIZE)
        let n1 := min p.length ((off / BSIZE + 1) * BSIZE - off)
        let buf ← rsect x
        wsect x (Block.ofFn (Bytes.blit buf.byte (off - off / BSIZE * BSIZE) n1 fun j => p.getD j 0))
        iappendLoop fuel din (off + n1) (p.drop n1)
      else
        throw .maxfile
    else
      return (din, off)

def iappend (inum : Nat) (p : List UInt8) : MkM Unit := do
  let din ← rinode inum
  let (din, off) ← iappendLoop p.length din din.size.toNat p
  winode inum { din with size := UInt32.ofNat off }

/-! ## `main` -/

/-- What a call of `read` returns, if it is not at the end of the file. -/
structure Chunk where
  bytes : List UInt8
  ne_nil : bytes ≠ []
  le : bytes.length ≤ BSIZE

/-- An argument of `mkfs`: a string, and what is read from the file of that name, if it can be
opened. -/
structure HostFile where
  path : List UInt8
  noNul : (0 : UInt8) ∉ path
  reads : Option (List Chunk)

def userDir : List UInt8 := [117, 115, 101, 114, slash]

def underscore : UInt8 := 95

namespace HostFile

variable (f : HostFile)

def shortname : List UInt8 := if strncmp 5 f.path userDir = 0 then f.path.drop 5 else f.path

/-- The name the file gets: a leading `_` is skipped. -/
def name : List UInt8 :=
  if f.shortname.headD 0 = underscore then f.shortname.tail else f.shortname

def bytes : List UInt8 := ((f.reads.getD []).map Chunk.bytes).flatten

end HostFile

def direntOf (inum : Nat) (name : List UInt8) : List UInt8 :=
  Dirent.bytes ⟨UInt16.ofNat inum, strncpy DIRSIZ name⟩

def addFile (rootino : Nat) (f : HostFile) : MkM Unit :=
  if slash ∈ f.shortname then
    throw .slash
  else
    match f.reads with
    | none => throw .noFile
    | some chunks => do
      let inum ← ialloc T_FILE
      iappend rootino (direntOf inum f.name)
      chunks.forM fun c => iappend inum c.bytes

def superblock : Block :=
  [magic, sb.size, sb.nblocks, sb.ninodes, sb.nlog, sb.logstart, sb.inodestart, sb.bmapstart].zipIdx.foldl
    (fun b w => b.setWord w.2 w.1) Block.zero

def roundRoot (rootino : Nat) : MkM Unit := do
  let din ← rinode rootino
  let off := (din.size.toNat / BSIZE + 1) * BSIZE
  winode rootino { din with size := UInt32.ofNat off }

/-- `main` after the superblock has been written. -/
def build (files : List HostFile) : MkM Unit := do
  let rootino ← ialloc T_DIR
  if rootino = ROOTINO then
    iappend rootino (direntOf rootino [dot])
    iappend rootino (direntOf rootino [dot, dot])
    files.forM (addFile rootino)
    roundRoot rootino
    let s ← get
    balloc s.freeblock
  else
    throw .rootino

/-- `for(i = 0; i < n; i++) wsect(i, zeroes)` -/
@[irreducible]
def writeZeroes (n : Nat) : MkM Unit := (List.range n).forM fun i => wsect i Block.zero

/-- `mkfs fs.img files...` -/
def main (files : List HostFile) : MkM Unit := do
  writeZeroes FSSIZE
  wsect 1 superblock
  build files

end Mkfs

end Xv6
