import Xv6.Lib.Prog
import Xv6.Fs.Layout

/-!
# Blocks, inodes and their contents

The lower half of `kernel/fs.c`: the block allocator, the inode table, and reading and writing
the content of an inode.

A call runs by itself from start to end. There is one disk, so block numbers name blocks and the
device number is kept only where the source compares it.

Programs return or fail with an `FsPanic`; waiting for a sleep lock that is held is a failure
too, since nobody else runs to release it.
-/

namespace Xv6

open Prog Function

def NINODE : Nat := 50

def DIRSIZ : Nat := 14

def T_DIR : Int16 := 1
def T_FILE : Int16 := 2
def T_DEVICE : Int16 := 3

inductive FsPanic where
  -- `"balloc: out of blocks"`
  | outOfBlocks
  -- `"freeing free block"`
  | freeingFreeBlock
  -- `"ialloc: no inodes"`
  | noInodes
  -- `"iget: no inodes"`
  | tableFull
  -- `"ilock"`
  | ilock
  -- `"ilock: no type"`
  | noType
  -- `"iunlock"`
  | iunlock
  -- `"bmap: out of range"`
  | outOfRange
  -- `"dirlookup not DIR"`
  | notDir
  -- `"dirlookup read"`
  | dirlookupRead
  -- `"dirlink read"`
  | dirlinkRead
  -- `"dirlink"`
  | dirlink
  -- `"isdirempty: readi"`
  | isdiremptyRead
  -- `"unlink: nlink < 1"`
  | unlinkNlink
  -- `"unlink: writei"`
  | unlinkWritei
  -- `"create dots"`
  | createDots
  -- `"create: dirlink"`
  | createDirlink
  -- The caller sleeps on a lock for ever.
  | asleep
  deriving DecidableEq, Repr

/-- `struct inode`: an entry of the inode table. -/
structure Inode where
  dev : Nat
  inum : Nat
  ref : Nat
  lock : Bool
  valid : Bool
  -- The copy of the disk inode.
  din : Dinode

/-- What a call works on: the blocks as `bread` returns them (`data`), what `bread` returns once a
buffer has been recycled (`logged`: the content last given to `log_write`), and the inode table. -/
structure Fs where
  data : Nat → Block
  logged : Nat → Block
  itable : Fin NINODE → Inode
  -- `log.lh.block`, since the transaction was begun.
  lh : List Nat := []

abbrev FsM (α : Type) : Type := Act Fs FsPanic α

/-! ## Buffers -/

def bread (b : Nat) : FsM Block := do
  let s ← get
  return s.data b

/-- Change `bp->data` of the buffer of block `b`. -/
def modifyBuf (b : Nat) (f : Block → Block) : FsM Unit :=
  modify fun s => { s with data := update s.data b (f (s.data b)) }

def logWrite (b : Nat) : FsM Unit :=
  modify fun s => { s with
    logged := update s.logged b (s.data b)
    lh := if b ∈ s.lh then s.lh else s.lh ++ [b] }

def bzero (bno : Nat) : FsM Unit := do
  modifyBuf bno fun _ => Block.zero
  logWrite bno

section Blocks

variable (sb : Superblock)

/-- The outer loop of `balloc`, over the bitmap blocks; `b` is the first block of each. -/
def ballocFrom : List Nat → FsM Nat
  | [] => throw .outOfBlocks
  | b :: rest => do
    let bp ← bread (sb.BBLOCK b)
    match (List.range (min BPB (sb.size - b))).find? fun bi => !bp.bit bi with
    | some bi =>
      modifyBuf (sb.BBLOCK b) (·.setBit bi)
      logWrite (sb.BBLOCK b)
      bzero (b + bi)
      return b + bi
    | none => ballocFrom rest

def balloc : FsM Nat :=
  ballocFrom sb ((List.range ((sb.size + BPB - 1) / BPB)).map (BPB * ·))

def bfree (b : Nat) : FsM Unit := do
  let bp ← bread (sb.BBLOCK b)
  if bp.bit (b % BPB) then
    modifyBuf (sb.BBLOCK b) (·.clearBit (b % BPB))
    logWrite (sb.BBLOCK b)
  else
    throw .freeingFreeBlock

end Blocks

/-! ## The inode table -/

def getInode (k : Fin NINODE) : FsM Inode := do
  let s ← get
  return s.itable k

def modifyInode (k : Fin NINODE) (f : Inode → Inode) : FsM Unit :=
  modify fun s => { s with itable := update s.itable k (f (s.itable k)) }

def iget (dev inum : Nat) : FsM (Fin NINODE) := do
  let s ← get
  match (List.finRange NINODE).find? fun k =>
    0 < (s.itable k).ref ∧ (s.itable k).dev = dev ∧ (s.itable k).inum = inum with
  | some k =>
    modifyInode k fun ip => { ip with ref := ip.ref + 1 }
    return k
  | none =>
    match (List.finRange NINODE).find? fun k => (s.itable k).ref = 0 with
    | some k =>
      modifyInode k fun ip => { ip with dev := dev, inum := inum, ref := 1, valid := false }
      return k
    | none => throw .tableFull

def idup (k : Fin NINODE) : FsM (Fin NINODE) := do
  modifyInode k fun ip => { ip with ref := ip.ref + 1 }
  return k

def acquireInode (k : Fin NINODE) : FsM Unit := do
  let ip ← getInode k
  if ip.lock then
    throw .asleep
  else
    modifyInode k fun ip => { ip with lock := true }

def iunlock (k : Fin NINODE) : FsM Unit := do
  let ip ← getInode k
  if ip.lock = false ∨ ip.ref < 1 then
    throw .iunlock
  else
    modifyInode k fun ip => { ip with lock := false }

section Inodes

variable (sb : Superblock)

def iallocFrom (dev : Nat) (type : Int16) : List Nat → FsM (Fin NINODE)
  | [] => throw .noInodes
  | inum :: rest => do
    let bp ← bread (sb.IBLOCK inum)
    if (bp.dinode (inum % IPB)).type = 0 then
      modifyBuf (sb.IBLOCK inum) (·.setDinode (inum % IPB) { Dinode.zero with type := type })
      logWrite (sb.IBLOCK inum)
      iget dev inum
    else
      iallocFrom dev type rest

def ialloc (dev : Nat) (type : Int16) : FsM (Fin NINODE) :=
  iallocFrom sb dev type (List.range' 1 (sb.ninodes - 1))

def iupdate (k : Fin NINODE) : FsM Unit := do
  let ip ← getInode k
  modifyBuf (sb.IBLOCK ip.inum) (·.setDinode (ip.inum % IPB) ip.din)
  logWrite (sb.IBLOCK ip.inum)

/-- The part of `ilock` that reads the inode from disk. -/
def readInode (k : Fin NINODE) : FsM Unit := do
  let ip ← getInode k
  let bp ← bread (sb.IBLOCK ip.inum)
  let dip := bp.dinode (ip.inum % IPB)
  modifyInode k fun ip => { ip with din := dip, valid := true }
  if dip.type = 0 then
    throw .noType

def ilock (k : Fin NINODE) : FsM Unit := do
  let ip ← getInode k
  if ip.ref < 1 then
    throw .ilock
  else
    acquireInode k
    if ip.valid = false then
      readInode sb k

/-! ## Content -/

/-- `if((addr = ip->addrs[j]) == 0) ip->addrs[j] = addr = balloc(ip->dev)`. -/
def bmapAddr (k : Fin NINODE) (j : Fin (NDIRECT + 1)) : FsM Nat := do
  let ip ← getInode k
  if ip.din.addrs j = 0 then
    let addr ← balloc sb
    modifyInode k fun ip => { ip with din := ip.din.setAddr j addr }
    return addr
  else
    return (ip.din.addrs j).toNat

/-- The same for `a[bn]` of the indirect block `addr`. -/
def bmapIndirect (addr bn : Nat) : FsM Nat := do
  let bp ← bread addr
  if bp.word bn = 0 then
    let b ← balloc sb
    modifyBuf addr (·.setWord bn b)
    logWrite addr
    return b
  else
    return bp.word bn

def bmap (k : Fin NINODE) (bn : Nat) : FsM Nat := do
  if h : bn < NDIRECT then
    bmapAddr sb k ⟨bn, by omega⟩
  else if bn - NDIRECT < NINDIRECT then
    let addr ← bmapAddr sb k (Fin.last NDIRECT)
    bmapIndirect sb addr (bn - NDIRECT)
  else
    throw .outOfRange

/-- The body of the first loop of `itrunc`. -/
def itruncDirect (k : Fin NINODE) (i : Fin NDIRECT) : FsM Unit := do
  let ip ← getInode k
  if ip.din.addrs i.castSucc ≠ 0 then
    bfree sb (ip.din.addrs i.castSucc).toNat
    modifyInode k fun ip => { ip with din := ip.din.setAddr i.castSucc 0 }

/-- The body of the second loop of `itrunc`; `addr` is the indirect block. -/
def itruncEntry (addr j : Nat) : FsM Unit := do
  let bp ← bread addr
  if bp.word j ≠ 0 then
    bfree sb (bp.word j)

def itruncIndirect (k : Fin NINODE) : FsM Unit := do
  let ip ← getInode k
  let addr := (ip.din.addrs (Fin.last NDIRECT)).toNat
  if addr ≠ 0 then
    (List.range NINDIRECT).forM (itruncEntry sb addr)
    bfree sb addr
    modifyInode k fun ip => { ip with din := ip.din.setAddr (Fin.last NDIRECT) 0 }

def itrunc (k : Fin NINODE) : FsM Unit := do
  (List.finRange NDIRECT).forM (itruncDirect sb k)
  itruncIndirect sb k
  modifyInode k fun ip => { ip with din := { ip.din with size := 0 } }
  iupdate sb k

/-- The part of `iput` that frees the inode. -/
def ifree (k : Fin NINODE) : FsM Unit := do
  acquireInode k
  itrunc sb k
  modifyInode k fun ip => { ip with din := { ip.din with type := 0 } }
  iupdate sb k
  modifyInode k fun ip => { ip with valid := false, lock := false }

def iput (k : Fin NINODE) : FsM Unit := do
  let ip ← getInode k
  if ip.ref = 1 ∧ ip.valid = true ∧ ip.din.nlink = 0 then
    ifree sb k
  modifyInode k fun ip => { ip with ref := ip.ref - 1 }

def iunlockput (k : Fin NINODE) : FsM Unit := do
  iunlock k
  iput sb k

/-- How many of the `m` bytes from `tot` on are mapped before the first that is not. -/
def mapped (ok : Nat → Bool) : Nat → Nat → Nat
  | _, 0 => 0
  | tot, m + 1 => if ok tot then mapped ok (tot + 1) m + 1 else 0

/-- The loop of `readi`. `dst j` tells whether byte `j` of the destination can be stored to;
`acc` is what has been stored. -/
def readiLoop (k : Fin NINODE) (dst : Nat → Bool) (n : Nat) :
    Nat → Nat → Nat → List UInt8 → FsM (Int × List UInt8)
  | 0, tot, _, acc => return (tot, acc)
  | fuel + 1, tot, off, acc =>
    if tot < n then do
      let b ← bmap sb k (off / BSIZE)
      let bp ← bread b
      let m := min (n - tot) (BSIZE - off % BSIZE)
      let got := mapped dst tot m
      let acc := acc ++ (List.range got).map fun j => bp.byte (off % BSIZE + j)
      if got < m then
        return (-1, acc)
      else
        readiLoop k dst n fuel (tot + m) (off + m) acc
    else
      return (tot, acc)

/-- `readi`: the value returned and the bytes stored at `dst`. -/
def readi (k : Fin NINODE) (dst : Nat → Bool) (off n : UInt32) : FsM (Int × List UInt8) := do
  let ip ← getInode k
  if off > ip.din.size ∨ off + n < off then
    return (0, [])
  else
    let n := if off + n > ip.din.size then ip.din.size - off else n
    readiLoop sb k dst n.toNat n.toNat 0 off.toNat []

/-- The loop of `writei`. `src j` is byte `j` of the source, if it can be loaded. -/
def writeiLoop (k : Fin NINODE) (src : Nat → Option UInt8) (n : Nat) :
    Nat → Nat → Nat → FsM (Nat × Nat)
  | 0, tot, off => return (tot, off)
  | fuel + 1, tot, off =>
    if tot < n then do
      let b ← bmap sb k (off / BSIZE)
      let m := min (n - tot) (BSIZE - off % BSIZE)
      let got := mapped (fun j => (src j).isSome) tot m
      modifyBuf b fun bp =>
        Block.ofFn (Bytes.blit bp.byte (off % BSIZE) got fun j => (src (tot + j)).getD 0)
      if got < m then
        return (tot, off)
      else
        logWrite b
        writeiLoop k src n fuel (tot + m) (off + m)
    else
      return (tot, off)

def writei (k : Fin NINODE) (src : Nat → Option UInt8) (off n : UInt32) : FsM Int := do
  let ip ← getInode k
  if off > ip.din.size ∨ off + n < off then
    return -1
  else if (off + n).toNat > MAXFILE * BSIZE then
    return -1
  else
    let (tot, off) ← writeiLoop sb k src n.toNat n.toNat 0 off.toNat
    if off > ip.din.size.toNat then
      modifyInode k fun ip => { ip with din := { ip.din with size := UInt32.ofNat off } }
    iupdate sb k
    return tot

end Inodes

end Xv6
