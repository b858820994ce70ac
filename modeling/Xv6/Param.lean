import Mathlib.Tactic

/-!
# Kernel parameters

The constants of `kernel/param.h` and `kernel/fs.h`, under their source names, the
superblock, and the superblock `mkfs` writes.
-/

namespace Xv6

/-- Maximum number of blocks any file system operation writes. -/
def MAXOPBLOCKS : Nat := 10

def LOGSIZE : Nat := MAXOPBLOCKS * 3

def NBUF : Nat := MAXOPBLOCKS * 3

def NOFILE : Nat := 16

def NFILE : Nat := 100

def NDEV : Int16 := 10

def MAXPATH : Nat := 128

def BSIZE : Nat := 1024

/-- Size of a `mkfs` file system in blocks. -/
def FSSIZE : Nat := 1000

/-- Inodes per block: `BSIZE / sizeof(struct dinode)`. -/
def IPB : Nat := BSIZE / 64

def BPB : Nat := BSIZE * 8

/-- `struct superblock`, less its magic number. -/
structure Superblock where
  size : Nat
  nblocks : Nat
  ninodes : Nat
  nlog : Nat
  logstart : Nat
  inodestart : Nat
  bmapstart : Nat

/-! ## The superblock of `mkfs`

`mkfs/mkfs.c` lays the disk out as boot block, superblock, log, inode blocks, free bitmap,
data blocks. -/

namespace Mkfs

def NINODES : Nat := 200

def nbitmap : Nat := FSSIZE / (BSIZE * 8) + 1
def ninodeblocks : Nat := NINODES / IPB + 1
def nlog : Nat := LOGSIZE
def nmeta : Nat := 2 + nlog + ninodeblocks + nbitmap
def nblocks : Nat := FSSIZE - nmeta

/-- The superblock `mkfs` writes to block 1. -/
def sb : Superblock where
  size := FSSIZE
  nblocks := nblocks
  ninodes := NINODES
  nlog := nlog
  logstart := 2
  inodestart := 2 + nlog
  bmapstart := 2 + nlog + ninodeblocks

end Mkfs

end Xv6
