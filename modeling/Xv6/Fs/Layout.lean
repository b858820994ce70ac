import Xv6.Block

/-!
# On-disk structures of the file system

The superblock's account of the disk, inodes as they lie in blocks, and the bits of a bitmap block,
tested, set and cleared as `balloc` and `bfree` do.
-/

namespace Xv6

open Function

def NDIRECT : Nat := 12

def NINDIRECT : Nat := BSIZE / 4

def MAXFILE : Nat := NDIRECT + NINDIRECT

def ROOTINO : Nat := 1

def ROOTDEV : Nat := 1

namespace Superblock

variable (sb : Superblock)

def IBLOCK (i : Nat) : Nat := i / IPB + sb.inodestart

/-- Block of the free map containing the bit for block `b`. -/
def BBLOCK (b : Nat) : Nat := b / BPB + sb.bmapstart

def datastart : Nat := sb.size - sb.nblocks

def IsData (b : Nat) : Prop := sb.datastart ≤ b ∧ b < sb.size

instance (b : Nat) : Decidable (sb.IsData b) := inferInstanceAs (Decidable (_ ∧ _))

/-- The layout `mkfs` computes: the regions of the disk are in the order `kernel/fs.h` draws them,
which is boot block, superblock, log, inode blocks, free bitmap, data blocks. -/
structure Layout : Prop where
  log : 2 ≤ sb.logstart ∧ sb.logstart + sb.nlog ≤ sb.inodestart
  inodes : sb.inodestart + (sb.ninodes / IPB + 1) ≤ sb.bmapstart
  bitmap : sb.bmapstart + (sb.size / BPB + 1) ≤ sb.datastart
  data : sb.datastart ≤ sb.size
  size : sb.size < 2 ^ 31
  root : ROOTINO < sb.ninodes

variable {sb}

theorem Layout.iblock_lt (h : sb.Layout) {i : Nat} (hi : i < sb.ninodes) :
    sb.IBLOCK i < sb.bmapstart := by
  have hdiv : i / IPB ≤ sb.ninodes / IPB := Nat.div_le_div_right hi.le
  have := h.inodes
  unfold IBLOCK
  omega

theorem Layout.bblock_lt (h : sb.Layout) {b : Nat} (hb : b < sb.size) :
    sb.BBLOCK b < sb.datastart := by
  have hdiv : b / BPB ≤ sb.size / BPB := Nat.div_le_div_right hb.le
  have := h.bitmap
  unfold BBLOCK
  omega

theorem le_bblock (b : Nat) : sb.bmapstart ≤ sb.BBLOCK b := Nat.le_add_left ..

theorem Layout.iblock_lt_datastart (h : sb.Layout) {i : Nat} (hi : i < sb.ninodes) :
    sb.IBLOCK i < sb.datastart :=
  (h.iblock_lt hi).trans_le ((Nat.le_add_right ..).trans h.bitmap)

theorem Layout.iblock_ne_bblock (h : sb.Layout) {i : Nat} (hi : i < sb.ninodes) (b : Nat) :
    sb.IBLOCK i ≠ sb.BBLOCK b := ((h.iblock_lt hi).trans_le (le_bblock b)).ne

theorem Layout.datastart_pos (h : sb.Layout) : 0 < sb.datastart := by
  exact (Nat.succ_pos _).trans_le ((Nat.le_add_left ..).trans h.bitmap)

theorem IsData.ne_zero (h : sb.Layout) {b : Nat} (hb : sb.IsData b) : b ≠ 0 :=
  (h.datastart_pos.trans_le hb.1).ne'

end Superblock

theorem Mkfs.layout : Mkfs.sb.Layout where
  log := by decide
  inodes := by decide
  bitmap := by decide
  data := by decide
  size := by decide
  root := by decide

/-! ## Inodes -/

@[ext] structure Dinode where
  type : Int16
  major : Int16
  minor : Int16
  nlink : Int16
  size : UInt32
  addrs : Fin (NDIRECT + 1) → UInt32
  deriving DecidableEq

namespace Dinode

/-- The inode after `memset(dip, 0, sizeof(*dip))`. -/
def zero : Dinode where
  type := 0
  major := 0
  minor := 0
  nlink := 0
  size := 0
  addrs _ := 0

def setAddr (d : Dinode) (j : Fin (NDIRECT + 1)) (b : Nat) : Dinode :=
  { d with addrs := update d.addrs j (UInt32.ofNat b) }

/-- Byte `k` of the structure: four shorts, then the size and the addresses as words. -/
def byte (d : Dinode) (k : Nat) : UInt8 :=
  if k < 2 then UInt8.ofNat (d.type.toBitVec.toNat / 256 ^ k)
  else if k < 4 then UInt8.ofNat (d.major.toBitVec.toNat / 256 ^ (k - 2))
  else if k < 6 then UInt8.ofNat (d.minor.toBitVec.toNat / 256 ^ (k - 4))
  else if k < 8 then UInt8.ofNat (d.nlink.toBitVec.toNat / 256 ^ (k - 6))
  else if k < 12 then UInt8.ofNat (d.size.toNat / 256 ^ (k - 8))
  else if h : (k - 12) / 4 < NDIRECT + 1 then
    UInt8.ofNat ((d.addrs ⟨(k - 12) / 4, h⟩).toNat / 256 ^ ((k - 12) % 4))
  else 0

end Dinode

namespace Block

def short (b : Block) (off : Nat) : Int16 := Int16.ofBitVec (BitVec.ofNat 16 (Bytes.getLE b.byte off 2))

def uint (b : Block) (off : Nat) : UInt32 := UInt32.ofNat (Bytes.getLE b.byte off 4)

/-- `((struct dinode*)b->data)[j]`. -/
def dinode (b : Block) (j : Nat) : Dinode where
  type := b.short (64 * j)
  major := b.short (64 * j + 2)
  minor := b.short (64 * j + 4)
  nlink := b.short (64 * j + 6)
  size := b.uint (64 * j + 8)
  addrs k := b.uint (64 * j + 12 + 4 * k)

/-- `((struct dinode*)b->data)[j] = d`. -/
def setDinode (b : Block) (j : Nat) (d : Dinode) : Block :=
  ofFn (Bytes.blit b.byte (64 * j) 64 d.byte)

variable {b : Block} {off : Nat}

theorem short_eq {x : Int16}
    (h : ∀ i, i < 2 → b.byte (off + i) = UInt8.ofNat (x.toBitVec.toNat / 256 ^ i)) :
    b.short off = x := by
  unfold short
  rw [Bytes.getLE_eq h]
  have hlt : x.toBitVec.toNat < 2 ^ 16 := x.toBitVec.isLt
  rw [Nat.mod_eq_of_lt (by simpa using hlt), BitVec.ofNat_toNat]
  simp

theorem uint_eq {x : UInt32} (h : ∀ i, i < 4 → b.byte (off + i) = UInt8.ofNat (x.toNat / 256 ^ i)) :
    b.uint off = x := by
  unfold uint
  rw [Bytes.getLE_eq h]
  have hlt : x.toNat < 2 ^ 32 := x.toNat_lt
  rw [Nat.mod_eq_of_lt (by simpa using hlt), UInt32.ofNat_toNat]

theorem short_congr {c : Block} (h : ∀ i, off ≤ i → i < off + 2 → b.byte i = c.byte i) :
    b.short off = c.short off := by
  unfold short
  rw [Bytes.getLE_congr h]

theorem uint_congr {c : Block} (h : ∀ i, off ≤ i → i < off + 4 → b.byte i = c.byte i) :
    b.uint off = c.uint off := by
  unfold uint
  rw [Bytes.getLE_congr h]

theorem byte_setDinode {j k : Nat} {d : Dinode} (hj : j < IPB) (hk : k < 64) :
    (b.setDinode j d).byte (64 * j + k) = d.byte k := by
  simp only [IPB, BSIZE] at hj
  rw [setDinode, byte_ofFn (by simp only [BSIZE]; omega), Bytes.blit_of_mem (by omega)]
  congr 1
  omega

theorem byte_setDinode_ne {j i : Nat} {d : Dinode} (hi : i < 64 * j ∨ 64 * j + 64 ≤ i) :
    (b.setDinode j d).byte i = b.byte i := by
  by_cases hlt : i < BSIZE
  · rw [setDinode, byte_ofFn hlt, Bytes.blit_of_notMem hi]
  · simp [byte, hlt]

theorem dinode_setDinode {j : Nat} {d : Dinode} (hj : j < IPB) :
    (b.setDinode j d).dinode j = d := by
  have hbyte : ∀ k, k < 64 → (b.setDinode j d).byte (64 * j + k) = d.byte k := fun k hk =>
    byte_setDinode hj hk
  have htype : (b.setDinode j d).short (64 * j) = d.type := short_eq fun i hi => by
    rw [hbyte i (by omega), Dinode.byte, if_pos hi]
  have hmajor : (b.setDinode j d).short (64 * j + 2) = d.major := short_eq fun i hi => by
    rw [Nat.add_assoc, hbyte (2 + i) (by omega), Dinode.byte, if_neg (by omega),
      if_pos (by omega), Nat.add_sub_cancel_left]
  have hminor : (b.setDinode j d).short (64 * j + 4) = d.minor := short_eq fun i hi => by
    rw [Nat.add_assoc, hbyte (4 + i) (by omega), Dinode.byte, if_neg (by omega),
      if_neg (by omega), if_pos (by omega), Nat.add_sub_cancel_left]
  have hnlink : (b.setDinode j d).short (64 * j + 6) = d.nlink := short_eq fun i hi => by
    rw [Nat.add_assoc, hbyte (6 + i) (by omega), Dinode.byte, if_neg (by omega),
      if_neg (by omega), if_neg (by omega), if_pos (by omega), Nat.add_sub_cancel_left]
  have hsize : (b.setDinode j d).uint (64 * j + 8) = d.size := uint_eq fun i hi => by
    rw [Nat.add_assoc, hbyte (8 + i) (by omega), Dinode.byte, if_neg (by omega),
      if_neg (by omega), if_neg (by omega), if_neg (by omega), if_pos (by omega),
      Nat.add_sub_cancel_left]
  have haddrs : ∀ k : Fin (NDIRECT + 1),
      (b.setDinode j d).uint (64 * j + 12 + 4 * k) = d.addrs k := by
    intro k
    have hk : k.val < 13 := k.isLt
    refine uint_eq fun i hi => ?_
    have hdiv : (12 + 4 * k.val + i - 12) / 4 = k.val := by omega
    have hmod : (12 + 4 * k.val + i - 12) % 4 = i := by omega
    rw [show 64 * j + 12 + 4 * k.val + i = 64 * j + (12 + 4 * k.val + i) by omega,
      hbyte (12 + 4 * k.val + i) (by omega), Dinode.byte, if_neg (by omega), if_neg (by omega),
      if_neg (by omega), if_neg (by omega), if_neg (by omega),
      dif_pos (show (12 + 4 * k.val + i - 12) / 4 < NDIRECT + 1 by rw [hdiv]; exact k.isLt), hmod]
    congr 4
    exact Fin.ext hdiv
  simp only [dinode, htype, hmajor, hminor, hnlink, hsize, haddrs]

theorem dinode_setDinode_ne {j k : Nat} {d : Dinode} (hne : k ≠ j) :
    (b.setDinode j d).dinode k = b.dinode k := by
  have hsame : ∀ i, 64 * k ≤ i → i < 64 * k + 64 → (b.setDinode j d).byte i = b.byte i :=
    fun i hi hik => byte_setDinode_ne (by omega)
  have hshort : ∀ o, o + 2 ≤ 64 → (b.setDinode j d).short (64 * k + o) = b.short (64 * k + o) :=
    fun o ho => short_congr fun i hi hik => hsame i (by omega) (by omega)
  have huint : ∀ o, o + 4 ≤ 64 → (b.setDinode j d).uint (64 * k + o) = b.uint (64 * k + o) :=
    fun o ho => uint_congr fun i hi hik => hsame i (by omega) (by omega)
  have haddrs : ∀ a : Fin (NDIRECT + 1), (b.setDinode j d).uint (64 * k + 12 + 4 * a)
      = b.uint (64 * k + 12 + 4 * a) := by
    intro a
    have ha : a.val < 13 := a.isLt
    rw [Nat.add_assoc]
    exact huint (12 + 4 * a) (by omega)
  have htype : (b.setDinode j d).short (64 * k) = b.short (64 * k) := hshort 0 (by omega)
  simp only [dinode, htype, hshort 2 (by omega), hshort 4 (by omega), hshort 6 (by omega),
    huint 8 (by omega), haddrs]

/-! ## Bitmap -/

/-- `bp->data[bi/8] & (1 << (bi % 8))`. -/
def bit (b : Block) (bi : Nat) : Bool := (b.byte (bi / 8) &&& (1 <<< UInt8.ofNat (bi % 8))) ≠ 0

/-- `bp->data[bi/8] |= m`. -/
def setBit (b : Block) (bi : Nat) : Block :=
  ofFn (update b.byte (bi / 8) (b.byte (bi / 8) ||| (1 <<< UInt8.ofNat (bi % 8))))

/-- `bp->data[bi/8] &= ~m`. -/
def clearBit (b : Block) (bi : Nat) : Block :=
  ofFn (update b.byte (bi / 8) (b.byte (bi / 8) &&& ~~~(1 <<< UInt8.ofNat (bi % 8))))

theorem mask_getLsbD : ∀ k j : Fin 8,
    ((1 : UInt8) <<< UInt8.ofNat k.val).toBitVec.getLsbD j.val = decide (j = k) := by
  decide

theorem and_mask_ne_zero (x : UInt8) (k : Fin 8) :
    (x &&& (1 <<< UInt8.ofNat k.val)) ≠ 0 ↔ x.toBitVec.getLsbD k = true := by
  have hbit : ∀ j : Fin 8, (x &&& (1 <<< UInt8.ofNat k.val)).toBitVec.getLsbD j
      = (x.toBitVec.getLsbD j && decide (j = k)) := by
    intro j
    rw [UInt8.toBitVec_and, BitVec.getLsbD_and, mask_getLsbD]
  constructor
  · intro hne
    by_contra hx
    refine hne (UInt8.toBitVec_inj.mp (BitVec.eq_of_getLsbD_eq fun j hj => ?_))
    rw [hbit ⟨j, hj⟩]
    by_cases hjk : (⟨j, hj⟩ : Fin 8) = k
    · rw [hjk, Bool.eq_false_of_not_eq_true hx]
      simp
    · simp [hjk]
  · intro hx hzero
    have := hbit k
    rw [hzero, hx] at this
    simp at this

theorem bit_eq (b : Block) (i : Nat) : b.bit i = (b.byte (i / 8)).toBitVec.getLsbD (i % 8) := by
  rw [bit, Bool.eq_iff_iff, decide_eq_true_eq]
  exact and_mask_ne_zero (b.byte (i / 8)) ⟨i % 8, Nat.mod_lt _ (by omega)⟩

theorem mask_getLsbD_mod (i j : Nat) :
    ((1 : UInt8) <<< UInt8.ofNat (i % 8)).toBitVec.getLsbD (j % 8) = decide (j % 8 = i % 8) := by
  have h := mask_getLsbD ⟨i % 8, Nat.mod_lt _ (by omega)⟩ ⟨j % 8, Nat.mod_lt _ (by omega)⟩
  simpa using h

theorem bit_setBit {i j : Nat} (hj : j < BPB) :
    (b.setBit i).bit j = (decide (j = i) || b.bit j) := by
  simp only [BPB, BSIZE] at hj
  rw [bit_eq, bit_eq, setBit, byte_ofFn (by simp only [BSIZE]; omega)]
  by_cases hbyte : j / 8 = i / 8
  · rw [hbyte, update_self, UInt8.toBitVec_or, BitVec.getLsbD_or, mask_getLsbD_mod,
      Bool.or_comm]
    congr 1
    exact decide_eq_decide.mpr ⟨fun h => by omega, fun h => by rw [h]⟩
  · rw [update_of_ne hbyte, decide_eq_false (fun h => hbyte (by rw [h])), Bool.false_or]

theorem bit_clearBit {i j : Nat} (hj : j < BPB) :
    (b.clearBit i).bit j = (decide (j ≠ i) && b.bit j) := by
  simp only [BPB, BSIZE] at hj
  rw [bit_eq, bit_eq, clearBit, byte_ofFn (by simp only [BSIZE]; omega)]
  by_cases hbyte : j / 8 = i / 8
  · have hlt : j % 8 < 8 := Nat.mod_lt _ (by omega)
    rw [hbyte, update_self, UInt8.toBitVec_and, BitVec.getLsbD_and, UInt8.toBitVec_not,
      BitVec.getLsbD_not, mask_getLsbD_mod, Bool.and_comm, decide_eq_true hlt, Bool.true_and,
      ← decide_not]
    congr 1
    exact decide_eq_decide.mpr ⟨fun h heq => h (by rw [heq]), fun h heq => h (by omega)⟩
  · have hne : j ≠ i := fun h => hbyte (by rw [h])
    rw [update_of_ne hbyte, decide_eq_true hne, Bool.true_and]

end Block

end Xv6
