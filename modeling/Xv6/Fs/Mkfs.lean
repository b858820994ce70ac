import Xv6.Fs.Dir
import Xv6.Fs.Table

/-!
# The disk of `mkfs`

The disk `mkfs` writes when it is given no files: a root directory with its two entries. It is
well formed (`Mkfs.good`).
-/

namespace Xv6

open Vol Function

/-! ## The image -/

namespace Mkfs

/-- `balloc(used)`: the first `used` bits are set. -/
def bitmap (used : Nat) : Block := (List.range used).foldl Block.setBit Block.zero

def rootEntries : List UInt8 :=
  Dirent.bytes ⟨UInt16.ofNat ROOTINO, strncpy DIRSIZ [dot]⟩ ++
    Dirent.bytes ⟨UInt16.ofNat ROOTINO, strncpy DIRSIZ [dot, dot]⟩

/-- The root directory has one block, and its size is rounded up to that. -/
def rootInode : Dinode where
  type := T_DIR
  major := 0
  minor := 0
  nlink := 1
  size := UInt32.ofNat BSIZE
  addrs := update 0 0 (UInt32.ofNat sb.datastart)

def disk (b : Nat) : Block :=
  if b = sb.IBLOCK ROOTINO then
    Block.zero.setDinode (ROOTINO % IPB) rootInode
  else if b = sb.bmapstart then
    bitmap (sb.datastart + 1)
  else if b = sb.datastart then
    Block.ofFn fun j => rootEntries.getD j 0
  else
    Block.zero

def noInode : Inode where
  dev := 0
  inum := 0
  ref := 0
  lock := false
  valid := false
  din := Dinode.zero

def fs : Fs where
  data := disk
  logged := disk
  itable _ := noInode

/-! ## The volume -/

theorem bit_bitmap (used : Nat) {j : Nat} (hj : j < BPB) : (bitmap used).bit j = decide (j < used) := by
  unfold bitmap
  induction used with
  | zero => simp [Block.bit_eq]
  | succ n ih =>
    rw [List.range_succ, List.foldl_concat, Block.bit_setBit hj, ih]
    simp only [← Bool.decide_or, decide_eq_decide]
    omega

theorem dinode_zero (j : Nat) : Block.zero.dinode j = Dinode.zero := by
  have hshort : ∀ o, Block.zero.short o = 0 := fun o => Block.short_eq fun i _ => by simp
  have huint : ∀ o, Block.zero.uint o = 0 := fun o => Block.uint_eq fun i _ => by simp
  unfold Block.dinode Dinode.zero
  simp only [hshort, huint]

theorem vol_ino (i : Nat) : (fs.vol sb).ino i = if i = ROOTINO then rootInode else Dinode.zero := by
  show (if i < sb.ninodes then diskInode sb disk i else Dinode.zero) = _
  by_cases hi : i < sb.ninodes
  swap
  · rw [if_neg hi, if_neg]
    rintro rfl
    exact hi (by decide)
  rw [if_pos hi, diskInode]
  by_cases hblock : sb.IBLOCK i = sb.IBLOCK ROOTINO
  · rw [disk, if_pos hblock]
    have hdiv : i / IPB = ROOTINO / IPB := Nat.add_right_cancel hblock
    split
    · rename_i hroot
      rw [hroot, Block.dinode_setDinode (by decide)]
    · rename_i hroot
      rw [Block.dinode_setDinode_ne, dinode_zero]
      intro hmod
      rw [← Nat.div_add_mod i IPB, hdiv, hmod] at hroot
      exact hroot rfl
  · rw [if_neg (fun h => hblock (by rw [h])), disk, if_neg hblock]
    have hlt := Mkfs.layout.iblock_lt hi
    have hlt' := Mkfs.layout.iblock_lt_datastart hi
    rw [if_neg hlt.ne, if_neg hlt'.ne, dinode_zero]

theorem vol_used {b : Nat} (hb : b < sb.size) : (fs.vol sb).used b = decide (b ≤ sb.datastart) := by
  show (if b < sb.size then diskBit sb disk b else true) = _
  have hsize : sb.size = 1000 := rfl
  have hBPB : b < BPB := by
    simp only [BPB, BSIZE]
    omega
  rw [if_pos hb, diskBit, Nat.mod_eq_of_lt hBPB, Superblock.BBLOCK, Nat.div_eq_of_lt hBPB,
    Nat.zero_add, disk, if_neg (by decide), if_pos rfl, bit_bitmap _ hBPB]
  simp only [decide_eq_decide]
  omega

theorem vol_nfree : (fs.vol sb).nfree sb = 953 := by
  have hfree : (Finset.range sb.size).filter (fun b => (fs.vol sb).used b = false)
      = Finset.Ico (sb.datastart + 1) sb.size := by
    ext b
    rw [Finset.mem_filter, Finset.mem_range, Finset.mem_Ico, and_comm]
    refine and_congr_left fun hb => ?_
    rw [vol_used hb, decide_eq_false_iff_not, Nat.not_le]
    exact Iff.rfl
  rw [Vol.nfree, hfree, Nat.card_Ico]
  rfl

theorem vol_addr (i p : Nat) :
    (fs.vol sb).addr i p = if i = ROOTINO ∧ p = 0 then sb.datastart else 0 := by
  unfold Vol.addr
  rw [vol_ino]
  by_cases hi : i = ROOTINO
  · rw [if_pos hi]
    by_cases hp : p < NDIRECT + 1
    · rw [dif_pos hp]
      show (update (0 : Fin (NDIRECT + 1) → UInt32) 0 (UInt32.ofNat sb.datastart)
        ⟨p, hp⟩).toNat = _
      by_cases hp0 : p = 0
      · subst hp0
        rw [if_pos ⟨hi, rfl⟩]
        rfl
      · have hne : (⟨p, hp⟩ : Fin (NDIRECT + 1)) ≠ 0 := fun h => hp0 (congrArg Fin.val h)
        rw [if_neg fun h => hp0 h.2, update_of_ne hne]
        rfl
    · have hlast : rootInode.addrs (Fin.last NDIRECT) = 0 := by decide
      have hp0 : ¬ (i = ROOTINO ∧ p = 0) := fun h => hp (by rw [h.2]; decide)
      rw [dif_neg hp, if_pos hlast, if_neg hp0]
  · have hlast : Dinode.zero.addrs (Fin.last NDIRECT) = 0 := rfl
    have hi0 : ¬ (i = ROOTINO ∧ p = 0) := fun h => hi h.1
    rw [if_neg hi, if_neg hi0, if_pos hlast]
    split
    · rfl
    · rfl

theorem vol_alloc {i : Nat} : (fs.vol sb).Alloc sb i ↔ i = ROOTINO := by
  unfold Vol.Alloc
  rw [vol_ino]
  constructor
  · intro h
    by_contra hne
    rw [if_neg hne] at h
    exact h.2 rfl
  · rintro rfl
    decide

theorem wellFormed : (fs.vol sb).WellFormed sb where
  blocks := {
    data := fun i p _ hne => by
      rw [vol_addr] at hne ⊢
      split at hne
      · rename_i h
        rw [if_pos h]
        decide
      · exact absurd rfl hne
    once := fun i p j q hi hj hne heq => by
      rw [vol_alloc] at hi hj
      rw [vol_addr] at hne heq
      rw [vol_addr] at heq
      have hp : p = 0 := by
        by_contra hp
        exact hne (if_neg fun h => hp h.2)
      have hq : q = 0 := by
        by_contra hq
        rw [if_neg fun h : j = ROOTINO ∧ q = 0 => hq h.2] at heq
        exact hne heq
      exact ⟨hi.trans hj.symm, hp.trans hq.symm⟩
    used := fun b hb => by
      rw [vol_used hb, decide_eq_true_iff]
      constructor
      · intro hle
        rcases hle.lt_or_eq with hlt | rfl
        · exact .inl hlt
        · refine .inr ⟨id, ROOTINO, 0, vol_alloc.mpr rfl, ?_⟩
          rw [vol_addr, if_pos ⟨rfl, rfl⟩]
      · rintro (hlt | ⟨-, i, p, -, rfl⟩)
        · exact hlt.le
        · rw [vol_addr]
          split
          · exact le_rfl
          · exact Nat.zero_le _ }
  covered := fun i hi => by
    obtain rfl := vol_alloc.mp hi
    have hsize : (fs.vol sb).size ROOTINO = BSIZE := by
      rw [Vol.size, vol_ino, if_pos rfl]
      rfl
    rw [Vol.Covered, hsize]
    refine ⟨by decide, fun n hn => ?_⟩
    obtain rfl : n = 0 := by
      simp only [BSIZE] at hn
      omega
    rw [vol_addr, if_pos ⟨rfl, rfl⟩]
    decide

theorem good : fs.Good sb where
  wf := wellFormed
  tidy := fun _ hb => absurd rfl hb
  table := by
    refine ⟨fun k => ?_, fun _ _ hr => absurd hr (Nat.lt_irrefl 0)⟩
    refine ⟨fun hr => ?_, fun hr => ?_, fun hr => ?_, fun hlock => ?_⟩
    · exact absurd hr (Nat.lt_irrefl 0)
    · exact absurd hr (Nat.lt_irrefl 0)
    · exact absurd hr (Nat.lt_irrefl 0)
    · cases hlock

def entry0 : Fin NINODE := ⟨0, by decide⟩

/-- The same with the root directory in the first entry, locked. -/
def rootHeld : Fs :=
  { fs with itable := update fs.itable entry0 ⟨ROOTDEV, ROOTINO, 1, true, true, rootInode⟩ }

theorem rootHeld_good : rootHeld.Good sb where
  wf := wellFormed
  tidy := fun _ hb => absurd rfl hb
  table := by
    refine good.table.set ⟨fun _ => by decide, fun _ => rfl, fun _ _ => ?_, fun _ => by decide⟩
      (fun _ _ _ => rfl) fun _ _ _ hr => absurd hr (Nat.lt_irrefl 0)
    exact ⟨(vol_ino ROOTINO).trans (if_pos rfl), by decide⟩

/-- The same with the root directory in the first entry, not locked. -/
def rootIdle : Fs :=
  { fs with itable := update fs.itable entry0 ⟨ROOTDEV, ROOTINO, 1, false, true, rootInode⟩ }

theorem rootIdle_good : rootIdle.Good sb where
  wf := wellFormed
  tidy := fun _ hb => absurd rfl hb
  table := by
    refine good.table.set ⟨fun _ => by decide, fun _ => rfl, fun _ _ => ?_, fun hl => by cases hl⟩
      (fun _ _ _ => rfl) fun _ _ _ hr => absurd hr (Nat.lt_irrefl 0)
    exact ⟨(vol_ino ROOTINO).trans (if_pos rfl), by decide⟩

end Mkfs

end Xv6
