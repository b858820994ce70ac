import Xv6.Fs.Inode
import Xv6.Fs.Vol

/-!
# The volume a disk holds

`volOf` reads a volume off the blocks. Every write of the code to a block of the disk is a
change of one inode, one bit of the bitmap or one data block of that volume; the specifications
of `balloc`, `bfree` and `iupdate` say which.
-/

namespace Xv6

open Prog Function List

def diskInode (sb : Superblock) (data : Nat → Block) (i : Nat) : Dinode :=
  (data (sb.IBLOCK i)).dinode (i % IPB)

def diskBit (sb : Superblock) (data : Nat → Block) (b : Nat) : Bool :=
  (data (sb.BBLOCK b)).bit (b % BPB)

/-- The volume on the disk; what is outside the disk does not matter. -/
def volOf (sb : Superblock) (data : Nat → Block) : Vol where
  ino i := if i < sb.ninodes then diskInode sb data i else Dinode.zero
  used b := if b < sb.size then diskBit sb data b else true
  data b := if sb.datastart ≤ b then data b else Block.zero

def Fs.vol (sb : Superblock) (s : Fs) : Vol := volOf sb s.data

/-- The buffer of `b` has been changed without `log_write`. -/
def Fs.Loose (s : Fs) (b : Nat) : Prop := s.data b ≠ s.logged b

/-- Every block that has been changed or taken since has been given to `log_write`: one that differs
from what was last logged did so before, holds what it held, and has not been taken. -/
def Fs.LogsAll (sb : Superblock) (s s' : Fs) : Prop :=
  ∀ b, s'.Loose b → s.Loose b ∧ s'.data b = s.data b ∧
    ((s.vol sb).used b = false → (s'.vol sb).used b = false)

theorem Fs.LogsAll.refl (sb : Superblock) (s : Fs) : s.LogsAll sb s := fun _ hb => ⟨hb, rfl, id⟩

theorem Fs.LogsAll.trans {sb : Superblock} {s s' s'' : Fs} (h : s.LogsAll sb s')
    (h' : s'.LogsAll sb s'') : s.LogsAll sb s'' := by
  intro b hb
  obtain ⟨hb', hdata', hused'⟩ := h' b hb
  obtain ⟨hb'', hdata, hused⟩ := h b hb'
  exact ⟨hb'', hdata'.trans hdata, fun hfree => hused' (hused hfree)⟩

/-- The blocks given to `log_write` since are in `P`. -/
def Fs.Logs (s s' : Fs) (P : Nat → Prop) : Prop := ∀ c ∈ s'.lh, c ∈ s.lh ∨ P c

def Superblock.IsBitmap (sb : Superblock) (c : Nat) : Prop := ∃ b, b < sb.size ∧ c = sb.BBLOCK b

/-- The blocks given to `log_write` since are those of the bitmap, those of the inodes `is`, and at
most `n` others. -/
def Fs.Spends (sb : Superblock) (s s' : Fs) (is : Finset Nat) (n : Nat) : Prop :=
  ∃ bs : Finset Nat, bs.card ≤ n ∧
    s.Logs s' fun c => sb.IsBitmap c ∨ (∃ i ∈ is, c = sb.IBLOCK i) ∨ c ∈ bs

/-- Beside those of the bitmap, at most `n` blocks have been given to `log_write` since. -/
def Fs.Cost (sb : Superblock) (s s' : Fs) (n : Nat) : Prop :=
  ∃ is m, s.Spends sb s' is m ∧ is.card + m ≤ n

section Logs

variable {sb : Superblock} {s s₁ s' : Fs} {P Q : Nat → Prop} {is is' : Finset Nat} {n n' : Nat}

theorem Fs.Logs.of_eq (h : s'.lh = s.lh) : s.Logs s' P := fun _ hc => .inl (h ▸ hc)

theorem Fs.Logs.mono (h : s.Logs s' P) (hPQ : ∀ c, P c → Q c) : s.Logs s' Q := fun c hc =>
  (h c hc).imp_right (hPQ c)

theorem Fs.Logs.trans (h : s.Logs s₁ P) (h' : s₁.Logs s' P) : s.Logs s' P := fun c hc =>
  (h' c hc).elim (h c) .inr

theorem mem_logged {l : List Nat} {b c : Nat} (hc : c ∈ if b ∈ l then l else l ++ [b]) :
    c ∈ l ∨ c = b := by
  split at hc
  · exact .inl hc
  · simpa using hc

theorem Fs.Logs.spends (h : s.Logs s' P)
    (hP : ∀ c, P c → sb.IsBitmap c ∨ ∃ i ∈ is, c = sb.IBLOCK i) : s.Spends sb s' is 0 :=
  ⟨∅, le_rfl, h.mono fun c hc => (hP c hc).imp_right .inl⟩

theorem Fs.Spends.of_eq (h : s'.lh = s.lh) : s.Spends sb s' is n :=
  ⟨∅, Nat.zero_le _, .of_eq h⟩

theorem Fs.Spends.trans (h : s.Spends sb s₁ is n) (h' : s₁.Spends sb s' is' n') :
    s.Spends sb s' (is ∪ is') (n + n') := by
  obtain ⟨bs, hcard, hlogs⟩ := h
  obtain ⟨bs', hcard', hlogs'⟩ := h'
  refine ⟨bs ∪ bs', (Finset.card_union_le ..).trans (Nat.add_le_add hcard hcard'),
    (hlogs.mono fun c hc => ?_).trans (hlogs'.mono fun c hc => ?_)⟩
  · exact hc.imp_right (Or.imp (fun ⟨i, hi, heq⟩ => ⟨i, Finset.mem_union_left _ hi, heq⟩)
      (Finset.mem_union_left _))
  · exact hc.imp_right (Or.imp (fun ⟨i, hi, heq⟩ => ⟨i, Finset.mem_union_right _ hi, heq⟩)
      (Finset.mem_union_right _))

theorem Fs.Spends.still (h : s.Spends sb s₁ is n) (hlh : s'.lh = s₁.lh) : s.Spends sb s' is n := by
  obtain ⟨bs, hcard, hlogs⟩ := h
  exact ⟨bs, hcard, fun c hc => hlogs c (hlh ▸ hc)⟩

theorem Fs.Spends.after (h : s₁.Spends sb s' is n) (hlh : s₁.lh = s.lh) : s.Spends sb s' is n := by
  obtain ⟨bs, hcard, hlogs⟩ := h
  refine ⟨bs, hcard, fun c hc => ?_⟩
  rw [← hlh]
  exact hlogs c hc

theorem Fs.Spends.mono (h : s.Spends sb s' is n) (his : is ⊆ is') (hn : n ≤ n') :
    s.Spends sb s' is' n' := by
  obtain ⟨bs, hcard, hlogs⟩ := h
  refine ⟨bs, hcard.trans hn, hlogs.mono fun c hc => ?_⟩
  exact hc.imp_right (Or.imp_left fun ⟨i, hi, heq⟩ => ⟨i, his hi, heq⟩)

theorem Fs.Cost.of_eq (h : s'.lh = s.lh) : s.Cost sb s' n :=
  ⟨∅, 0, .of_eq h, Nat.zero_le _⟩

theorem Fs.Cost.of_pair {i j : Nat} (h : s.Spends sb s' is n) (his : is ⊆ {i, j}) :
    s.Cost sb s' (n + 2) := by
  refine ⟨is, n, h, ?_⟩
  have := (Finset.card_le_card his).trans Finset.card_le_two
  omega

theorem Fs.Cost.mono (h : s.Cost sb s' n) (hn : n ≤ n') : s.Cost sb s' n' := by
  obtain ⟨is, m, hspends, hle⟩ := h
  exact ⟨is, m, hspends, hle.trans hn⟩

end Logs

section Writes

variable {sb : Superblock} (hl : sb.Layout) {data : Nat → Block} {i b : Nat} {d : Block}

include hl

theorem volOf_setDinode (hi : i < sb.ninodes) (x : Dinode) :
    volOf sb (update data (sb.IBLOCK i) ((data (sb.IBLOCK i)).setDinode (i % IPB) x))
      = (volOf sb data).setIno i x := by
  have hIPB : i % IPB < IPB := Nat.mod_lt _ (by decide)
  unfold volOf Vol.setIno
  simp only [Vol.mk.injEq]
  refine ⟨?_, ?_, ?_⟩
  · funext j
    by_cases hji : j = i
    · rw [hji, update_self, if_pos hi, diskInode, update_self,
        Block.dinode_setDinode hIPB]
    · rw [update_of_ne hji]
      unfold diskInode
      by_cases hblock : sb.IBLOCK j = sb.IBLOCK i
      · have hdiv : j / IPB = i / IPB := Nat.add_right_cancel hblock
        have hmod : j % IPB ≠ i % IPB := fun hmod => hji <| by
          rw [← Nat.div_add_mod j IPB, ← Nat.div_add_mod i IPB, hdiv, hmod]
        rw [hblock, update_self, Block.dinode_setDinode_ne hmod]
      · rw [update_of_ne hblock]
  · funext c
    unfold diskBit
    rw [update_of_ne (hl.iblock_ne_bblock hi c).symm]
  · funext c
    split
    · rename_i hc
      exact update_of_ne ((hl.iblock_lt_datastart hi).trans_le hc).ne' ..
    · rfl

theorem volOf_bit (hb : b < sb.size) {u : Bool} (hself : d.bit (b % BPB) = u)
    (hother : ∀ j, j < BPB → j ≠ b % BPB → d.bit j = (data (sb.BBLOCK b)).bit j) :
    volOf sb (update data (sb.BBLOCK b) d)
      = { volOf sb data with used := update (volOf sb data).used b u } := by
  unfold volOf
  simp only [Vol.mk.injEq]
  refine ⟨?_, ?_, ?_⟩
  · funext j
    split
    · rename_i hj
      unfold diskInode
      rw [update_of_ne (hl.iblock_ne_bblock hj b)]
    · rfl
  · funext c
    by_cases hcb : c = b
    · rw [hcb, update_self, if_pos hb, diskBit, update_self, hself]
    · rw [update_of_ne hcb]
      unfold diskBit
      by_cases hblock : sb.BBLOCK c = sb.BBLOCK b
      · have hdiv : c / BPB = b / BPB := Nat.add_right_cancel hblock
        have hmod : c % BPB ≠ b % BPB := fun hmod => hcb <| by
          rw [← Nat.div_add_mod c BPB, ← Nat.div_add_mod b BPB, hdiv, hmod]
        rw [hblock, update_self, hother _ (Nat.mod_lt _ (by decide)) hmod]
      · rw [update_of_ne hblock]
  · funext c
    split
    · rename_i hc
      exact update_of_ne ((hl.bblock_lt hb).trans_le hc).ne' ..
    · rfl

theorem volOf_setBit (hb : b < sb.size) :
    volOf sb (update data (sb.BBLOCK b) ((data (sb.BBLOCK b)).setBit (b % BPB)))
      = { volOf sb data with used := update (volOf sb data).used b true } := by
  refine volOf_bit hl hb ?_ fun j hj hne => ?_
  · rw [Block.bit_setBit (Nat.mod_lt _ (by decide))]
    simp
  · rw [Block.bit_setBit hj]
    simp [hne]

theorem volOf_clearBit (hb : b < sb.size) :
    volOf sb (update data (sb.BBLOCK b) ((data (sb.BBLOCK b)).clearBit (b % BPB)))
      = { volOf sb data with used := update (volOf sb data).used b false } := by
  refine volOf_bit hl hb ?_ fun j hj hne => ?_
  · rw [Block.bit_clearBit (Nat.mod_lt _ (by decide))]
    simp
  · rw [Block.bit_clearBit hj]
    simp [hne]

theorem volOf_setData (hb : sb.datastart ≤ b) :
    volOf sb (update data b d) = (volOf sb data).setData b d := by
  unfold volOf Vol.setData
  simp only [Vol.mk.injEq]
  refine ⟨?_, ?_, ?_⟩
  · funext j
    split
    · rename_i hj
      unfold diskInode
      rw [update_of_ne ((hl.iblock_lt_datastart hj).trans_le hb).ne]
    · rfl
  · funext c
    split
    · rename_i hc
      unfold diskBit
      rw [update_of_ne ((hl.bblock_lt hc).trans_le hb).ne]
    · rfl
  · funext c
    by_cases hcb : c = b
    · rw [hcb, update_self, if_pos hb, update_self]
    · rw [update_of_ne hcb, update_of_ne hcb]

end Writes

/-! ### `bread`, `log_write` and the inode table -/

section Basic

variable {E : FsPanic → Prop} {s : Fs} {b : Nat} {k : Fin NINODE}

@[simp] theorem wp_bread {Q : Block → Fs → Prop} : wp E (bread b) Q s ↔ Q (s.data b) s := Iff.rfl

variable {Q : Unit → Fs → Prop}

@[simp] theorem wp_modifyBuf {f : Block → Block} :
    wp E (modifyBuf b f) Q s ↔
      Q () { s with data := update s.data b (f (s.data b)) } := Iff.rfl

@[simp] theorem wp_logWrite :
    wp E (logWrite b) Q s ↔
      Q () { s with
        logged := update s.logged b (s.data b)
        lh := if b ∈ s.lh then s.lh else s.lh ++ [b] } := Iff.rfl

@[simp] theorem wp_getInode {Q : Inode → Fs → Prop} :
    wp E (getInode k) Q s ↔ Q (s.itable k) s := Iff.rfl

@[simp] theorem wp_modifyInode {f : Inode → Inode} :
    wp E (modifyInode k f) Q s ↔
      Q () { s with itable := update s.itable k (f (s.itable k)) } := Iff.rfl

theorem loose_write {data logged : Nat → Block} {d : Block} {c : Nat}
    (h : update data b d c ≠ update logged b (update data b d b) c) :
    data c ≠ logged c ∧ c ≠ b := by
  by_cases hcb : c = b
  · subst hcb
    simp at h
  · simp only [update_of_ne hcb] at h
    exact ⟨h, hcb⟩

end Basic

/-! ### `balloc` and `bfree` -/

section Blocks

variable {sb : Superblock} (hl : sb.Layout) {s : Fs}

include hl

theorem ballocFrom_spec {bs : List Nat} (hbs : ∀ b ∈ bs, b % BPB = 0)
    (hmeta : ∀ b, b < sb.datastart → (s.vol sb).used b = true) :
    wp (fun e => e = .outOfBlocks ∧ ∀ b ∈ bs, ∀ bi, bi < BPB → b + bi < sb.size →
        (s.vol sb).used (b + bi) = true)
      (ballocFrom sb bs)
      (fun b s' => b < sb.size ∧ (s.vol sb).used b = false ∧
        s'.vol sb = (s.vol sb).takeBlock b ∧ s'.itable = s.itable ∧
        (∀ c, s'.Loose c → s.Loose c ∧ c ≠ b) ∧
        s.Logs s' fun c => c = sb.BBLOCK b ∨ c = b) s := by
  induction bs with
  | nil => exact ⟨rfl, by simp⟩
  | cons b rest ih =>
    have hb := hbs b (mem_cons_self ..)
    -- bit `bi` of this bitmap block is the one for block `b + bi`
    have hsame : ∀ bi, bi < BPB → sb.BBLOCK (b + bi) = sb.BBLOCK b ∧ (b + bi) % BPB = bi := by
      intro bi hbi
      have hmod : (b + bi) % BPB = bi := by
        rw [Nat.add_mod, hb, Nat.zero_add, Nat.mod_mod, Nat.mod_eq_of_lt hbi]
      have hdiv : (b + bi) / BPB = b / BPB := by
        have h1 := Nat.div_add_mod (b + bi) BPB
        have h2 := Nat.div_add_mod b BPB
        rw [hmod] at h1
        rw [hb] at h2
        exact Nat.eq_of_mul_eq_mul_left (by decide) (show BPB * _ = BPB * _ by omega)
      exact ⟨by rw [Superblock.BBLOCK, hdiv, Superblock.BBLOCK], hmod⟩
    have hbit : ∀ bi, bi < BPB → b + bi < sb.size →
        (s.vol sb).used (b + bi) = (s.data (sb.BBLOCK b)).bit bi := by
      intro bi hbi hsize
      show (if b + bi < sb.size then diskBit sb s.data (b + bi) else true) = _
      rw [if_pos hsize, diskBit, (hsame bi hbi).1, (hsame bi hbi).2]
    unfold ballocFrom
    rw [wp_bind, wp_bread]
    cases hfind : (List.range (min BPB (sb.size - b))).find? fun bi =>
        !(s.data (sb.BBLOCK b)).bit bi with
    | none =>
      refine (ih fun c hc => hbs c (mem_cons_of_mem _ hc)).mono (fun _ _ h => h) ?_
      rintro e ⟨rfl, hrest⟩
      refine ⟨rfl, fun c hc bi hbi hsize => ?_⟩
      rcases mem_cons.mp hc with rfl | hc
      · have hnone := List.find?_eq_none.mp hfind bi (mem_range.mpr (by omega))
        rw [hbit bi hbi hsize]
        simpa using hnone
      · exact hrest c hc bi hbi hsize
    | some bi =>
      have hmem := mem_range.mp (mem_of_find?_eq_some hfind)
      have hbi : bi < BPB := by omega
      have hsize : b + bi < sb.size := by omega
      have hclear : (s.vol sb).used (b + bi) = false := by
        rw [hbit bi hbi hsize]
        simpa using List.find?_some hfind
      have hdata : sb.datastart ≤ b + bi := by
        by_contra hlt
        rw [hmeta _ (by omega)] at hclear
        cases hclear
      simp only [wp_bind, wp_modifyBuf, wp_logWrite, bzero, wp_pure]
      refine ⟨hsize, hclear, ?_, trivial, fun c hc => ?_, fun c hc => ?_⟩
      · have hbits : volOf sb (update s.data _ _) = _ := volOf_setBit hl hsize
        rw [(hsame bi hbi).1, (hsame bi hbi).2] at hbits
        show volOf sb (update _ (b + bi) Block.zero) = _
        rw [volOf_setData hl hdata, hbits]
        rfl
      · obtain ⟨hc1, hne⟩ := loose_write hc
        exact ⟨(loose_write hc1).1, hne⟩
      · rw [(hsame bi hbi).1]
        rcases mem_logged hc with hc | rfl
        · exact (mem_logged hc).imp_right .inl
        · exact .inr (.inr rfl)

/-- `balloc` takes a free block and zeroes it; it panics when there is none. -/
theorem balloc_spec (hmeta : ∀ b, b < sb.datastart → (s.vol sb).used b = true) :
    wp (fun e => e = .outOfBlocks ∧ (s.vol sb).nfree sb = 0) (balloc sb)
      (fun b s' => b < sb.size ∧ (s.vol sb).used b = false ∧
        s'.vol sb = (s.vol sb).takeBlock b ∧ s'.itable = s.itable ∧
        (∀ c, s'.Loose c → s.Loose c ∧ c ≠ b) ∧
        s.Logs s' fun c => c = sb.BBLOCK b ∨ c = b) s := by
  have hbs : ∀ b ∈ (List.range ((sb.size + BPB - 1) / BPB)).map (BPB * ·), b % BPB = 0 := by
    intro b hb
    obtain ⟨m, -, rfl⟩ := mem_map.mp hb
    exact Nat.mul_mod_right ..
  refine (ballocFrom_spec hl hbs hmeta).mono (fun _ _ h => h) ?_
  rintro e ⟨rfl, hfull⟩
  refine ⟨rfl, Vol.nfree_eq_zero fun c hc => ?_⟩
  have hpos : 0 < BPB := by decide
  have hc' := hfull (BPB * (c / BPB)) (mem_map.mpr ⟨c / BPB, mem_range.mpr ?_, rfl⟩)
    (c % BPB) (Nat.mod_lt _ hpos)
  · rw [Nat.div_add_mod] at hc'
    exact hc' hc
  · rw [Nat.div_lt_iff_lt_mul hpos]
    calc c < sb.size := hc
      _ ≤ (sb.size + BPB - 1) / BPB * BPB := by
        have := Nat.div_add_mod (sb.size + BPB - 1) BPB
        have := Nat.mod_lt (sb.size + BPB - 1) hpos
        rw [Nat.mul_comm]
        omega

/-- `bfree` panics exactly when the block is free. -/
theorem bfree_spec {b : Nat} (hb : b < sb.size) (hused : (s.vol sb).used b = true)
    {E : FsPanic → Prop} :
    wp E (bfree sb b) (fun _ s' =>
      s'.vol sb = { s.vol sb with used := update (s.vol sb).used b false } ∧
        s'.itable = s.itable ∧ (∀ c, s'.Loose c → s.Loose c) ∧
        s.Logs s' (· = sb.BBLOCK b)) s := by
  have hbit : (s.data (sb.BBLOCK b)).bit (b % BPB) = true := by
    have : (if b < sb.size then diskBit sb s.data b else true) = true := hused
    rwa [if_pos hb] at this
  unfold bfree
  rw [wp_bind, wp_bread, if_pos hbit]
  simp only [wp_bind, wp_modifyBuf, wp_logWrite]
  exact ⟨volOf_clearBit hl hb, trivial, fun c hc => (loose_write hc).1, fun c hc => mem_logged hc⟩

end Blocks

end Xv6
