import Xv6.Fs.Layout

/-!
# Volumes

What the blocks of a file system say: the inodes, the bitmap and the data blocks, each on its own.
-/

namespace Xv6

open Function Finset

/-- A disk as the inode layer sees it: inodes, the bitmap of the used blocks, and the blocks. -/
structure Vol where
  ino : Nat → Dinode
  used : Nat → Bool
  data : Nat → Block

namespace Vol

def place (n : Nat) : Nat := if n < NDIRECT then n else n + 1

theorem place_ne_indirect (n : Nat) : place n ≠ NDIRECT := by
  unfold place
  split <;> omega

theorem place_indirect {n : Nat} (hn : ¬ n < NDIRECT) : place n = NDIRECT + 1 + (n - NDIRECT) := by
  rw [place, if_neg hn]
  omega

theorem place_inj {m n : Nat} (h : place m = place n) : m = n := by
  unfold place at h
  split at h <;> split at h <;> omega

section Defs

variable (sb : Superblock) (v : Vol)

/-- The block number at place `p` of inode `i`: the direct addresses, the address of the indirect
block, then the addresses in it. -/
def addr (i p : Nat) : Nat :=
  if h : p < NDIRECT + 1 then ((v.ino i).addrs ⟨p, h⟩).toNat
  else if (v.ino i).addrs (Fin.last NDIRECT) = 0 then 0
  else (v.data ((v.ino i).addrs (Fin.last NDIRECT)).toNat).word (p - (NDIRECT + 1))

/-- Block `n` of the content of inode `i`. A block that has not been allocated reads as zeroes, so
allocating one changes no content. -/
def blk (i n : Nat) : Block :=
  if v.addr i (place n) = 0 then Block.zero else v.data (v.addr i (place n))

def Alloc (i : Nat) : Prop := i < sb.ninodes ∧ (v.ino i).type ≠ 0

/-- Block `b` is at some place of an allocated inode. -/
def Refd (b : Nat) : Prop := ∃ i p, v.Alloc sb i ∧ v.addr i p = b

/-- The blocks of inodes are data blocks and are at one place each, and the bitmap says so. The
blocks in `F` have been freed although they are still at their place. -/
structure Blocks (F : Set Nat) : Prop where
  data : ∀ i p, v.Alloc sb i → v.addr i p ≠ 0 → sb.IsData (v.addr i p)
  once : ∀ i p j q, v.Alloc sb i → v.Alloc sb j → v.addr i p ≠ 0 → v.addr i p = v.addr j q →
    i = j ∧ p = q
  used : ∀ b, b < sb.size → (v.used b = true ↔ b < sb.datastart ∨ b ∉ F ∧ v.Refd sb b)

end Defs

variable {sb : Superblock} {v v' : Vol} {i p b : Nat} {F : Set Nat}

/-! ### Places -/

theorem addr_direct (hp : p < NDIRECT + 1) : v.addr i p = ((v.ino i).addrs ⟨p, hp⟩).toNat :=
  dif_pos hp

theorem addr_last : v.addr i NDIRECT = ((v.ino i).addrs (Fin.last NDIRECT)).toNat :=
  addr_direct (Nat.lt_succ_self _)

theorem addr_indirect (hp : NDIRECT < p) :
    v.addr i p = if v.addr i NDIRECT = 0 then 0
      else (v.data (v.addr i NDIRECT)).word (p - (NDIRECT + 1)) := by
  rw [addr_last, addr, dif_neg (by omega)]
  by_cases hzero : (v.ino i).addrs (Fin.last NDIRECT) = 0
  · rw [if_pos hzero, hzero]
    rfl
  · have hne : ((v.ino i).addrs (Fin.last NDIRECT)).toNat ≠ 0 := fun h =>
      hzero (UInt32.toNat_inj.mp h)
    rw [if_neg hzero, if_neg hne]

theorem addr_congr (haddrs : (v'.ino i).addrs = (v.ino i).addrs)
    (hind : v.addr i NDIRECT ≠ 0 → v'.data (v.addr i NDIRECT) = v.data (v.addr i NDIRECT)) (p : Nat) :
    v'.addr i p = v.addr i p := by
  have hlast : v'.addr i NDIRECT = v.addr i NDIRECT := by rw [addr_last, addr_last, haddrs]
  by_cases hp : p < NDIRECT + 1
  · rw [addr_direct hp, addr_direct hp, haddrs]
  · have hp' : NDIRECT < p := by omega
    rw [addr_indirect (v := v') hp', addr_indirect (v := v) hp', hlast]
    by_cases hzero : v.addr i NDIRECT = 0
    · rw [if_pos hzero, if_pos hzero]
    · rw [if_neg hzero, if_neg hzero, hind hzero]

theorem word_zero (k : Nat) : Block.zero.word k = 0 := by
  unfold Block.word
  have h : Bytes.getLE Block.zero.byte (4 * k) 4 = 0 % 256 ^ 4 :=
    Bytes.getLE_eq fun i _ => by simp
  simpa using h

/-! ### The bitmap -/

theorem Blocks.used_of_addr (h : v.Blocks sb F) (hi : v.Alloc sb i) (hb : v.addr i p ≠ 0)
    (hF : v.addr i p ∉ F) : v.used (v.addr i p) = true :=
  (h.used _ (h.data i p hi hb).2).mpr (.inr ⟨hF, i, p, hi, rfl⟩)

theorem Blocks.of_unused (h : v.Blocks sb ∅) (hb : b < sb.size) (hfree : v.used b = false) :
    sb.IsData b ∧ ∀ i p, v.Alloc sb i → v.addr i p ≠ b := by
  have hnot : ¬ (b < sb.datastart ∨ b ∉ (∅ : Set Nat) ∧ v.Refd sb b) := by
    rw [← h.used b hb, hfree]
    simp
  rw [not_or] at hnot
  exact ⟨⟨Nat.le_of_not_lt hnot.1, hb⟩, fun i p hi hp => hnot.2 ⟨fun h => h, i, p, hi, hp⟩⟩

variable {j : Nat}

theorem alloc_congr (hsame : ∀ j, (v'.ino j).type = (v.ino j).type) :
    v'.Alloc sb j ↔ v.Alloc sb j := by
  unfold Alloc
  rw [hsame]

theorem refd_congr_of_data (hl : sb.Layout) {P Q : Prop} (h : b ≠ 0 → (P ↔ Q)) :
    b < sb.datastart ∨ P ↔ b < sb.datastart ∨ Q := by
  by_cases hb : b < sb.datastart
  · simp only [hb, true_or]
  · have hpos := hl.datastart_pos
    rw [h (by omega)]

theorem Blocks.congr (h : v.Blocks sb F) (hl : sb.Layout)
    (href : ∀ b, b ≠ 0 → ∀ j q, v'.Alloc sb j ∧ v'.addr j q = b ↔ v.Alloc sb j ∧ v.addr j q = b)
    (hused : v'.used = v.used) : v'.Blocks sb F := by
  have hsame : ∀ j q, v'.Alloc sb j → v'.addr j q ≠ 0 →
      v.Alloc sb j ∧ v.addr j q = v'.addr j q := fun j q hj hq => (href _ hq j q).mp ⟨hj, rfl⟩
  constructor
  case data =>
    intro j q hj hq
    obtain ⟨hj', hq'⟩ := hsame j q hj hq
    rw [← hq'] at hq ⊢
    exact h.data j q hj' hq
  case once =>
    intro j q m r hj hm hq heq
    obtain ⟨hj', hq'⟩ := hsame j q hj hq
    obtain ⟨hm', hr'⟩ := hsame m r hm (heq ▸ hq)
    exact h.once j q m r hj' hm' (hq' ▸ hq) (by rw [hq', hr', heq])
  case used =>
    intro c hc
    rw [hused, h.used c hc]
    refine refd_congr_of_data hl fun hc0 => and_congr_right fun _ => ?_
    exact exists_congr fun j => exists_congr fun q => (href c hc0 j q).symm

theorem Blocks.alloc (h : v.Blocks sb ∅) (hl : sb.Layout) (hi : v.Alloc sb i) (hb : b < sb.size)
    (hfree : v.used b = false) (hempty : v.addr i p = 0)
    (haddr : ∀ j q, v.Alloc sb j → v'.addr j q = if j = i ∧ q = p then b else v.addr j q)
    (htype : ∀ j, (v'.ino j).type = (v.ino j).type)
    (hused : v'.used = update v.used b true) : v'.Blocks sb ∅ := by
  obtain ⟨hdata, hnew⟩ := h.of_unused hb hfree
  have hb0 := hdata.ne_zero hl
  constructor
  case data =>
    intro j q hj hq
    have hj' := (alloc_congr htype).mp hj
    rw [haddr j q hj'] at hq ⊢
    split
    · exact hdata
    · rename_i hne
      rw [if_neg hne] at hq
      exact h.data j q hj' hq
  case once =>
    intro j q k r hj hk hq heq
    have hj' := (alloc_congr htype).mp hj
    have hk' := (alloc_congr htype).mp hk
    rw [haddr j q hj'] at hq
    rw [haddr j q hj', haddr k r hk'] at heq
    by_cases hjq : j = i ∧ q = p <;> by_cases hkr : k = i ∧ r = p
    · exact ⟨hjq.1.trans hkr.1.symm, hjq.2.trans hkr.2.symm⟩
    · rw [if_pos hjq, if_neg hkr] at heq
      exact absurd heq.symm (hnew k r hk')
    · rw [if_neg hjq, if_pos hkr] at heq
      exact absurd heq (hnew j q hj')
    · rw [if_neg hjq] at hq
      rw [if_neg hjq, if_neg hkr] at heq
      exact h.once j q k r hj' hk' hq heq
  case used =>
    intro c hc
    rw [hused]
    by_cases hcb : c = b
    · rw [hcb, update_self]
      refine ⟨fun _ => .inr ⟨fun h => h, i, p, (alloc_congr htype).mpr hi, ?_⟩, fun _ => rfl⟩
      rw [haddr i p hi, if_pos ⟨rfl, rfl⟩]
    · rw [update_of_ne hcb, h.used c hc]
      refine refd_congr_of_data hl fun hc0 => ?_
      constructor
      · rintro ⟨hF, j, q, hj, hjc⟩
        refine ⟨hF, j, q, (alloc_congr htype).mpr hj, ?_⟩
        rw [haddr j q hj, if_neg, hjc]
        rintro ⟨rfl, rfl⟩
        exact hc0 (hjc.symm.trans hempty)
      · rintro ⟨hF, j, q, hj, hjc⟩
        have hj' := (alloc_congr htype).mp hj
        rw [haddr j q hj'] at hjc
        split at hjc
        · exact absurd hjc.symm hcb
        · exact ⟨hF, j, q, hj', hjc⟩

theorem Blocks.freed (h : v.Blocks sb F) (hi : v.Alloc sb i) (hb : v.addr i p ≠ 0)
    (hused : v'.used = update v.used (v.addr i p) false) (hino : v'.ino = v.ino)
    (hdata : v'.data = v.data) : v'.Blocks sb (insert (v.addr i p) F) := by
  have haddr : ∀ j q, v'.addr j q = v.addr j q := fun j q =>
    addr_congr (by rw [hino]) (fun _ => by rw [hdata]) q
  have hrefd : ∀ c, v'.Refd sb c ↔ v.Refd sb c := by
    intro c
    simp only [Refd, Alloc, haddr, hino]
  constructor
  case data =>
    intro j q hj hq
    rw [haddr] at hq ⊢
    exact h.data j q (by simpa only [Alloc, hino] using hj) hq
  case once =>
    intro j q k r hj hk hq heq
    rw [haddr] at hq
    rw [haddr, haddr] at heq
    exact h.once j q k r (by simpa only [Alloc, hino] using hj)
      (by simpa only [Alloc, hino] using hk) hq heq
  case used =>
    intro c hc
    rw [hused, hrefd]
    by_cases hcb : c = v.addr i p
    · rw [hcb, update_self]
      have := (h.data i p hi hb).1
      simp only [Bool.false_eq_true, Set.mem_insert_iff, true_or, not_true_eq_false, false_and,
        or_false, false_iff]
      omega
    · rw [update_of_ne hcb, h.used c hc]
      simp only [Set.mem_insert_iff, hcb, false_or]

def nfree (sb : Superblock) (v : Vol) : Nat :=
  ((Finset.range sb.size).filter fun b => v.used b = false).card

theorem nfree_take (hb : b < sb.size) (hfree : v.used b = false)
    (hused : v'.used = update v.used b true) : v'.nfree sb + 1 = v.nfree sb := by
  have hmem : b ∈ (Finset.range sb.size).filter fun c => v.used c = false := by
    simp [hb, hfree]
  have herase : ((Finset.range sb.size).filter fun c => v'.used c = false)
      = ((Finset.range sb.size).filter fun c => v.used c = false).erase b := by
    ext c
    simp only [mem_filter, mem_range, mem_erase, hused]
    by_cases hcb : c = b
    · simp [hcb]
    · simp [hcb, update_of_ne]
  unfold nfree
  rw [herase, card_erase_of_mem hmem]
  exact Nat.succ_pred_eq_of_pos (card_pos.mpr ⟨b, hmem⟩)

theorem nfree_eq_zero (hfull : ∀ b, b < sb.size → v.used b = true) : v.nfree sb = 0 := by
  unfold nfree
  rw [card_eq_zero, filter_eq_empty_iff]
  intro b hb
  rw [hfull b (mem_range.mp hb)]
  simp

/-! ### Writing a data block -/

def setData (v : Vol) (b : Nat) (d : Block) : Vol := { v with data := update v.data b d }

variable {n : Nat} {d : Block}

theorem Blocks.ne_indirect (h : v.Blocks sb F) (hi : v.Alloc sb i) (hb : v.addr i (place n) ≠ 0)
    (hj : v.Alloc sb j) : v.addr j NDIRECT ≠ v.addr i (place n) := fun heq =>
  place_ne_indirect n (h.once i (place n) j NDIRECT hi hj hb heq.symm).2

theorem Blocks.addr_setData (h : v.Blocks sb F) (hi : v.Alloc sb i) (hb : v.addr i (place n) ≠ 0)
    (hj : v.Alloc sb j) (q : Nat) : (v.setData (v.addr i (place n)) d).addr j q = v.addr j q := by
  refine addr_congr ?_ (fun _ => ?_) q
  · rfl
  · exact update_of_ne (h.ne_indirect hi hb hj) ..

theorem Blocks.setData (h : v.Blocks sb F) (hi : v.Alloc sb i) (hb : v.addr i (place n) ≠ 0) :
    (v.setData (v.addr i (place n)) d).Blocks sb F := by
  have haddr : ∀ j q, v.Alloc sb j → (v.setData (v.addr i (place n)) d).addr j q = v.addr j q :=
    fun j q hj => h.addr_setData hi hb hj q
  constructor
  case data =>
    intro j q hj hq
    rw [haddr j q hj] at hq ⊢
    exact h.data j q hj hq
  case once =>
    intro j q k r hj hk hq heq
    rw [haddr j q hj] at hq
    rw [haddr j q hj, haddr k r hk] at heq
    exact h.once j q k r hj hk hq heq
  case used =>
    intro c hc
    rw [show (v.setData (v.addr i (place n)) d).used = v.used from rfl, h.used c hc]
    refine or_congr_right (and_congr_right fun _ => ?_)
    constructor
    · rintro ⟨j, q, hj, hjc⟩
      exact ⟨j, q, hj, (haddr j q hj).trans hjc⟩
    · rintro ⟨j, q, hj, hjc⟩
      exact ⟨j, q, hj, (haddr j q hj).symm.trans hjc⟩

theorem Blocks.blk_setData (h : v.Blocks sb F) (hi : v.Alloc sb i) (hb : v.addr i (place n) ≠ 0) :
    (v.setData (v.addr i (place n)) d).blk i n = d := by
  unfold blk
  rw [h.addr_setData hi hb hi, if_neg hb]
  exact update_self ..

theorem Blocks.blk_setData_ne (h : v.Blocks sb F) (hi : v.Alloc sb i) (hb : v.addr i (place n) ≠ 0)
    {m : Nat} (hj : v.Alloc sb j) (hne : ¬ (j = i ∧ m = n)) :
    (v.setData (v.addr i (place n)) d).blk j m = v.blk j m := by
  unfold blk
  rw [h.addr_setData hi hb hj]
  split
  · rfl
  · rename_i hm
    refine update_of_ne (fun heq => hne ?_) ..
    obtain ⟨hji, hmn⟩ := h.once j (place m) i (place n) hj hi hm heq
    exact ⟨hji, place_inj hmn⟩

/-! ### Allocating blocks -/

/-- `v'` is `v` with blocks of zeroes put at empty places of inode `i`. -/
structure Grows (sb : Superblock) (v v' : Vol) (i : Nat) : Prop where
  ino : ∀ j, j ≠ i → v'.ino j = v.ino j
  same : ∃ a, v'.ino i = { v.ino i with addrs := a }
  addr : ∀ j q, v.Alloc sb j → j ≠ i ∨ v.addr j q ≠ 0 → v'.addr j q = v.addr j q
  blk : ∀ j n, v.Alloc sb j → v'.blk j n = v.blk j n

theorem Grows.refl (v : Vol) (i : Nat) : Grows sb v v i where
  ino := fun _ _ => rfl
  same := ⟨_, rfl⟩
  addr := fun _ _ _ _ => rfl
  blk := fun _ _ _ => rfl

theorem Grows.type (h : Grows sb v v' i) (j : Nat) : (v'.ino j).type = (v.ino j).type := by
  by_cases hj : j = i
  · obtain ⟨a, ha⟩ := h.same
    rw [hj, ha]
  · rw [h.ino j hj]

theorem Grows.alloc (h : Grows sb v v' i) : v'.Alloc sb j ↔ v.Alloc sb j :=
  alloc_congr h.type

theorem Grows.trans {v'' : Vol} (h : Grows sb v v' i) (h' : Grows sb v' v'' i) :
    Grows sb v v'' i where
  ino := fun j hj => (h'.ino j hj).trans (h.ino j hj)
  same := by
    obtain ⟨a, ha⟩ := h.same
    obtain ⟨a', ha'⟩ := h'.same
    exact ⟨a', by rw [ha', ha]⟩
  addr := fun j q hj hq => by
    have hsame := h.addr j q hj hq
    rw [← hsame]
    exact h'.addr j q (h.alloc.mpr hj) (hsame ▸ hq)
  blk := fun j n hj => (h'.blk j n (h.alloc.mpr hj)).trans (h.blk j n hj)

/-- The volume after `balloc` has returned `b`. -/
def takeBlock (v : Vol) (b : Nat) : Vol :=
  { v with
    used := update v.used b true
    data := update v.data b Block.zero }

def setIno (v : Vol) (i : Nat) (d : Dinode) : Vol := { v with ino := update v.ino i d }

theorem addr_setIno {d : Dinode} (haddrs : d.addrs = (v.ino i).addrs) (j q : Nat) :
    (v.setIno i d).addr j q = v.addr j q := by
  refine addr_congr ?_ (fun _ => ?_) q
  · by_cases hj : j = i
    · rw [hj]
      show (update v.ino i d i).addrs = _
      rw [update_self, haddrs]
    · show (update v.ino i d j).addrs = _
      rw [update_of_ne hj]
  · rfl

theorem type_setIno {d : Dinode} (htype : d.type = (v.ino i).type) (j : Nat) :
    ((v.setIno i d).ino j).type = (v.ino j).type := by
  show (update v.ino i d j).type = _
  by_cases hj : j = i
  · rw [hj, update_self, htype]
  · rw [update_of_ne hj]

theorem blk_setIno {d : Dinode} (haddrs : d.addrs = (v.ino i).addrs) (j n : Nat) :
    (v.setIno i d).blk j n = v.blk j n := by
  unfold blk
  rw [addr_setIno haddrs]
  rfl

theorem Grows.of_alloc (hino : ∀ j, j ≠ i → v'.ino j = v.ino j)
    (hsame : ∃ a, v'.ino i = { v.ino i with addrs := a }) (hempty : v.addr i p = 0)
    (haddr : ∀ j q, v.Alloc sb j → v'.addr j q = if j = i ∧ q = p then b else v.addr j q)
    (hdata : ∀ j n, v.Alloc sb j → v.addr j (place n) ≠ 0 →
      v'.data (v.addr j (place n)) = v.data (v.addr j (place n)))
    (hzero : v'.data b = Block.zero) : Grows sb v v' i where
  ino := hino
  same := hsame
  addr := by
    intro j q hj hq
    rw [haddr j q hj, if_neg]
    rintro ⟨rfl, rfl⟩
    exact hq.elim (fun h => h rfl) fun h => h hempty
  blk := by
    intro j n hj
    unfold Vol.blk
    rw [haddr j _ hj]
    by_cases hnew : j = i ∧ place n = p
    · rw [if_pos hnew, hnew.1, hnew.2, hempty, hzero]
      simp
    · rw [if_neg hnew]
      split
      · rfl
      · rename_i hne
        exact hdata j n hj hne

section Take

variable (hl : sb.Layout) (h : v.Blocks sb ∅) (hi : v.Alloc sb i) (hb : b < sb.size)
  (hfree : v.used b = false)

include hl h hi hb hfree

theorem takeAddr (j : Fin (NDIRECT + 1)) (hempty : v.addr i j = 0) :
    let v' := (v.takeBlock b).setIno i ((v.ino i).setAddr j b)
    v'.Blocks sb ∅ ∧ Grows sb v v' i ∧
      ∀ k q, v.Alloc sb k → v'.addr k q = if k = i ∧ q = j then b else v.addr k q := by
  intro v'
  obtain ⟨hdata, hnew⟩ := h.of_unused hb hfree
  have hb0 : b ≠ 0 := hdata.ne_zero hl
  have hself : v'.ino i = (v.ino i).setAddr j b := update_self ..
  have hino : ∀ k, k ≠ i → v'.ino k = v.ino k := fun k hk => update_of_ne hk ..
  have hblock : ∀ c, c ≠ b → v'.data c = v.data c := fun c hc => update_of_ne hc ..
  have hzero : v'.data b = Block.zero := update_self ..
  have hnum : (UInt32.ofNat b).toNat = b := by
    have := hl.size
    rw [UInt32.toNat_ofNat']
    exact Nat.mod_eq_of_lt (by omega)
  -- the direct addresses and the address of the indirect block
  have hdirect : ∀ q, q < NDIRECT + 1 → v'.addr i q = if q = j then b else v.addr i q := by
    intro q hq
    rw [addr_direct hq, addr_direct hq, hself]
    show (update (v.ino i).addrs j (UInt32.ofNat b) ⟨q, hq⟩).toNat = _
    by_cases hqj : q = j
    · rw [if_pos hqj, show (⟨q, hq⟩ : Fin (NDIRECT + 1)) = j from Fin.ext hqj,
        update_self, hnum]
    · have hne : (⟨q, hq⟩ : Fin (NDIRECT + 1)) ≠ j := fun heq => hqj (congrArg Fin.val heq)
      rw [if_neg hqj, update_of_ne hne]
  have haddr : ∀ k q, v.Alloc sb k → v'.addr k q = if k = i ∧ q = j then b else v.addr k q := by
    intro k q hk
    by_cases hki : k = i
    · subst hki
      simp only [true_and]
      by_cases hq : q < NDIRECT + 1
      · exact hdirect q hq
      · have hq' : NDIRECT < q := by omega
        rw [if_neg (by omega), addr_indirect (v := v') hq', addr_indirect (v := v) hq',
          hdirect NDIRECT (Nat.lt_succ_self _)]
        by_cases hlast : NDIRECT = j
        · -- the new indirect block has no entries
          rw [if_pos hlast, if_neg hb0, hzero, word_zero, hlast, hempty]
          simp
        · rw [if_neg hlast, hblock _ (hnew k NDIRECT hk)]
    · rw [if_neg fun hand => hki hand.1]
      refine addr_congr (by rw [hino k hki]) (fun _ => ?_) q
      exact hblock _ (hnew k NDIRECT hk)
  have htype : ∀ k, (v'.ino k).type = (v.ino k).type := by
    intro k
    by_cases hki : k = i
    · rw [hki, hself]
      rfl
    · rw [hino k hki]
  refine ⟨h.alloc hl hi hb hfree hempty haddr htype rfl, ?_, haddr⟩
  exact Grows.of_alloc hino ⟨_, hself⟩ hempty haddr
    (fun k n hk _ => hblock _ (hnew k (place n) hk)) hzero

theorem takeEntry {m : Nat} (hm : m < NINDIRECT) (hind : v.addr i NDIRECT ≠ 0)
    (hempty : v.addr i (NDIRECT + 1 + m) = 0) :
    let v' := (v.takeBlock b).setData (v.addr i NDIRECT)
      ((v.data (v.addr i NDIRECT)).setWord m b)
    v'.Blocks sb ∅ ∧ Grows sb v v' i ∧ ∀ k q, v.Alloc sb k →
      v'.addr k q = if k = i ∧ q = NDIRECT + 1 + m then b else v.addr k q := by
  intro v'
  obtain ⟨hdata, hnew⟩ := h.of_unused hb hfree
  have hb0 : b ≠ 0 := hdata.ne_zero hl
  have hm' : 4 * m + 4 ≤ BSIZE := by
    simp only [NINDIRECT, BSIZE] at hm ⊢
    omega
  have hblock : ∀ c, c ≠ b → c ≠ v.addr i NDIRECT → v'.data c = v.data c := fun c hc hci => by
    show update (v.takeBlock b).data _ _ c = _
    rw [update_of_ne hci]
    exact update_of_ne hc ..
  have hindirect : v'.data (v.addr i NDIRECT) = (v.data (v.addr i NDIRECT)).setWord m b :=
    update_self ..
  have hzero : v'.data b = Block.zero := by
    show update (v.takeBlock b).data _ _ b = _
    rw [update_of_ne (hnew i NDIRECT hi).symm]
    exact update_self ..
  have haddr : ∀ k q, v.Alloc sb k →
      v'.addr k q = if k = i ∧ q = NDIRECT + 1 + m then b else v.addr k q := by
    intro k q hk
    by_cases hki : k = i
    · subst hki
      simp only [true_and]
      by_cases hq : q < NDIRECT + 1
      · rw [if_neg (by omega), addr_direct hq, addr_direct hq]
        rfl
      · have hq' : NDIRECT < q := by omega
        have hlast : v'.addr k NDIRECT = v.addr k NDIRECT := by
          rw [addr_last, addr_last]
          rfl
        rw [addr_indirect (v := v') hq', addr_indirect (v := v) hq', hlast, if_neg hind,
          if_neg hind, hindirect]
        by_cases hqm : q = NDIRECT + 1 + m
        · rw [if_pos hqm, hqm, Nat.add_sub_cancel_left]
          have := hl.size
          exact Block.word_setWord hm' (by omega)
        · rw [if_neg hqm]
          by_cases hbig : 4 * (q - (NDIRECT + 1)) + 4 ≤ BSIZE
          · exact Block.word_setWord_ne hbig (by omega)
          · have hend : BSIZE ≤ 4 * (q - (NDIRECT + 1)) := by
              simp only [BSIZE] at hbig ⊢
              omega
            rw [Block.word_of_ge hend, Block.word_of_ge hend]
    · rw [if_neg fun hand => hki hand.1]
      refine addr_congr ?_ (fun hk0 => ?_) q
      · rfl
      · refine hblock _ (hnew k NDIRECT hk) fun heq => hki ?_
        exact (h.once k NDIRECT i NDIRECT hk hi hk0 heq).1
  refine ⟨h.alloc hl hi hb hfree hempty haddr (fun _ => rfl) rfl, ?_, haddr⟩
  refine Grows.of_alloc (fun _ _ => rfl) ⟨_, rfl⟩ hempty haddr (fun k n hk hn => ?_) hzero
  refine hblock _ (hnew k (place n) hk) fun heq => ?_
  exact place_ne_indirect n (h.once k (place n) i NDIRECT hk hi hn heq).2

end Take

/-! ### Freeing blocks -/

/-- `v'` is `v` with some places of inode `i` emptied. -/
structure Shrinks (v v' : Vol) (i : Nat) : Prop where
  data : v'.data = v.data
  ino : ∀ j, j ≠ i → v'.ino j = v.ino j
  same : ∃ a, v'.ino i = { v.ino i with addrs := a }
  addr : ∀ q, v'.addr i q = v.addr i q ∨ v'.addr i q = 0

theorem Shrinks.refl (v : Vol) (i : Nat) : Shrinks v v i where
  data := rfl
  ino := fun _ _ => rfl
  same := ⟨_, rfl⟩
  addr := fun _ => .inl rfl

theorem Shrinks.trans {v'' : Vol} (h : Shrinks v v' i) (h' : Shrinks v' v'' i) :
    Shrinks v v'' i where
  data := h'.data.trans h.data
  ino := fun j hj => (h'.ino j hj).trans (h.ino j hj)
  same := by
    obtain ⟨a, ha⟩ := h.same
    obtain ⟨a', ha'⟩ := h'.same
    exact ⟨a', by rw [ha', ha]⟩
  addr := fun q => by
    rcases h'.addr q with hq | hq
    · rw [hq]
      exact h.addr q
    · exact .inr hq

theorem Shrinks.type (h : Shrinks v v' i) (j : Nat) : (v'.ino j).type = (v.ino j).type := by
  by_cases hj : j = i
  · obtain ⟨a, ha⟩ := h.same
    rw [hj, ha]
  · rw [h.ino j hj]

theorem Shrinks.addr_of_ne (h : Shrinks v v' i) (hj : j ≠ i) (q : Nat) : v'.addr j q = v.addr j q :=
  addr_congr (by rw [h.ino j hj]) (fun _ => by rw [h.data]) q

theorem Shrinks.zero_of_zero (h : Shrinks v v' i) {q : Nat} (hq : v.addr i q = 0) :
    v'.addr i q = 0 :=
  (h.addr q).elim (fun heq => heq.trans hq) id

theorem shrinks_setAddr (v : Vol) (i : Nat) (j : Fin (NDIRECT + 1)) :
    Shrinks v (v.setIno i ((v.ino i).setAddr j 0)) i ∧
      (v.setIno i ((v.ino i).setAddr j 0)).addr i j = 0 ∧
      (∀ q, q < NDIRECT + 1 → q ≠ j → (v.setIno i ((v.ino i).setAddr j 0)).addr i q = v.addr i q) ∧
      ∀ q, NDIRECT < q → j ≠ Fin.last NDIRECT →
        (v.setIno i ((v.ino i).setAddr j 0)).addr i q = v.addr i q := by
  set v' := v.setIno i ((v.ino i).setAddr j 0) with hv'
  have hself : v'.ino i = (v.ino i).setAddr j 0 := update_self ..
  have hzero : v'.addr i j = 0 := by
    rw [addr_direct j.isLt, hself]
    show (update (v.ino i).addrs j 0 j).toNat = 0
    rw [update_self]
    rfl
  have hdirect : ∀ q, q < NDIRECT + 1 → q ≠ j → v'.addr i q = v.addr i q := by
    intro q hq hqj
    rw [addr_direct hq, addr_direct hq, hself]
    show (update (v.ino i).addrs j 0 ⟨q, hq⟩).toNat = _
    rw [update_of_ne fun heq => hqj (congrArg Fin.val heq)]
  have hindirect : ∀ q, NDIRECT < q → j ≠ Fin.last NDIRECT → v'.addr i q = v.addr i q := by
    intro q hq hj
    have hlast : v'.addr i NDIRECT = v.addr i NDIRECT :=
      hdirect NDIRECT (Nat.lt_succ_self _) fun heq => hj (Fin.ext heq.symm)
    rw [addr_indirect (v := v') hq, addr_indirect (v := v) hq, hlast]
    rfl
  refine ⟨⟨rfl, fun k hk => update_of_ne hk .., ⟨_, hself⟩, fun q => ?_⟩, hzero, hdirect,
    hindirect⟩
  by_cases hq : q < NDIRECT + 1
  · by_cases hqj : q = j
    · exact .inr (hqj ▸ hzero)
    · exact .inl (hdirect q hq hqj)
  · by_cases hj : j = Fin.last NDIRECT
    · -- without an indirect block there are no entries
      refine .inr ?_
      have hlast : v'.addr i NDIRECT = 0 := by
        rw [hj] at hzero
        exact hzero
      rw [addr_indirect (by omega), if_pos hlast]
    · exact .inl (hindirect q (by omega) hj)

def blocksAt (v : Vol) (i : Nat) (P : Set Nat) : Set Nat := {c | c ≠ 0 ∧ ∃ q ∈ P, v.addr i q = c}

variable {P : Set Nat}

theorem blocksAt_congr (h : ∀ q, v'.addr i q = v.addr i q) : v'.blocksAt i P = v.blocksAt i P := by
  unfold blocksAt
  simp only [h]

theorem blocksAt_empty : v.blocksAt i ∅ = ∅ := by
  unfold blocksAt
  simp

theorem blocksAt_insert (hp : v.addr i p ≠ 0) :
    v.blocksAt i (insert p P) = insert (v.addr i p) (v.blocksAt i P) := by
  ext c
  simp only [blocksAt, Set.mem_ofPred_eq, Set.mem_insert_iff]
  constructor
  · rintro ⟨hc, q, rfl | hq, rfl⟩
    · exact .inl rfl
    · exact .inr ⟨hc, q, hq, rfl⟩
  · rintro (rfl | ⟨hc, q, hq, rfl⟩)
    · exact ⟨hp, p, .inl rfl, rfl⟩
    · exact ⟨hc, q, .inr hq, rfl⟩

theorem blocksAt_insert_zero (hp : v.addr i p = 0) :
    v.blocksAt i (insert p P) = v.blocksAt i P := by
  ext c
  simp only [blocksAt, Set.mem_ofPred_eq, Set.mem_insert_iff]
  refine and_congr_right fun hc => ⟨?_, fun ⟨q, hq, hqc⟩ => ⟨q, .inr hq, hqc⟩⟩
  rintro ⟨q, rfl | hq, hqc⟩
  · exact absurd (hqc.symm.trans hp) hc
  · exact ⟨q, hq, hqc⟩

theorem Blocks.notMem_blocksAt (h : v.Blocks sb F) (hi : v.Alloc sb i) (hj : v.Alloc sb j)
    (hp : ¬ (j = i ∧ p ∈ P)) : v.addr j p ∉ v.blocksAt i P := by
  rintro ⟨hc, q, hq, heq⟩
  obtain ⟨rfl, rfl⟩ := h.once j p i q hj hi hc heq.symm
  exact hp ⟨rfl, hq⟩

theorem Blocks.emptied (h : v.Blocks sb (v.blocksAt i P)) (hl : sb.Layout) (hi : v.Alloc sb i)
    (hv : Shrinks v v' i) (hused : v'.used = v.used) (hP : ∀ q ∈ P, v'.addr i q = 0)
    (hkeep : ∀ q, q ∉ P → v'.addr i q = v.addr i q) : v'.Blocks sb ∅ := by
  have htype : ∀ j, v'.Alloc sb j ↔ v.Alloc sb j := fun j => alloc_congr hv.type
  have haddr : ∀ j q, ¬ (j = i ∧ q ∈ P) → v'.addr j q = v.addr j q := by
    intro j q hjq
    by_cases hji : j = i
    · subst hji
      exact hkeep q fun hq => hjq ⟨rfl, hq⟩
    · exact hv.addr_of_ne hji q
  have hnonzero : ∀ j q, v'.addr j q ≠ 0 → ¬ (j = i ∧ q ∈ P) := by
    rintro j q hq ⟨rfl, hqP⟩
    exact hq (hP q hqP)
  constructor
  case data =>
    intro j q hj hq
    have hsame := haddr j q (hnonzero j q hq)
    rw [hsame] at hq ⊢
    exact h.data j q ((htype j).mp hj) hq
  case once =>
    intro j q m r hj hm hq heq
    have hr : v'.addr m r ≠ 0 := fun hr => hq (heq.trans hr)
    rw [haddr j q (hnonzero j q hq), haddr m r (hnonzero m r hr)] at heq
    rw [haddr j q (hnonzero j q hq)] at hq
    exact h.once j q m r ((htype j).mp hj) ((htype m).mp hm) hq heq
  case used =>
    intro c hc
    rw [hused, h.used c hc]
    refine refd_congr_of_data hl fun hc0 => ?_
    constructor
    · rintro ⟨hF, j, q, hj, hjc⟩
      refine ⟨fun h => h, j, q, (htype j).mpr hj, ?_⟩
      rw [haddr j q ?_]
      · exact hjc
      · rintro ⟨rfl, hq⟩
        exact hF ⟨hc0, q, hq, hjc⟩
    · rintro ⟨-, j, q, hj, hjc⟩
      have hjq := hnonzero j q (hjc ▸ hc0)
      have hj' := (htype j).mp hj
      rw [haddr j q hjq] at hjc
      exact ⟨hjc ▸ h.notMem_blocksAt hi hj' hjq, j, q, hj', hjc⟩

end Vol

end Xv6
