import Xv6.Fs.Content

/-!
# Reading and writing files

`readi` and `writei` go through the content of an inode block by block. Their specifications
speak of its bytes (`Vol.fileByte`), so the block boundaries and the step from direct to indirect
blocks do not show.
-/

namespace Xv6

open Prog Vol Function List UInt32

def Vol.fileByte (v : Vol) (i o : Nat) : UInt8 := (v.blk i (o / BSIZE)).byte (o % BSIZE)

def Vol.size (v : Vol) (i : Nat) : Nat := (v.ino i).size.toNat

/-- Inode `i` is not too large and has every block its size asks for. -/
def Vol.Covered (v : Vol) (i : Nat) : Prop :=
  v.size i ≤ MAXFILE * BSIZE ∧ ∀ n, n * BSIZE < v.size i → v.addr i (place n) ≠ 0

/-! ### Copies to and from user memory -/

theorem mapped_le (ok : Nat → Bool) (tot m : Nat) : mapped ok tot m ≤ m := by
  induction m generalizing tot with
  | zero => exact le_rfl
  | succ m ih =>
    unfold mapped
    split
    · exact Nat.succ_le_succ (ih (tot + 1))
    · exact Nat.zero_le _

variable {m tot : Nat} {ok : Nat → Bool}

theorem mapped_lt (h : mapped ok tot m < m) :
    ∃ j, j < m ∧ ok (tot + j) = false := by
  induction m generalizing tot with
  | zero => exact absurd h (Nat.not_lt_zero _)
  | succ m ih =>
    unfold mapped at h
    split at h
    · obtain ⟨j, hj, hok⟩ := ih (Nat.lt_of_succ_lt_succ h)
      exact ⟨j + 1, by omega, by rw [← hok]; congr 1; omega⟩
    · rename_i hok
      exact ⟨0, Nat.succ_pos m, by simpa using hok⟩

theorem ok_of_lt_mapped {j : Nat} (h : j < mapped ok tot m) :
    ok (tot + j) = true := by
  induction m generalizing tot j with
  | zero => exact absurd h (Nat.not_lt_zero _)
  | succ m ih =>
    unfold mapped at h
    split at h
    · rename_i hok
      cases j with
      | zero => exact hok
      | succ j =>
        rw [show tot + (j + 1) = tot + 1 + j by omega]
        exact ih (Nat.lt_of_succ_lt_succ h)
    · exact absurd h (Nat.not_lt_zero _)

theorem mapped_stop (h : mapped ok tot m < m) :
    ok (tot + mapped ok tot m) = false := by
  induction m generalizing tot with
  | zero => exact absurd h (Nat.not_lt_zero _)
  | succ m ih =>
    unfold mapped at h ⊢
    split
    · rename_i hok
      rw [if_pos hok] at h
      rw [show tot + (mapped ok (tot + 1) m + 1) = tot + 1 + mapped ok (tot + 1) m by omega]
      exact ih (by omega)
    · rename_i hok
      simpa using hok

section Read

variable {sb : Superblock} {s : Fs} {k : Fin NINODE}

theorem Work.data_eq_blk (h : Work sb s k) {n : Nat}
    (hn : (s.volAt sb k).addr (s.itable k).inum (place n) ≠ 0) :
    s.data ((s.volAt sb k).addr (s.itable k).inum (place n))
      = (s.volAt sb k).blk (s.itable k).inum n := by
  rw [Vol.blk, if_neg hn]
  exact (if_pos (h.blocks.data _ _ h.alloc hn).1).symm

theorem div_add_of_lt {o j : Nat} (h : o % BSIZE + j < BSIZE) :
    (o + j) / BSIZE = o / BSIZE ∧ (o + j) % BSIZE = o % BSIZE + j := by
  simp only [BSIZE] at h ⊢
  omega

/-- The loop of `readi`. The bytes stored so far are the first `tot` of the range. -/
theorem readiLoop_spec (h : Work sb s k) {dst : Nat → Bool} {n off fuel : Nat} (tot : Nat)
    (hcov : ∀ o, o < off + n → o / BSIZE < MAXFILE ∧
      (s.volAt sb k).addr (s.itable k).inum (place (o / BSIZE)) ≠ 0)
    (htot : tot ≤ n) (hfuel : n - tot ≤ fuel) (hok : ∀ j, j < tot → dst j = true) :
    wp (fun _ => False)
      (readiLoop sb k dst n fuel tot (off + tot)
        ((List.range tot).map fun j => (s.volAt sb k).fileByte (s.itable k).inum (off + j)))
      (fun r s' => s' = s ∧ ∃ m, m ≤ n ∧
        r.2 = (List.range m).map (fun j => (s.volAt sb k).fileByte (s.itable k).inum (off + j)) ∧
        (∀ j, j < m → dst j = true) ∧
        (r.1 = n ∧ m = n ∨ r.1 = -1 ∧ m < n ∧ dst m = false)) s := by
  induction fuel generalizing tot with
  | zero =>
    unfold readiLoop
    rw [wp_pure]
    obtain rfl : tot = n := by omega
    exact ⟨rfl, tot, le_rfl, rfl, hok, .inl ⟨rfl, rfl⟩⟩
  | succ fuel ih =>
    unfold readiLoop
    rw [wp_ite]
    refine ⟨fun hlt => ?_, fun hge => ?_⟩
    · obtain ⟨hmax, hne⟩ := hcov (off + tot) (by omega)
      rw [wp_bind]
      refine (bmap_read h hmax hne).call ?_
      rintro b s1 ⟨rfl, hb⟩
      rw [wp_bind, wp_bread, hb, h.data_eq_blk hne]
      set m := min (n - tot) (BSIZE - (off + tot) % BSIZE) with hm
      have hm0 : 0 < m := by
        have := Nat.mod_lt (off + tot) (show 0 < BSIZE by decide)
        omega
      have hmn : tot + m ≤ n := by omega
      -- the bytes of the piece
      have hpiece : ∀ got, got ≤ m →
          ((List.range tot).map fun j => (s1.volAt sb k).fileByte (s1.itable k).inum (off + j)) ++
            ((List.range got).map fun j => ((s1.volAt sb k).blk (s1.itable k).inum
              ((off + tot) / BSIZE)).byte ((off + tot) % BSIZE + j))
          = (List.range (tot + got)).map
              fun j => (s1.volAt sb k).fileByte (s1.itable k).inum (off + j) := by
        intro got hgot
        rw [range_add, map_append, map_map]
        congr 1
        refine map_congr_left fun j hj => ?_
        have hj' := mem_range.mp hj
        obtain ⟨hdiv, hmod⟩ := div_add_of_lt (o := off + tot) (j := j) (by omega)
        show _ = (s1.volAt sb k).fileByte (s1.itable k).inum (off + (tot + j))
        rw [Vol.fileByte, ← Nat.add_assoc, hdiv, hmod]
      have hle := mapped_le dst tot m
      have hok' : ∀ j, j < tot + mapped dst tot m → dst j = true := by
        intro j hj
        by_cases hjt : j < tot
        · exact hok j hjt
        · rw [← Nat.add_sub_cancel' (Nat.le_of_not_lt hjt)]
          exact ok_of_lt_mapped (m := m) (by omega)
      dsimp only
      rw [hpiece _ hle, wp_ite]
      refine ⟨fun hshort => ?_, fun hfull => ?_⟩
      · exact ⟨rfl, tot + mapped dst tot m, by omega, rfl, hok',
          .inr ⟨rfl, by omega, mapped_stop hshort⟩⟩
      · have hm' : mapped dst tot m = m := by omega
        rw [hm'] at hok'
        rw [hm', Nat.add_assoc]
        exact ih _ hmn (by omega) hok'
    · obtain rfl : tot = n := by omega
      exact ⟨rfl, tot, le_rfl, rfl, hok, .inl ⟨rfl, rfl⟩⟩

/-- How many bytes `readi(off, n)` reads of a file of `size` bytes. -/
def readLen (size off n : Nat) : Nat := if size < off ∨ 2 ^ 32 ≤ off + n then 0 else min n (size - off)

theorem wraps_iff (off n : UInt32) : off + n < off ↔ 2 ^ 32 ≤ off.toNat + n.toNat := by
  have h1 := off.toNat_lt
  have h2 := n.toNat_lt
  rw [lt_iff_toNat_lt, UInt32.toNat_add]
  omega

theorem toNat_add_of_not_wraps {off n : UInt32} (h : ¬ off + n < off) :
    (off + n).toNat = off.toNat + n.toNat := by
  rw [wraps_iff] at h
  rw [UInt32.toNat_add]
  exact Nat.mod_eq_of_lt (by omega)

theorem readi_spec (h : Work sb s k) (hcov : (s.volAt sb k).Covered (s.itable k).inum)
    (dst : Nat → Bool) (off n : UInt32) :
    wp (fun _ => False) (readi sb k dst off n) (fun r s' => s' = s ∧
      ∃ m, m ≤ readLen ((s.volAt sb k).size (s.itable k).inum) off.toNat n.toNat ∧
        r.2 = (List.range m).map (fun j =>
          (s.volAt sb k).fileByte (s.itable k).inum (off.toNat + j)) ∧
        (∀ j, j < m → dst j = true) ∧
        (r.1 = readLen ((s.volAt sb k).size (s.itable k).inum) off.toNat n.toNat ∧
            m = readLen ((s.volAt sb k).size (s.itable k).inum) off.toNat n.toNat ∨
          r.1 = -1 ∧ m < readLen ((s.volAt sb k).size (s.itable k).inum) off.toNat n.toNat ∧
            dst m = false)) s := by
  have hsize : (s.volAt sb k).size (s.itable k).inum = (s.itable k).din.size.toNat := by
    rw [Vol.size, Fs.volAt_ino]
  unfold readi
  rw [wp_bind, wp_getInode, wp_ite]
  constructor
  · intro hbad
    rw [wp_pure]
    have hlen : readLen ((s.volAt sb k).size (s.itable k).inum) off.toNat n.toNat = 0 := by
      rw [readLen, if_pos]
      rw [hsize]
      exact hbad.imp (fun h => lt_iff_toNat_lt.mp h) (wraps_iff off n).mp
    exact ⟨rfl, 0, Nat.zero_le _, rfl, fun j hj => absurd hj (Nat.not_lt_zero j),
      .inl ⟨by rw [hlen]; rfl, hlen.symm⟩⟩
  · intro hgood
    rw [not_or] at hgood
    have hoff : off.toNat ≤ (s.itable k).din.size.toNat :=
      Nat.le_of_not_lt fun hlt => hgood.1 (lt_iff_toNat_lt.mpr hlt)
    -- the number of bytes, cut at the end of the file
    have hlen : (if off + n > (s.itable k).din.size then (s.itable k).din.size - off else n).toNat
        = readLen ((s.volAt sb k).size (s.itable k).inum) off.toNat n.toNat := by
      have hsum := toNat_add_of_not_wraps hgood.2
      have hwraps := (wraps_iff off n).not.mp hgood.2
      have hok : ¬ ((s.itable k).din.size.toNat < off.toNat ∨ 2 ^ 32 ≤ off.toNat + n.toNat) := by
        omega
      rw [readLen, hsize, if_neg hok]
      split
      · rename_i hend
        have hend' := lt_iff_toNat_lt.mp hend
        rw [UInt32.toNat_sub_of_le _ _ (le_iff_toNat_le.mpr hoff)]
        omega
      · rename_i hend
        have hend' : ¬ (s.itable k).din.size.toNat < (off + n).toNat := fun hlt =>
          hend (lt_iff_toNat_lt.mpr hlt)
        omega
    dsimp only
    rw [hlen]
    have hle : off.toNat + readLen ((s.volAt sb k).size (s.itable k).inum) off.toNat n.toNat
        ≤ (s.volAt sb k).size (s.itable k).inum := by
      unfold readLen
      rw [hsize]
      split <;> omega
    refine readiLoop_spec h 0 (fun o ho => ?_) (Nat.zero_le _) (by omega)
      fun j hj => absurd hj (Nat.not_lt_zero j)
    have hlt : o / BSIZE * BSIZE < (s.volAt sb k).size (s.itable k).inum :=
      (Nat.div_mul_le_self o BSIZE).trans_lt (ho.trans_le hle)
    refine ⟨?_, hcov.2 _ hlt⟩
    exact Nat.lt_of_mul_lt_mul_right (hlt.trans_le hcov.1)

end Read

/-! ### `writei` -/

/-- `v'` is `v` with the first `w` bytes of `src` written at `off` of inode `i`; of the bytes after
them, those in the range of `n` bytes may have changed too. -/
structure Wrote (sb : Superblock) (v v' : Vol) (i off w n : Nat) (src : Nat → UInt8) : Prop where
  ino : ∀ j, j ≠ i → v'.ino j = v.ino j
  same : ∃ a, v'.ino i = { v.ino i with addrs := a }
  addr : ∀ j q, v.Alloc sb j → j ≠ i ∨ v.addr j q ≠ 0 → v'.addr j q = v.addr j q
  blk : ∀ j m, v.Alloc sb j → j ≠ i → v'.blk j m = v.blk j m
  done : ∀ o, off ≤ o → o < off + w → v'.fileByte i o = src (o - off)
  rest : ∀ o, o < off ∨ off + n ≤ o → v'.fileByte i o = v.fileByte i o

namespace Wrote

variable {sb : Superblock} {v v' v'' : Vol} {i off w n : Nat} {src : Nat → UInt8}

theorem type (h : Wrote sb v v' i off w n src) (j : Nat) : (v'.ino j).type = (v.ino j).type := by
  by_cases hj : j = i
  · obtain ⟨a, ha⟩ := h.same
    rw [hj, ha]
  · rw [h.ino j hj]

theorem nothing (v : Vol) (i off n : Nat) (src : Nat → UInt8) : Wrote sb v v i off 0 n src where
  ino := fun _ _ => rfl
  same := ⟨_, rfl⟩
  addr := fun _ _ _ _ => rfl
  blk := fun _ _ _ _ => rfl
  done := fun o ho hlt => absurd hlt (by omega)
  rest := fun _ _ => rfl

theorem weaken {w' n' : Nat} (h : Wrote sb v v' i off w n src) (hw : w' ≤ w) (hn : n ≤ n') :
    Wrote sb v v' i off w' n' src :=
  { h with
    done := fun o ho hlt => h.done o ho (by omega)
    rest := fun o ho => h.rest o (by omega) }

theorem append {r : Nat} {src' : Nat → UInt8} (h : Wrote sb v v' i off m m src)
    (h' : Wrote sb v' v'' i (off + m) w r src') (hsrc : ∀ j, src' j = src (m + j)) :
    Wrote sb v v'' i off (m + w) (m + r) src where
  ino := fun j hj => (h'.ino j hj).trans (h.ino j hj)
  same := by
    obtain ⟨a, ha⟩ := h.same
    obtain ⟨a', ha'⟩ := h'.same
    exact ⟨a', by rw [ha', ha]⟩
  addr := fun j q hj hq => by
    have hsame := h.addr j q hj hq
    rw [← hsame]
    exact h'.addr j q ((Vol.alloc_congr h.type).mpr hj) (hsame ▸ hq)
  blk := fun j m hj hji =>
    (h'.blk j m ((Vol.alloc_congr h.type).mpr hj) hji).trans (h.blk j m hj hji)
  done := by
    intro o ho hlt
    by_cases hm : o < off + m
    · rw [h'.rest o (.inl hm)]
      exact h.done o ho hm
    · rw [h'.done o (by omega) (by omega), hsrc]
      congr 1
      omega
  rest := fun o ho => (h'.rest o (by omega)).trans (h.rest o (by omega))

theorem piece {v₁ : Vol} (hgrows : Grows sb v v₁ i) (hblocks : v₁.Blocks sb ∅) (hi : v.Alloc sb i)
    (hne : v₁.addr i (place (off / BSIZE)) ≠ 0) (hm : m ≤ BSIZE - off % BSIZE) (src : Nat → UInt8) :
    Wrote sb v (v₁.setData (v₁.addr i (place (off / BSIZE))) (Block.ofFn
      (Bytes.blit (v₁.blk i (off / BSIZE)).byte (off % BSIZE) m src))) i off m m src := by
  have hi1 : v₁.Alloc sb i := hgrows.alloc.mpr hi
  have hmod := Nat.mod_lt off (show 0 < BSIZE by decide)
  -- the bytes of the block written, and of the others
  have hself : ∀ o, o / BSIZE = off / BSIZE →
      (v₁.setData (v₁.addr i (place (off / BSIZE))) (Block.ofFn
        (Bytes.blit (v₁.blk i (off / BSIZE)).byte (off % BSIZE) m src))).fileByte i o
      = Bytes.blit (v₁.blk i (off / BSIZE)).byte (off % BSIZE) m src (o % BSIZE) := by
    intro o ho
    rw [Vol.fileByte, ho, hblocks.blk_setData hi1 hne,
      Block.byte_ofFn (Nat.mod_lt _ (by decide))]
  exact {
    ino := hgrows.ino
    same := hgrows.same
    addr := fun j q hj hq => by
      rw [hblocks.addr_setData hi1 hne (hgrows.alloc.mpr hj)]
      exact hgrows.addr j q hj hq
    blk := fun j n hj hji => by
      rw [hblocks.blk_setData_ne hi1 hne (hgrows.alloc.mpr hj) fun h => hji h.1]
      exact hgrows.blk j n hj
    done := fun o ho hlt => by
      obtain ⟨hdiv, hmod'⟩ := div_add_of_lt (o := off) (j := o - off) (by omega)
      rw [Nat.add_sub_cancel' ho] at hdiv hmod'
      rw [hself o hdiv, hmod', Bytes.blit_of_mem (by omega), Nat.add_sub_cancel_left]
    rest := fun o ho => by
      by_cases hdiv : o / BSIZE = off / BSIZE
      · have hout : o % BSIZE < off % BSIZE ∨ off % BSIZE + m ≤ o % BSIZE := by
          have h1 := Nat.div_add_mod o BSIZE
          have h2 := Nat.div_add_mod off BSIZE
          rw [hdiv] at h1
          omega
        rw [hself o hdiv, Bytes.blit_of_notMem hout, hgrows.blk i _ hi, ← hdiv]
        rfl
      · unfold Vol.fileByte
        rw [hblocks.blk_setData_ne hi1 hne hi1 fun h => hdiv h.2, hgrows.blk i _ hi] }

end Wrote

section Write

variable {sb : Superblock} (hl : sb.Layout) {s : Fs} {k : Fin NINODE}

/-- How many blocks the `n` bytes at `off` are in. -/
def spans (off n : Nat) : Nat := (off % BSIZE + n + BSIZE - 1) / BSIZE

variable {off : Nat}

theorem spans_append (hm : m = BSIZE - off % BSIZE) (n : Nat) :
    spans off (m + n) = spans off m + spans (off + m) n := by
  have hmod := Nat.mod_lt off (show 0 < BSIZE by decide)
  unfold spans
  simp only [BSIZE] at hmod hm ⊢
  omega

include hl

/-- A block of the content is changed; `log_write` may be left out for plain files. -/
theorem Work.setData (h : Work sb s k) (s' : Fs) {bn : Nat}
    (hne : (s.volAt sb k).addr (s.itable k).inum (place bn) ≠ 0) {d : Block}
    (hdata : s'.data = update s.data ((s.volAt sb k).addr (s.itable k).inum (place bn)) d)
    (htable : s'.itable = s.itable) (hloose : ∀ c, s'.Loose c → s.Loose c ∨
      c = (s.volAt sb k).addr (s.itable k).inum (place bn) ∧ (s.itable k).din.type ≠ T_DIR) :
    Work sb s' k ∧ s'.volAt sb k
      = (s.volAt sb k).setData ((s.volAt sb k).addr (s.itable k).inum (place bn)) d := by
  have hisData := h.blocks.data _ _ h.alloc hne
  have hv : s'.volAt sb k
      = (s.volAt sb k).setData ((s.volAt sb k).addr (s.itable k).inum (place bn)) d := by
    unfold Fs.volAt Fs.vol
    rw [htable, hdata, volOf_setData hl hisData.1]
    rfl
  refine ⟨⟨by rw [htable]; exact h.inum, by rw [htable]; exact h.type, ?_, ?_⟩, hv⟩
  · rw [hv]
    exact h.blocks.setData h.alloc hne
  · rw [hv]
    intro c hc
    have haddr : ∀ j q, (s.volAt sb k).Alloc sb j →
        ((s.volAt sb k).setData ((s.volAt sb k).addr (s.itable k).inum (place bn)) d).addr j q
          = (s.volAt sb k).addr j q := fun j q hj => h.blocks.addr_setData h.alloc hne hj q
    rcases hloose c hc with hold | ⟨rfl, htype⟩
    · obtain ⟨hcData, hplace⟩ := h.tidy c hold
      exact ⟨hcData, fun j q hj hq => hplace j q hj ((haddr j q hj).symm.trans hq)⟩
    · refine ⟨hisData, fun j q hj hq => ?_⟩
      rw [haddr j q hj] at hq
      obtain ⟨rfl, rfl⟩ := h.blocks.once _ _ j q h.alloc hj hne hq.symm
      refine ⟨place_ne_indirect bn, ?_⟩
      show ((s.volAt sb k).ino _).type ≠ T_DIR
      rw [Fs.volAt_ino]
      exact htype

/-- What `writeiLoop` has done when it returns `r`: `w` of the `n` bytes at `off`. -/
structure WriteiPost (sb : Superblock) (s : Fs) (k : Fin NINODE) (off n : Nat)
    (src : Nat → Option UInt8) (w : Nat) (s' : Fs) : Prop where
  work : Work sb s' k
  only : Only s s' k
  wrote : Wrote sb (s.volAt sb k) (s'.volAt sb k) (s.itable k).inum off w n fun j => (src j).getD 0
  covered : ∀ o, off ≤ o → o < off + w →
    (s'.volAt sb k).addr (s.itable k).inum (place (o / BSIZE)) ≠ 0
  nfree : (s.volAt sb k).nfree sb ≤ (s'.volAt sb k).nfree sb + 2 * spans off n
  le : w ≤ n
  short : w = n ∨ ∃ j, j < n ∧ src j = none
  logs : ∃ bs : List Nat, bs.length ≤ spans off n ∧ s.Logs s' fun c =>
    sb.IsBitmap c ∨ c ≠ 0 ∧ c = (s'.volAt sb k).addr (s.itable k).inum NDIRECT ∨ c ∈ bs

omit hl in
theorem WriteiPost.nothing (h : Work sb s k) (off : Nat) (src : Nat → Option UInt8) :
    WriteiPost sb s k off 0 src 0 s where
  work := h
  only := .refl s k
  wrote := Wrote.nothing ..
  covered := by omega
  nfree := Nat.le_add_right ..
  le := le_rfl
  short := .inl rfl
  logs := ⟨[], Nat.zero_le _, .of_eq rfl⟩

variable {src : Nat → Option UInt8} {n : Nat} {s' : Fs}

omit hl in
theorem WriteiPost.weaken {j : Nat} (h : WriteiPost sb s k off m src 0 s') (hm : m ≤ n) (hj : j < m)
    (hnone : src j = none) :
    WriteiPost sb s k off n src 0 s' := by
  have hspans : spans off m ≤ spans off n := Nat.div_le_div_right (by omega)
  exact { h with
    wrote := h.wrote.weaken le_rfl hm
    nfree := by
      have := h.nfree
      omega
    le := Nat.zero_le _
    short := .inr ⟨j, by omega, hnone⟩
    logs := by
      obtain ⟨bs, hlen, hlogs⟩ := h.logs
      exact ⟨bs, hlen.trans hspans, hlogs⟩ }

variable {w : Nat} {s1 : Fs}

omit hl in
theorem WriteiPost.append (h : WriteiPost sb s k off m src m s1) (hend : m = BSIZE - off % BSIZE)
    (h' : WriteiPost sb s1 k (off + m) n (fun j => src (m + j)) w s') :
    WriteiPost sb s k off (m + n) src (m + w) s' := by
  have hinum := h.only.inum
  have halloc := h.work.alloc
  have hwrote := h'.wrote
  have hcovered := h'.covered
  rw [hinum] at hwrote hcovered halloc
  have hle := h'.le
  refine ⟨h'.work, h.only.trans h'.only, h.wrote.append hwrote fun _ => rfl, fun o ho hlt => ?_, ?_,
    by omega, ?_, ?_⟩
  · by_cases hfirst : o < off + m
    · have hne := h.covered o ho hfirst
      rw [hwrote.addr _ _ halloc (.inr hne)]
      exact hne
    · exact hcovered o (by omega) (by omega)
  · have hspans := spans_append hend n
    have h1 := h.nfree
    have h2 := h'.nfree
    omega
  · rcases h'.short with hall | ⟨j, hj, hnone⟩
    · exact .inl (by omega)
    · exact .inr ⟨m + j, by omega, hnone⟩
  · obtain ⟨bs, hlen, hlogs⟩ := h.logs
    obtain ⟨bs', hlen', hlogs'⟩ := h'.logs
    refine ⟨bs ++ bs', ?_, Fs.Logs.trans (hlogs.mono fun c hc => ?_) (hlogs'.mono fun c hc => ?_)⟩
    · rw [length_append, spans_append hend n]
      omega
    · refine hc.imp_right fun hc => hc.imp (fun hc => ⟨hc.1, ?_⟩) (mem_append_left _)
      -- the indirect block stays where it is
      rw [hwrote.addr _ _ halloc (.inr (hc.2 ▸ hc.1))]
      exact hc.2
    · rw [hinum] at hc
      exact hc.imp_right fun hc => hc.imp_right (mem_append_right _)

/-- One round of the loop of `writei`: `got` of the `m` bytes of the piece have been copied into
the block from `bmap`. A block not logged is one of a plain file. -/
theorem writei_piece (src : Nat → Option UInt8) {got : Nat} (h : Work sb s k) (hwork : Work sb s1 k)
    (honly : Only s s1 k) (hgrows : Grows sb (s.volAt sb k) (s1.volAt sb k) (s.itable k).inum)
    (hne : (s1.volAt sb k).addr (s.itable k).inum (place (off / BSIZE)) ≠ 0)
    (hnfree : (s.volAt sb k).nfree sb ≤ (s1.volAt sb k).nfree sb + 2) (hm0 : 0 < m)
    (hm : m ≤ BSIZE - off % BSIZE) (hgot : got ≤ m) (hw : w ≤ got)
    (hshort : w = m ∨ ∃ j, j < m ∧ src j = none) (s2 : Fs) (hdata : s2.data = update s1.data
      ((s1.volAt sb k).addr (s.itable k).inum (place (off / BSIZE)))
      (Block.ofFn (Bytes.blit (s1.data ((s1.volAt sb k).addr (s.itable k).inum
        (place (off / BSIZE)))).byte (off % BSIZE) got fun j => (src j).getD 0)))
    (htable : s2.itable = s1.itable) (hloose : ∀ c, s2.Loose c → s1.Loose c ∨
      c = (s1.volAt sb k).addr (s.itable k).inum (place (off / BSIZE)) ∧
        (s.itable k).din.type ≠ T_DIR) (hlogs1 : s.Logs s1 fun c => sb.IsBitmap c ∨
      c ≠ 0 ∧ c = (s1.volAt sb k).addr (s.itable k).inum NDIRECT ∨
      c = (s1.volAt sb k).addr (s.itable k).inum (place (off / BSIZE)))
    (hlogs2 : s1.Logs s2 (· = (s1.volAt sb k).addr (s.itable k).inum (place (off / BSIZE)))) :
    WriteiPost sb s k off m src w s2 := by
  have hinum : (s1.itable k).inum = (s.itable k).inum := honly.inum
  have htype : (s1.itable k).din.type = (s.itable k).din.type := by
    rw [← Fs.volAt_ino sb s1 k, hinum, hgrows.type, Fs.volAt_ino]
  have hne1 := hne
  have hwrote := Wrote.piece (m := got) hgrows hwork.blocks h.alloc hne (hgot.trans hm)
    fun j => (src j).getD 0
  rw [← hinum] at hdata hloose hne1
  rw [← htype] at hloose
  rw [hwork.data_eq_blk hne1] at hdata
  obtain ⟨hwork2, hv2⟩ := hwork.setData hl s2 hne1 hdata htable hloose
  rw [hinum] at hv2
  rw [← hv2] at hwrote
  have halloc : (s1.volAt sb k).Alloc sb (s.itable k).inum := hinum ▸ hwork.alloc
  have haddr (q : Nat) : (s2.volAt sb k).addr (s.itable k).inum q
      = (s1.volAt sb k).addr (s.itable k).inum q := by
    rw [hv2, hwork.blocks.addr_setData halloc hne halloc]
  have hspan : 1 ≤ spans off m := by
    unfold spans
    simp only [BSIZE]
    omega
  refine ⟨hwork2, honly.trans (.of_eq htable), hwrote.weaken hw hgot, fun o ho hlt => ?_, ?_,
    hw.trans hgot, hshort, [_], hspan, Fs.Logs.trans (hlogs1.mono fun c hc => ?_)
      (hlogs2.mono fun c hc => .inr (.inr (mem_singleton.mpr hc)))⟩
  · have hdiv := (div_add_of_lt (o := off) (j := o - off) (by omega)).1
    rw [Nat.add_sub_cancel' ho] at hdiv
    rw [hdiv, haddr]
    exact hne
  · rw [hv2]
    show _ ≤ (s1.volAt sb k).nfree sb + _
    omega
  · rw [haddr]
    exact hc.imp_right fun hc => hc.imp_right mem_singleton.mpr

variable {E : FsPanic → Prop}

omit hl in
theorem writeiLoop_end {fuel : Nat} {Q : Nat × Nat → Fs → Prop} (hQ : Q (n, off) s) :
    wp E (writeiLoop sb k src n fuel n off) Q s := by
  cases fuel with
  | zero => exact hQ
  | succ fuel =>
    unfold writeiLoop
    rw [if_neg (lt_irrefl n)]
    exact hQ

theorem writeiLoop_spec (src : Nat → Option UInt8) (n off fuel tot : Nat) (h : Work sb s k)
    (hsrc : (∀ j, j < n → src j ≠ none) ∨ (s.itable k).din.type ≠ T_DIR)
    (hmax : off + (n - tot) ≤ MAXFILE * BSIZE) (htot : tot ≤ n) (hfuel : n - tot ≤ fuel) :
    wp (fun e => e = .outOfBlocks ∧ (s.volAt sb k).nfree sb < 2 * spans off (n - tot))
      (writeiLoop sb k src n fuel tot off)
      (fun r s' => ∃ w, r = (tot + w, off + w) ∧
        WriteiPost sb s k off (n - tot) (fun j => src (tot + j)) w s') s := by
  induction fuel generalizing tot off s with
  | zero =>
    obtain rfl : tot = n := by omega
    rw [Nat.sub_self]
    exact ⟨0, rfl, .nothing h off _⟩
  | succ fuel ih =>
    by_cases hlt : tot < n
    swap
    · obtain rfl : tot = n := by omega
      rw [Nat.sub_self]
      exact writeiLoop_end ⟨0, rfl, .nothing h off _⟩
    unfold writeiLoop
    rw [if_pos hlt, wp_bind]
    have hbn : off / BSIZE < MAXFILE := by
      rw [Nat.div_lt_iff_lt_mul (by decide)]
      omega
    have hmod := Nat.mod_lt off (show 0 < BSIZE by decide)
    refine (bmap_spec hl h hbn).mono (fun b s1 hpost => ?_) ?_
    swap
    · rintro e ⟨rfl, hnone⟩
      have hspan : 1 ≤ spans off (n - tot) := by
        unfold spans
        simp only [BSIZE] at hmod ⊢
        omega
      exact ⟨rfl, by omega⟩
    obtain ⟨hwork1, honly1, hgrows, rfl, hne, hnfree, -, -, hlogs⟩ := hpost
    dsimp only
    set m := min (n - tot) (BSIZE - off % BSIZE) with hm
    have hle := mapped_le (fun j => (src j).isSome) tot m
    set got := mapped (fun j => (src j).isSome) tot m with hgot
    have hpiece := fun w => writei_piece hl (w := w) (m := m) (fun j => src (tot + j)) h hwork1
      honly1 hgrows hne hnfree (by omega) (by omega) hle
    -- the rest of the loop, when the piece has been written and logged
    have hrest : ∀ s2, WriteiPost sb s k off m (fun j => src (tot + j)) m s2 →
        wp (fun e => e = .outOfBlocks ∧ (s.volAt sb k).nfree sb < 2 * spans off (n - tot))
          (writeiLoop sb k src n fuel (tot + m) (off + m))
          (fun r s' => ∃ w, r = (tot + w, off + w) ∧
            WriteiPost sb s k off (n - tot) (fun j => src (tot + j)) w s') s2 := by
      intro s2 hfirst
      by_cases hend : tot + m = n
      · rw [hend]
        refine writeiLoop_end ⟨m, by rw [hend], ?_⟩
        rwa [show n - tot = m by omega]
      have htype : (s2.itable k).din.type = (s.itable k).din.type := by
        rw [← Fs.volAt_ino sb s2 k, hfirst.only.inum, hfirst.wrote.type, Fs.volAt_ino]
      refine (ih (off + m) (tot + m) hfirst.work (by rwa [htype]) (by omega) (by omega)
        (by omega)).mono (fun r s' hpost => ?_) ?_
      · obtain ⟨w, rfl, hpost⟩ := hpost
        refine ⟨m + w, by simp only [Nat.add_assoc], ?_⟩
        rw [show n - tot = m + (n - (tot + m)) by omega]
        simp only [Nat.add_assoc] at hpost
        exact hfirst.append (by omega) (by simpa only [Nat.add_assoc] using hpost)
      · rintro e ⟨rfl, hnone⟩
        have hnfree := hfirst.nfree
        have hspans := spans_append (m := m) (show m = BSIZE - off % BSIZE by omega) (n - (tot + m))
        rw [show m + (n - (tot + m)) = n - tot by omega] at hspans
        exact ⟨rfl, by omega⟩
    rw [wp_bind, wp_modifyBuf, wp_ite]
    refine ⟨fun hshort => ?_, fun hfull => ?_⟩
    · -- the copy failed: the buffer has changed, but is not logged
      obtain ⟨j, hj, hnone⟩ := mapped_lt hshort
      have hnone' : src (tot + j) = none := by simpa using hnone
      have hfile : (s.itable k).din.type ≠ T_DIR :=
        hsrc.resolve_left fun hall => hall (tot + j) (by omega) hnone'
      have hmn : m ≤ n - tot := by omega
      refine ⟨0, rfl, WriteiPost.weaken (m := m) ?_ hmn hj hnone'⟩
      refine hpiece 0 (Nat.zero_le _) (.inr ⟨j, hj, hnone'⟩) _ rfl rfl (fun c hc => ?_) hlogs
        (.of_eq rfl)
      by_cases hcb : c = (s1.volAt sb k).addr (s.itable k).inum (place (off / BSIZE))
      · exact .inr ⟨hcb, hfile⟩
      · refine .inl ?_
        have hc' : update s1.data _ _ c ≠ s1.logged c := hc
        rwa [update_of_ne hcb] at hc'
    · have hgm : m = got := by omega
      rw [wp_bind, wp_logWrite]
      refine hrest _ ?_
      exact hpiece m hgm.le (.inl rfl) _ rfl rfl (fun c hc => .inl (loose_write hc).1) hlogs
        fun c hc => mem_logged hc

/-- What `writei(off, n)` checks of its arguments. -/
def WriteFits (size off n : Nat) : Prop := off ≤ size ∧ off + n < 2 ^ 32 ∧ off + n ≤ MAXFILE * BSIZE

omit hl in
theorem writeFits_of_le {size off n : Nat} (hle : off ≤ size) (hfits : off + n ≤ MAXFILE * BSIZE) :
    WriteFits size off n :=
  ⟨hle, hfits.trans_lt (by decide), hfits⟩

/-- What `writei` has done when it returns `w`: the inode is on the disk, with the first `w` of the
`n` bytes at `off`. -/
structure Written (sb : Superblock) (s : Fs) (k : Fin NINODE) (off n : Nat)
    (src : Nat → Option UInt8) (w : Nat) (s' : Fs) : Prop where
  synced : s'.vol sb = s'.volAt sb k
  only : Only s s' k
  blocks : (s'.vol sb).Blocks sb ∅
  tidy : Tidy sb s' (s'.vol sb)
  ino : ∀ j, j ≠ (s.itable k).inum → (s'.vol sb).ino j = (s.volAt sb k).ino j
  self : ∃ a z, (s'.vol sb).ino (s.itable k).inum = { (s.itable k).din with addrs := a, size := z }
  size : (s'.vol sb).size (s.itable k).inum = max ((s.volAt sb k).size (s.itable k).inum) (off + w)
  addr : ∀ j q, (s.volAt sb k).Alloc sb j →
    j ≠ (s.itable k).inum ∨ (s.volAt sb k).addr j q ≠ 0 →
    (s'.vol sb).addr j q = (s.volAt sb k).addr j q
  blk : ∀ j m, (s.volAt sb k).Alloc sb j → j ≠ (s.itable k).inum →
    (s'.vol sb).blk j m = (s.volAt sb k).blk j m
  done : ∀ o, off ≤ o → o < off + w →
    (s'.vol sb).fileByte (s.itable k).inum o = (src (o - off)).getD 0
  rest : ∀ o, o < off ∨ off + n ≤ o →
    (s'.vol sb).fileByte (s.itable k).inum o = (s.volAt sb k).fileByte (s.itable k).inum o
  covered : (s'.vol sb).Covered (s.itable k).inum
  nfree : (s.volAt sb k).nfree sb ≤ (s'.vol sb).nfree sb + 2 * spans off n
  le : w ≤ n
  short : w = n ∨ ∃ j, j < n ∧ src j = none
  -- The blocks of the content, the indirect block, the bitmap and the inode are logged.
  logs : ∃ bs : List Nat, bs.length ≤ spans off n + 1 ∧ s.Logs s' fun c =>
    sb.IsBitmap c ∨ c = sb.IBLOCK (s.itable k).inum ∨ c ∈ bs

omit hl in
theorem Written.spends (h : Written sb s k off n src w s') :
    s.Spends sb s' {(s.itable k).inum} (spans off n + 1) := by
  obtain ⟨bs, hlen, hlogs⟩ := h.logs
  refine ⟨bs.toFinset, (toFinset_card_le bs).trans hlen, hlogs.mono fun c hc => ?_⟩
  rcases hc with hbit | rfl | hmem
  · exact .inl hbit
  · exact .inr (.inl ⟨_, Finset.mem_singleton_self _, rfl⟩)
  · exact .inr (.inr (mem_toFinset.mpr hmem))

theorem WriteiPost.written {s2 : Fs} {d : Dinode} (hpost : WriteiPost sb s k off n src w s1)
    (h : Work sb s k) (hcov : (s.volAt sb k).Covered (s.itable k).inum)
    (hfits : WriteFits ((s.volAt sb k).size (s.itable k).inum) off n)
    (hd : d = { (s1.itable k).din with
      size := UInt32.ofNat (max ((s.volAt sb k).size (s.itable k).inum) (off + w)) })
    (hs2 : s2 = { s1 with itable := update s1.itable k { s1.itable k with din := d } })
    (hvol : s'.vol sb = s2.volAt sb k) (htable : s'.itable = s2.itable)
    (hloose : ∀ c, s'.Loose c → s2.Loose c) (hlogs : s1.Logs s' (· = sb.IBLOCK (s.itable k).inum)) :
    Written sb s k off n src w s' := by
  obtain ⟨hwork, honly, hv⟩ := hpost.work.setDin hl (by rw [hd]) (by rw [hd]) hs2
  rw [hpost.only.inum] at hv
  obtain ⟨a, ha⟩ := hpost.wrote.same
  -- the new inode differs from the one before in its addresses and its size
  have hdin : d = { (s.itable k).din with
      addrs := a
      size := UInt32.ofNat (max ((s.volAt sb k).size (s.itable k).inum) (off + w)) } := by
    rw [Fs.volAt_ino, ← hpost.only.inum, Fs.volAt_ino] at ha
    rw [hd, ha]
  have hself : (s'.vol sb).ino (s.itable k).inum = d := by
    rw [hvol, hv]
    exact update_self ..
  have haddrs : d.addrs = ((s1.volAt sb k).ino (s.itable k).inum).addrs := by
    rw [hd, ← hpost.only.inum, Fs.volAt_ino]
  have haddr : ∀ j q, (s'.vol sb).addr j q = (s1.volAt sb k).addr j q := by
    rw [hvol, hv]
    exact fun j q => addr_setIno haddrs j q
  have hblk : ∀ j m, (s'.vol sb).blk j m = (s1.volAt sb k).blk j m := by
    rw [hvol, hv]
    exact fun j m => blk_setIno haddrs j m
  have hbyte : ∀ j o, (s'.vol sb).fileByte j o = (s1.volAt sb k).fileByte j o := by
    intro j o
    unfold Vol.fileByte
    rw [hblk]
  have hfit := hfits.2.2
  have hle := hpost.le
  -- `MAXFILE * BSIZE` is far from what a `uint` cannot hold
  have hsize : (s'.vol sb).size (s.itable k).inum
      = max ((s.volAt sb k).size (s.itable k).inum) (off + w) := by
    have hsz := hcov.1
    rw [Vol.size, hself, hd]
    refine toNat_ofNat_of_lt' ?_
    simp only [MAXFILE, NDIRECT, NINDIRECT, BSIZE] at hfit hsz
    show _ < 2 ^ 32
    omega
  exact {
    synced := (volAt_of_synced hvol htable).symm
    only := (hpost.only.trans honly).trans (.of_eq htable)
    blocks := hvol ▸ hwork.blocks
    tidy := by
      rw [hvol]
      exact fun b hb => hwork.tidy b (hloose b hb)
    ino := by
      intro j hj
      rw [hvol, hv]
      show update _ _ _ j = _
      rw [update_of_ne hj]
      exact hpost.wrote.ino j hj
    self := ⟨a, _, hself.trans hdin⟩
    size := hsize
    addr := fun j q hj hq => (haddr j q).trans (hpost.wrote.addr j q hj hq)
    blk := fun j m hj hne => (hblk j m).trans (hpost.wrote.blk j m hj hne)
    done := fun o hlo hhi => (hbyte _ o).trans (hpost.wrote.done o hlo hhi)
    rest := fun o ho => (hbyte _ o).trans (hpost.wrote.rest o ho)
    covered := by
      refine ⟨by rw [hsize]; exact max_le hcov.1 (by omega), fun m hm => ?_⟩
      rw [haddr]
      rw [hsize] at hm
      -- a block below the old size was there, one past it has just been written
      by_cases hold : m * BSIZE < (s.volAt sb k).size (s.itable k).inum
      · have hm0 := hcov.2 m hold
        rw [hpost.wrote.addr _ _ h.alloc (.inr hm0)]
        exact hm0
      · have hoff := hfits.1
        have hnew := hpost.covered (m * BSIZE) (by omega) (by omega)
        rwa [Nat.mul_div_cancel m (by decide)] at hnew
    nfree := by
      rw [hvol, hv]
      exact hpost.nfree
    le := hle
    short := hpost.short
    logs := by
      obtain ⟨bs, hlen, hbs⟩ := hpost.logs
      refine ⟨(s1.volAt sb k).addr (s.itable k).inum NDIRECT :: bs, Nat.succ_le_succ hlen,
        Fs.Logs.trans (hbs.mono fun c hc => ?_) (hlogs.mono fun c hc => .inr (.inl hc))⟩
      exact hc.imp_right fun hc => .inr (mem_cons.mpr (hc.imp_left And.right)) }

theorem iupdate_data (hk : (s.itable k).inum < sb.ninodes) :
    wp E (iupdate sb k)
      (fun _ s' => ∀ b, sb.datastart ≤ b → s.Loose b → s'.Loose b) s := by
  unfold iupdate
  simp only [wp_bind, wp_getInode, wp_modifyBuf, wp_logWrite]
  intro b hb hloose
  have hne : b ≠ sb.IBLOCK (s.itable k).inum := by
    have h1 := hl.iblock_lt hk
    have h2 : sb.bmapstart < sb.datastart :=
      (Nat.lt_add_of_pos_right (Nat.succ_pos _)).trans_le hl.bitmap
    omega
  show update _ _ _ b ≠ update _ _ _ b
  rw [update_of_ne hne, update_of_ne hne]
  exact hloose

/-- `writei` refuses what does not fit. Otherwise, when the loop has written `r.1` bytes, the size is
put in the inode and the inode is written. -/
theorem writei_cases (hk : (s.itable k).inum < sb.ninodes) {off n : UInt32} {Q : Int → Fs → Prop}
    (hbad : ¬ WriteFits ((s.volAt sb k).size (s.itable k).inum) off.toNat n.toNat → Q (-1) s)
    (hloop : WriteFits ((s.volAt sb k).size (s.itable k).inum) off.toNat n.toNat →
      wp E (writeiLoop sb k src n.toNat n.toNat 0 off.toNat) (fun r s1 => Only s s1 k ∧
        (s1.itable k).din.size = (s.itable k).din.size ∧ r.2 = off.toNat + r.1 ∧ r.1 ≤ n.toNat ∧
        ∀ d s2 s', d = { (s1.itable k).din with
            size := UInt32.ofNat (max ((s.volAt sb k).size (s.itable k).inum) (off.toNat + r.1)) } →
          s2 = { s1 with itable := update s1.itable k { s1.itable k with din := d } } →
          s'.vol sb = s2.volAt sb k → s'.itable = s2.itable → (∀ c, s'.Loose c → s2.Loose c) →
          (∀ b, sb.datastart ≤ b → s2.Loose b → s'.Loose b) →
          s1.Logs s' (· = sb.IBLOCK (s.itable k).inum) → Q r.1 s') s) :
    wp E (writei sb k src off n) Q s := by
  have hsize : (s.volAt sb k).size (s.itable k).inum = (s.itable k).din.size.toNat := by
    rw [Vol.size, Fs.volAt_ino]
  unfold writei
  rw [wp_bind, wp_getInode, wp_ite]
  refine ⟨fun hrefuse => ?_, fun hgood => ?_⟩
  · rw [wp_pure]
    refine hbad ?_
    rintro ⟨hoff, hwrap, -⟩
    rcases hrefuse with hrefuse | hrefuse
    · have := lt_iff_toNat_lt.mp hrefuse
      omega
    · have := (wraps_iff off n).mp hrefuse
      omega
  rw [not_or] at hgood
  have hsum := toNat_add_of_not_wraps hgood.2
  have hwrap := (wraps_iff off n).not.mp hgood.2
  have hoff : ¬ (s.itable k).din.size.toNat < off.toNat := fun hlt =>
    hgood.1 (lt_iff_toNat_lt.mpr hlt)
  rw [wp_ite]
  refine ⟨fun hbig => ?_, fun hfit => ?_⟩
  · rw [wp_pure]
    exact hbad fun hfits => absurd hfits.2.2 (by omega)
  rw [wp_bind]
  refine (hloop ⟨by omega, by omega, by omega⟩).call ?_
  rintro r s1 ⟨honly, hdsize, hroff, hle, hQ⟩
  have hinum : (s1.itable k).inum < sb.ninodes := by
    rw [honly.inum]
    exact hk
  obtain ⟨w, o⟩ := r
  dsimp only at hroff hle hQ ⊢
  subst hroff
  rw [wp_ite]
  refine ⟨fun hgt => ?_, fun hle => ?_⟩
  · rw [wp_bind, wp_modifyInode, wp_bind]
    have hk' : (update s1.itable k { s1.itable k with
        din := { (s1.itable k).din with size := UInt32.ofNat (off.toNat + w) } } k).inum
        < sb.ninodes := by
      rw [update_self]
      exact hinum
    refine ((iupdate_spec hl hk').and (iupdate_data (E := fun _ => True) hl hk')).call
      fun _ s' hup => ?_
    refine hQ _ _ s' ?_ rfl hup.1.1 hup.1.2.1 hup.1.2.2.1 hup.2 ?_
    · rw [hsize, max_eq_right (by omega)]
    · refine fun c hc => (hup.1.2.2.2 c hc).imp_right fun heq => heq.trans ?_
      show sb.IBLOCK (update s1.itable k _ k).inum = _
      rw [update_self, ← honly.inum]
  · rw [wp_bind]
    refine ((iupdate_spec hl hinum).and (iupdate_data (E := fun _ => True) hl hinum)).call
      fun _ s' hup => ?_
    -- the size stays: writing it back is no change
    have hsame : (s1.itable k).din = { (s1.itable k).din with
        size := UInt32.ofNat (max ((s.volAt sb k).size (s.itable k).inum) (off.toNat + w)) } := by
      rw [hsize, max_eq_left (by omega), UInt32.ofNat_toNat, ← hdsize]
    refine hQ _ _ s' hsame ?_ hup.1.1 hup.1.2.1 hup.1.2.2.1 hup.2 (honly.inum ▸ hup.1.2.2.2)
    rw [update_eq_self]

omit hl in
theorem Wrote.din_size {src : Nat → UInt8}
    (h : Wrote sb (s.volAt sb k) (s1.volAt sb k) (s.itable k).inum off w n src)
    (honly : Only s s1 k) :
    (s1.itable k).din.size = (s.itable k).din.size := by
  obtain ⟨a, ha⟩ := h.same
  rw [Fs.volAt_ino, ← honly.inum, Fs.volAt_ino] at ha
  rw [ha]

/-- `writei` refuses what does not fit, and otherwise writes as far as the source can be read. -/
theorem writei_spec (h : Work sb s k) (hcov : (s.volAt sb k).Covered (s.itable k).inum)
    (off n : UInt32) (hsrc : (∀ j, j < n.toNat → src j ≠ none) ∨ (s.itable k).din.type ≠ T_DIR) :
    wp (fun e => e = .outOfBlocks ∧
        (s.volAt sb k).nfree sb < 2 * spans off.toNat n.toNat)
      (writei sb k src off n)
      (fun r s' =>
        ¬ WriteFits ((s.volAt sb k).size (s.itable k).inum) off.toNat n.toNat ∧ r = -1 ∧ s' = s ∨
        WriteFits ((s.volAt sb k).size (s.itable k).inum) off.toNat n.toNat ∧
          ∃ w : Nat, r = w ∧ Written sb s k off.toNat n.toNat src w s') s := by
  refine writei_cases hl h.inum (fun hbad => .inl ⟨hbad, rfl, rfl⟩) fun hfits => ?_
  have hloop := writeiLoop_spec hl src n.toNat off.toNat n.toNat 0 h hsrc hfits.2.2
    (Nat.zero_le _) le_rfl
  simp only [Nat.zero_add, Nat.sub_zero] at hloop
  refine hloop.call fun r s1 hpost => ?_
  obtain ⟨w, rfl, hpost⟩ := hpost
  refine ⟨hpost.only, hpost.wrote.din_size hpost.only, rfl, hpost.le, ?_⟩
  intro d s2 s' hd hs2 hvol htable hloose _ hlogs
  exact .inr ⟨hfits, w, rfl, hpost.written hl h hcov hfits hd hs2 hvol htable hloose hlogs⟩

end Write

end Xv6
