import Xv6.Fs.Entries

/-!
# Directories that lack a block

The last block of a directory may be missing although its size says it is there: `mkfs` can leave
the root directory like that. `bmap` then allocates the block when a lookup reads that far.

* **`wp_readDirent`** — reading an entry is one `bmap`.
* **`dirlookupFrom_found`**, **`dirlookupFrom_missing`** — the loop of `dirlookup`.
* `iget`, `ilock` and `iunlockput` on entries of the inode table with one reference.
-/

namespace Xv6

open Prog Vol List

/-! ### Reading an entry -/

section Entry

variable {sb : Superblock} {s : Fs} {dp : Fin NINODE} {off : Nat}

theorem mapped_all (tot m : Nat) : mapped (fun _ => true) tot m = m := by
  induction m generalizing tot with
  | zero => rfl
  | succ m ih =>
    unfold mapped
    rw [if_pos rfl, ih]

variable {E : FsPanic → Prop} {e : FsPanic}

theorem wp_readDirent {Q : Dirent → Fs → Prop} (hmod : off % DESIZE = 0)
    (hin : off + DESIZE ≤ (s.itable dp).din.size.toNat) :
    wp E (readDirent sb dp off e) Q s ↔ wp E (bmap sb dp (off / BSIZE)) (fun b s' =>
      Q (Dirent.ofBytes ((List.range DESIZE).map fun j => (s'.data b).byte (off % BSIZE + j))) s') s := by
  have hsize := (s.itable dp).din.size.toNat_lt
  have hoff : (UInt32.ofNat off).toNat = off := UInt32.toNat_ofNat_of_lt' (by
    show off < 2 ^ 32
    omega)
  have hde : (UInt32.ofNat DESIZE).toNat = DESIZE := rfl
  have hdesize : DESIZE = 16 := rfl
  have hwraps : ¬ UInt32.ofNat off + UInt32.ofNat DESIZE < UInt32.ofNat off := by
    rw [wraps_iff, hoff, hde]
    omega
  have hsum := toNat_add_of_not_wraps hwraps
  rw [hoff, hde] at hsum
  have hok : ¬ (UInt32.ofNat off > (s.itable dp).din.size ∨
      UInt32.ofNat off + UInt32.ofNat DESIZE < UInt32.ofNat off) := by
    refine not_or.mpr ⟨fun hlt => ?_, hwraps⟩
    have := UInt32.lt_iff_toNat_lt.mp hlt
    omega
  have hall : ¬ UInt32.ofNat off + UInt32.ofNat DESIZE > (s.itable dp).din.size := fun hlt => by
    have := UInt32.lt_iff_toNat_lt.mp hlt
    omega
  have hm : min (DESIZE - 0) (BSIZE - off % BSIZE) = DESIZE := by
    rw [hdesize] at hmod ⊢
    simp only [BSIZE]
    omega
  unfold readDirent readi
  rw [wp_bind, wp_bind, wp_getInode, if_neg hok]
  dsimp only
  rw [if_neg hall, hoff, hde]
  -- one round of the loop, and the end of it
  show wp E (readiLoop sb dp (fun _ => true) DESIZE (15 + 1) 0 off []) _ s ↔ _
  unfold readiLoop
  rw [if_pos (by decide), wp_bind]
  refine Iff.of_eq (congrArg (fun R => wp E (bmap sb dp (off / BSIZE)) R s) ?_)
  funext b s'
  rw [wp_bind, wp_bread, hm]
  dsimp only
  rw [mapped_all, if_neg (Nat.lt_irrefl _)]
  unfold readiLoop
  rw [if_neg (by decide), wp_pure]
  rfl

theorem dirent_eq (v : Vol) (i : Nat) (hmod : off % DESIZE = 0) :
    v.dirent i off = Dirent.ofBytes ((List.range DESIZE).map fun j =>
      (v.blk i (off / BSIZE)).byte (off % BSIZE + j)) := by
  unfold Vol.dirent
  refine congrArg Dirent.ofBytes (map_congr_left fun j hj => ?_)
  have hj' := mem_range.mp hj
  have hdesize : DESIZE = 16 := rfl
  rw [hdesize] at hmod hj'
  obtain ⟨hdiv, hrem⟩ := div_add_of_lt (o := off) (j := j) (by simp only [BSIZE]; omega)
  rw [Vol.fileByte, hdiv, hrem]

theorem readDirent_block (h : Work sb s dp) (hmod : off % DESIZE = 0)
    (hin : off + DESIZE ≤ (s.itable dp).din.size.toNat) (hmax : off / BSIZE < MAXFILE)
    (hne : (s.volAt sb dp).addr (s.itable dp).inum (place (off / BSIZE)) ≠ 0) :
    wp E (readDirent sb dp off e) (fun de s' => s' = s ∧
      de = (s.volAt sb dp).dirent (s.itable dp).inum off) s := by
  rw [wp_readDirent hmod hin, dirent_eq _ _ hmod]
  refine (bmap_read h hmax hne).call ?_
  rintro b s' ⟨rfl, rfl⟩
  rw [h.data_eq_blk hne]
  exact ⟨rfl, rfl⟩

theorem readDirent_hole (hl : sb.Layout) (h : Work sb s dp) (hmod : off % DESIZE = 0)
    (hin : off + DESIZE ≤ (s.itable dp).din.size.toNat) (hdirect : off / BSIZE < NDIRECT) :
    wp (fun e' => e' = .outOfBlocks ∧ (s.volAt sb dp).nfree sb = 0) (readDirent sb dp off e)
      (fun de s' => de = (s.volAt sb dp).dirent (s.itable dp).inum off ∧
        ∃ b, BmapPost sb s dp (off / BSIZE) b s') s := by
  rw [wp_readDirent hmod hin, dirent_eq _ _ hmod]
  unfold bmap
  rw [dif_pos hdirect]
  refine (bmapAddr_spec hl h ⟨off / BSIZE, by omega⟩).call fun b s' hpost => ?_
  refine ⟨?_, b, hpost⟩
  have hplace : place (off / BSIZE) = off / BSIZE := if_pos hdirect
  have haddr : (s'.volAt sb dp).addr (s'.itable dp).inum (place (off / BSIZE)) = b := by
    rw [hplace, hpost.only.inum]
    exact hpost.addr
  have hdata := hpost.work.data_eq_blk (n := off / BSIZE) (by rw [haddr]; exact hpost.ne_zero)
  rw [haddr, hpost.only.inum, hpost.grows.blk _ _ h.alloc] at hdata
  rw [hdata]

/-! ### The loop of `dirlookup` -/

theorem wp_lookupNext {Q : Option (Nat × Nat) → Fs → Prop} {name : List UInt8} {rest : List Nat}
    {de : Dirent} (hno : ¬ (de.inum ≠ 0 ∧ namecmp name de.name = 0))
    (hrest : wp E (dirlookupFrom sb dp name rest) Q s) :
    wp E (if de.inum = 0 then dirlookupFrom sb dp name rest
      else if namecmp name de.name = 0 then return some (de.inum.toNat, off)
      else dirlookupFrom sb dp name rest) Q s := by
  rw [wp_ite]
  refine ⟨fun _ => hrest, fun hinum => ?_⟩
  rw [if_neg fun hcmp => hno ⟨hinum, hcmp⟩]
  exact hrest

theorem dirlookupFrom_found (h : Work sb s dp) (name : List UInt8) (pre : List Nat) (off : Nat)
    (post : List Nat) (hmax : (s.itable dp).din.size.toNat ≤ MAXFILE * BSIZE)
    (hpre : ∀ o ∈ pre ++ [off], o % DESIZE = 0 ∧ o + DESIZE ≤ (s.itable dp).din.size.toNat ∧
      (s.volAt sb dp).addr (s.itable dp).inum (place (o / BSIZE)) ≠ 0)
    (hskip : ∀ o ∈ pre, ¬ (s.volAt sb dp).Matches (s.itable dp).inum name o)
    (hfound : (s.volAt sb dp).Matches (s.itable dp).inum name off) :
    wp E (dirlookupFrom sb dp name (pre ++ off :: post)) (fun r s' => s' = s ∧
      r = some (((s.volAt sb dp).dirent (s.itable dp).inum off).inum.toNat, off)) s := by
  have hblock : ∀ o ∈ pre ++ [off], wp E (readDirent sb dp o .dirlookupRead) (fun de s' => s' = s ∧
      de = (s.volAt sb dp).dirent (s.itable dp).inum o) s := by
    intro o ho
    obtain ⟨hmod, hin, hne⟩ := hpre o ho
    refine readDirent_block h hmod hin (Nat.div_lt_of_lt_mul ?_) hne
    rw [Nat.mul_comm]
    have hpos : 0 < DESIZE := by decide
    omega
  induction pre with
  | nil =>
    unfold dirlookupFrom
    rw [nil_append] at *
    rw [wp_bind]
    refine (hblock off (mem_singleton_self _)).call ?_
    rintro de s' ⟨rfl, rfl⟩
    rw [if_neg hfound.1, if_pos hfound.2]
    exact ⟨rfl, rfl⟩
  | cons o pre ih =>
    have hno := hskip o (mem_cons_self ..)
    have hrest := ih (fun o' ho' => hpre o' (mem_cons_of_mem _ ho'))
      (fun o' ho' => hskip o' (mem_cons_of_mem _ ho'))
      fun o' ho' => hblock o' (mem_cons_of_mem _ ho')
    rw [cons_append]
    unfold dirlookupFrom
    rw [wp_bind]
    refine (hblock o (mem_cons_self ..)).call ?_
    rintro de s' ⟨rfl, rfl⟩
    exact wp_lookupNext hno hrest

/-- The directory has been read, and its missing block may have been allocated. -/
structure Filled (sb : Superblock) (s₀ : Fs) (dp : Fin NINODE) (s : Fs) : Prop where
  work : Work sb s dp
  only : Only s₀ s dp
  grows : Grows sb (s₀.volAt sb dp) (s.volAt sb dp) (s₀.itable dp).inum
  covered : ∀ n, n * BSIZE < (s₀.itable dp).din.size.toNat →
    (s.volAt sb dp).addr (s₀.itable dp).inum (place n) ≠ 0

/-- A lookup that finds nothing reads the directory to its end. Block `m` may be missing. -/
theorem dirlookupFrom_missing (hl : sb.Layout) {s₀ : Fs} (h0 : Work sb s₀ dp) {m : Nat}
    (hmax : (s₀.itable dp).din.size.toNat ≤ NDIRECT * BSIZE)
    (hcov : ∀ n, n * BSIZE < (s₀.itable dp).din.size.toNat → n ≠ m →
      (s₀.volAt sb dp).addr (s₀.itable dp).inum (place n) ≠ 0)
    (name : List UInt8) (offs : List Nat)
    (hoffs : ∀ o ∈ offs, o % DESIZE = 0 ∧ o + DESIZE ≤ (s₀.itable dp).din.size.toNat ∧
      ¬ (s₀.volAt sb dp).Matches (s₀.itable dp).inum name o)
    (hs : s = s₀ ∨ Filled sb s₀ dp s) :
    wp (fun e => e = .outOfBlocks ∧ (s₀.volAt sb dp).nfree sb = 0 ∧
        (s₀.volAt sb dp).addr (s₀.itable dp).inum (place m) = 0)
      (dirlookupFrom sb dp name offs) (fun r s' => r = none ∧ (s' = s₀ ∨ Filled sb s₀ dp s')) s := by
  induction offs generalizing s with
  | nil => exact ⟨rfl, hs⟩
  | cons o rest ih =>
    obtain ⟨hmod, hin, hno⟩ := hoffs o (mem_cons_self ..)
    have hpos : 0 < DESIZE := by decide
    have hstart : o / BSIZE * BSIZE < (s₀.itable dp).din.size.toNat :=
      (Nat.div_mul_le_self ..).trans_lt (by omega)
    have hdirect : o / BSIZE < NDIRECT := Nat.lt_of_mul_lt_mul_right (hstart.trans_le hmax)
    have hmaxfile : o / BSIZE < MAXFILE := hdirect.trans_le (Nat.le_add_right ..)
    have hrest := fun s' => ih (s := s') fun o' ho' => hoffs o' (mem_cons_of_mem _ ho')
    unfold dirlookupFrom
    rw [wp_bind]
    rcases hs with rfl | hs
    · by_cases hne : (s.volAt sb dp).addr (s.itable dp).inum (place (o / BSIZE)) ≠ 0
      · refine (readDirent_block h0 hmod hin hmaxfile hne).call fun de s' hpost => ?_
        exact wp_lookupNext (hpost.2 ▸ hno) (hrest s' (.inl hpost.1))
      · -- the missing block
        have hm : o / BSIZE = m := not_imp_comm.mp (hcov _ hstart) hne
        rw [not_ne_iff] at hne
        refine (readDirent_hole hl h0 hmod hin hdirect).mono (fun de s' hpost => ?_) fun e he => ?_
        · obtain ⟨hde, b, hb⟩ := hpost
          refine wp_lookupNext (hde ▸ hno) (hrest s' (.inr ⟨hb.work, hb.only, hb.grows, fun n hn => ?_⟩))
          by_cases hnm : n = m
          · rw [hnm, ← hm, show place (o / BSIZE) = o / BSIZE from if_pos hdirect, hb.addr]
            exact hb.ne_zero
          · have hold := hcov n hn hnm
            rw [hb.grows.addr _ _ h0.alloc (.inr hold)]
            exact hold
        · exact ⟨he.1, he.2, hm ▸ hne⟩
    · have hinum := hs.only.inum
      have hdin : (s.itable dp).din.size = (s₀.itable dp).din.size := by
        obtain ⟨a, ha⟩ := hs.grows.same
        rw [← hinum, Fs.volAt_ino, hinum, Fs.volAt_ino] at ha
        rw [ha]
      have hread := readDirent_block (E := fun e => e = .outOfBlocks ∧
        (s₀.volAt sb dp).nfree sb = 0 ∧ (s₀.volAt sb dp).addr (s₀.itable dp).inum (place m) = 0)
        (e := .dirlookupRead) hs.work hmod (by rw [hdin]; exact hin) hmaxfile
        (by rw [hinum]; exact hs.covered _ hstart)
      refine hread.call ?_
      rintro de s' ⟨rfl, hde⟩
      rw [dirent_eq _ _ hmod, hinum, hs.grows.blk _ _ h0.alloc, ← dirent_eq _ _ hmod] at hde
      exact wp_lookupNext (hde ▸ hno) (hrest s' (.inr hs))

end Entry

/-! ### Entries of the inode table with one reference -/

section Single

variable {sb : Superblock} {s : Fs} {k : Fin NINODE} {i : Nat}

variable {E : FsPanic → Prop}

theorem iget_new (hdev : ∀ j, 0 < (s.itable j).ref → (s.itable j).dev = ROOTDEV)
    (hnew : ∀ j, 0 < (s.itable j).ref → (s.itable j).inum ≠ i) (hfree : (s.itable k).ref = 0) :
    wp E (iget ROOTDEV i) (fun k' s' => (s.itable k').ref = 0 ∧ s' = s.setEntry k'
      { s.itable k' with dev := ROOTDEV, inum := i, ref := 1, valid := false }) s := by
  refine (iget_entries hdev i).mono (fun k' s' hpost => ?_) fun e he => absurd hfree (he.2 k)
  obtain ⟨t, rfl, hget⟩ := hpost
  cases hget with
  | found hr hk => exact absurd hk (hnew _ hr)
  | new hr _ => exact ⟨hr, rfl⟩

theorem ilock_new (hip : s.itable k = { s.itable k with
      dev := ROOTDEV, inum := i, ref := 1, lock := false, valid := false })
    (halloc : (s.vol sb).Alloc sb i) :
    wp E (ilock sb k) (fun _ s' => s' = s.setEntry k ⟨ROOTDEV, i, 1, true, true, (s.vol sb).ino i⟩) s := by
  have hok : InodeOk sb (s.vol sb) (s.itable k) := by
    rw [hip]
    exact ⟨fun _ => halloc.1, fun _ => rfl, fun _ hv => (by cases hv), fun hlock => (by cases hlock)⟩
  have hinum : (s.itable k).inum = i := by rw [hip]
  refine (ilock_spec hok).mono (fun _ s' hpost => ?_) ?_
  · obtain ⟨-, -, -, rfl⟩ := hpost
    rw [hip]
  · rintro e (⟨-, hr⟩ | ⟨-, hlock⟩ | ⟨-, htype⟩)
    · rw [hip] at hr
      cases hr
    · rw [hip] at hlock
      cases hlock
    · rw [hinum] at htype
      exact absurd htype halloc.2

theorem iunlockput_live (hr : (s.itable k).ref = 1) (hlock : (s.itable k).lock = true)
    (hlink : (s.itable k).din.nlink ≠ 0) :
    wp E (iunlockput sb k) (fun _ s' => s' = s.setEntry k { s.itable k with lock := false, ref := 0 }) s := by
  unfold iunlockput
  rw [wp_bind]
  refine iunlock_spec.mono (fun _ s' hpost => ?_) ?_
  · obtain ⟨-, -, rfl⟩ := hpost
    have hlive : ¬ ((s.itable k).ref = 1 ∧ (s.itable k).valid = true ∧ (s.itable k).din.nlink = 0) :=
      fun h => hlink h.2.2
    unfold iput
    rw [wp_bind, wp_getInode, Fs.itable_setEntry]
    dsimp only
    rw [if_neg hlive, wp_modifyInode, Fs.itable_setEntry, hr]
    unfold Fs.setEntry
    rw [Function.update_idem]
  · rintro e ⟨-, hfree | hnone⟩
    · rw [hlock] at hfree
      cases hfree
    · rw [hr] at hnone
      cases hnone

theorem work_of_copy (hinum : (s.itable k).inum = i) (hdin : (s.itable k).din = (s.vol sb).ino i)
    (halloc : (s.vol sb).Alloc sb i) (hblocks : (s.vol sb).Blocks sb ∅) (hlogged : s.data = s.logged) :
    s.volAt sb k = s.vol sb ∧ Work sb s k := by
  have hvol : s.volAt sb k = s.vol sb := by
    unfold Fs.volAt Vol.setIno
    rw [hinum, hdin, Function.update_eq_self]
  refine ⟨hvol, ?_, ?_, ?_, fun b hb => absurd (congrFun hlogged b) hb⟩
  · rw [hinum]
    exact halloc.1
  · rw [hdin]
    exact halloc.2
  · rw [hvol]
    exact hblocks

end Single

end Xv6
