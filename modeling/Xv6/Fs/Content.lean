import Mathlib.Data.UInt
import Xv6.Fs.View

/-!
# The content of an inode

`bmap`, `itrunc`, `readi` and `writei` work on one entry of the inode table, whose copy of the
inode is ahead of the disk's until `iupdate`. `Fs.volAt` is the volume with that copy put in; there
is one specification for each function, over `Fs.volAt`.
-/

namespace Xv6

open Prog Vol Function List

/-- The volume with the inode of entry `k` as it is in memory. -/
def Fs.volAt (sb : Superblock) (s : Fs) (k : Fin NINODE) : Vol :=
  (s.vol sb).setIno (s.itable k).inum (s.itable k).din

/-- Only blocks of the content of plain files differ from what was last logged. -/
def Tidy (sb : Superblock) (s : Fs) (v : Vol) : Prop :=
  ∀ b, s.Loose b → sb.IsData b ∧ ∀ i p, v.Alloc sb i → v.addr i p = b →
    p ≠ NDIRECT ∧ (v.ino i).type ≠ T_DIR

/-- What holds while a call changes the content of the inode in entry `k`, before `iupdate` has
brought the inode to the disk. -/
structure Work (sb : Superblock) (s : Fs) (k : Fin NINODE) : Prop where
  inum : (s.itable k).inum < sb.ninodes
  type : (s.itable k).din.type ≠ 0
  blocks : (s.volAt sb k).Blocks sb ∅
  tidy : Tidy sb s (s.volAt sb k)

/-- Nothing but the copy of the inode in entry `k` has changed in the table. -/
def Only (s s' : Fs) (k : Fin NINODE) : Prop :=
  ∃ d, s'.itable = update s.itable k { s.itable k with din := d }

section Basic

variable {sb : Superblock} {s s' s'' : Fs} {k : Fin NINODE}

theorem Fs.volAt_ino (sb : Superblock) (s : Fs) (k : Fin NINODE) :
    (s.volAt sb k).ino (s.itable k).inum = (s.itable k).din :=
  update_self ..

theorem Work.alloc (h : Work sb s k) : (s.volAt sb k).Alloc sb (s.itable k).inum :=
  ⟨h.inum, by rw [Fs.volAt_ino]; exact h.type⟩

theorem Only.refl (s : Fs) (k : Fin NINODE) : Only s s k :=
  ⟨(s.itable k).din, (update_eq_self k s.itable).symm⟩

theorem Only.of_eq (h : s'.itable = s.itable) : Only s s' k := by
  obtain ⟨d, hd⟩ := Only.refl s k
  exact ⟨d, h.trans hd⟩

theorem Only.trans (h : Only s s' k) (h' : Only s' s'' k) : Only s s'' k := by
  obtain ⟨d, hd⟩ := h
  obtain ⟨d', hd'⟩ := h'
  refine ⟨d', ?_⟩
  rw [hd', hd, update_self, update_idem]

theorem Only.self (h : Only s s' k) : s'.itable k = { s.itable k with din := (s'.itable k).din } := by
  obtain ⟨d, hd⟩ := h
  rw [hd, update_self]

theorem Only.inum (h : Only s s' k) : (s'.itable k).inum = (s.itable k).inum := by
  rw [h.self]

theorem volAt_modify {d : Dinode} (hself : s'.itable k = { s.itable k with din := d })
    (hvol : s'.vol sb = s.vol sb) : s'.volAt sb k = (s.volAt sb k).setIno (s.itable k).inum d := by
  unfold Fs.volAt Vol.setIno
  rw [hself, hvol]
  simp only [update_idem]

theorem volAt_take {b : Nat} (hvol : s'.vol sb = (s.vol sb).takeBlock b)
    (htable : s'.itable = s.itable) : s'.volAt sb k = (s.volAt sb k).takeBlock b := by
  unfold Fs.volAt
  rw [hvol, htable]
  rfl

theorem Work.of_grows (h : Work sb s k) {v : Vol} (honly : Only s s' k) (hv : s'.volAt sb k = v)
    (hblocks : v.Blocks sb ∅) (hgrows : Grows sb (s.volAt sb k) v (s.itable k).inum)
    (htidy : Tidy sb s' v) : Work sb s' k where
  inum := by rw [honly.inum]; exact h.inum
  type := by
    rw [← Fs.volAt_ino sb s' k, honly.inum, hv, hgrows.type, Fs.volAt_ino]
    exact h.type
  blocks := hv ▸ hblocks
  tidy := hv ▸ htidy

theorem Tidy.take {v v' : Vol} {i p b : Nat} (h : Tidy sb s v)
    (hloose : ∀ c, s'.Loose c → s.Loose c ∧ c ≠ b)
    (haddr : ∀ j q, v.Alloc sb j → v'.addr j q = if j = i ∧ q = p then b else v.addr j q)
    (htype : ∀ j, (v'.ino j).type = (v.ino j).type) : Tidy sb s' v' := by
  intro c hc
  obtain ⟨hold, hne⟩ := hloose c hc
  refine ⟨(h c hold).1, fun j q hj hq => ?_⟩
  have hj' := (Vol.alloc_congr htype).mp hj
  rw [haddr j q hj'] at hq
  split at hq
  · exact absurd hq.symm hne
  · rw [htype]
    exact (h c hold).2 j q hj' hq

theorem Tidy.logsAll {v : Vol} {b : Nat} (h : Tidy sb s v)
    (hvol : s'.vol sb = (s.vol sb).takeBlock b) (hloose : ∀ c, s'.Loose c → s.Loose c ∧ c ≠ b) :
    s.LogsAll sb s' := by
  intro c hc
  obtain ⟨hold, hne⟩ := hloose c hc
  have hge : sb.datastart ≤ c := (h c hold).1.1
  have hdata : (s'.vol sb).data c = (s.vol sb).data c := by
    rw [hvol]
    exact update_of_ne hne ..
  have hused : (s'.vol sb).used c = (s.vol sb).used c := by
    rw [hvol]
    exact update_of_ne hne ..
  exact ⟨hold, (if_pos hge).symm.trans (hdata.trans (if_pos hge)), fun hfree => hused.trans hfree⟩

theorem Fs.LogsAll.write (hl : sb.Layout) {b : Nat} (hb : sb.datastart ≤ b) {d : Block}
    {l : List Nat} : s.LogsAll sb { s with
      data := update s.data b d, logged := update s.logged b (update s.data b d b), lh := l } := by
  intro c hc
  obtain ⟨hold, hne⟩ := loose_write hc
  refine ⟨hold, update_of_ne hne .., fun hfree => ?_⟩
  show (volOf sb (update s.data b d)).used c = false
  rw [volOf_setData hl hb]
  exact hfree

end Basic

/-! ### `bmap` -/

structure BmapPost (sb : Superblock) (s : Fs) (k : Fin NINODE) (p b : Nat) (s' : Fs) : Prop where
  work : Work sb s' k
  only : Only s s' k
  grows : Grows sb (s.volAt sb k) (s'.volAt sb k) (s.itable k).inum
  addr : (s'.volAt sb k).addr (s.itable k).inum p = b
  ne_zero : b ≠ 0
  nfree : (s.volAt sb k).nfree sb ≤ (s'.volAt sb k).nfree sb + 1
  -- A place that is not empty is only read.
  same : (s.volAt sb k).addr (s.itable k).inum p ≠ 0 → s' = s
  logsAll : s.LogsAll sb s'
  logs : s.Logs s' fun c =>
    sb.IsBitmap c ∨ c ≠ 0 ∧ c = (s'.volAt sb k).addr (s.itable k).inum NDIRECT ∨ c = b

section Bmap

variable {sb : Superblock} (hl : sb.Layout) {s : Fs} {k : Fin NINODE}

theorem Work.bmapPost (h : Work sb s k) {p : Nat}
    (hp : (s.volAt sb k).addr (s.itable k).inum p ≠ 0) :
    BmapPost sb s k p ((s.volAt sb k).addr (s.itable k).inum p) s where
  work := h
  only := .refl s k
  grows := .refl ..
  addr := rfl
  ne_zero := hp
  nfree := Nat.le_succ _
  same := fun _ => rfl
  logsAll := .refl sb s
  logs := .of_eq rfl

include hl

theorem Work.balloc (h : Work sb s k) :
    wp (fun e => e = .outOfBlocks ∧ (s.volAt sb k).nfree sb = 0) (balloc sb)
      (fun b s' => b < sb.size ∧ (s.volAt sb k).used b = false ∧
        s'.vol sb = (s.vol sb).takeBlock b ∧ s'.itable = s.itable ∧
        (∀ c, s'.Loose c → s.Loose c ∧ c ≠ b) ∧
        s.Logs s' fun c => c = sb.BBLOCK b ∨ c = b) s := by
  refine balloc_spec hl fun b hb => ?_
  exact (h.blocks.used b (hb.trans_le hl.data)).mpr (.inl hb)

theorem bmapAddr_spec (h : Work sb s k) (j : Fin (NDIRECT + 1)) :
    wp (fun e => e = .outOfBlocks ∧ (s.volAt sb k).nfree sb = 0) (bmapAddr sb k j)
      (BmapPost sb s k j) s := by
  have haddr : (s.volAt sb k).addr (s.itable k).inum j = ((s.itable k).din.addrs j).toNat := by
    rw [addr_direct j.isLt, Fs.volAt_ino]
  unfold bmapAddr
  rw [wp_bind, wp_getInode]
  by_cases hzero : (s.itable k).din.addrs j = 0
  · rw [if_pos hzero, wp_bind]
    have hempty : (s.volAt sb k).addr (s.itable k).inum j = 0 := by
      rw [haddr, hzero]
      rfl
    refine (h.balloc hl).call ?_
    rintro b s1 ⟨hb, hfree, hvol, htable, hloose, hlogs⟩
    obtain ⟨hblocks, hgrows, hplace⟩ := takeAddr hl h.blocks h.alloc hb hfree j hempty
    have hb0 : b ≠ 0 := (h.blocks.of_unused hb hfree).1.ne_zero hl
    simp only [wp_bind, wp_modifyInode, wp_pure]
    -- in memory the block is at its place now
    set s' : Fs := { s1 with
      itable := update s1.itable k { s1.itable k with
        din := (s1.itable k).din.setAddr j b } } with hs'
    have honly : Only s s' k := ⟨(s.itable k).din.setAddr j b, by rw [hs', htable]⟩
    have hv : s'.volAt sb k = ((s.volAt sb k).takeBlock b).setIno (s.itable k).inum
        (((s.volAt sb k).ino (s.itable k).inum).setAddr j b) := by
      have hmod : s'.volAt sb k = (s1.volAt sb k).setIno (s1.itable k).inum
        ((s1.itable k).din.setAddr j b) := volAt_modify (update_self ..) rfl
      rw [hmod, volAt_take hvol htable, htable, Fs.volAt_ino]
    have htidy : Tidy sb s' _ := h.tidy.take hloose hplace hgrows.type
    exact {
      work := h.of_grows honly hv hblocks hgrows htidy
      only := honly
      grows := hv ▸ hgrows
      addr := by rw [hv, hplace _ _ h.alloc, if_pos ⟨rfl, rfl⟩]
      ne_zero := hb0
      nfree := by
        rw [hv]
        exact (nfree_take hb hfree rfl).ge
      same := fun hne => absurd hempty hne
      logsAll := h.tidy.logsAll hvol hloose
      logs := hlogs.mono fun c hc => hc.imp (fun heq => ⟨b, hb, heq⟩) .inr }
  · rw [if_neg hzero, wp_pure, ← haddr]
    refine h.bmapPost ?_
    rw [haddr]
    exact fun h0 => hzero (UInt32.toNat_inj.mp h0)

theorem bmapIndirect_spec (h : Work sb s k) {bn : Nat} (hbn : bn < NINDIRECT)
    (hind : (s.volAt sb k).addr (s.itable k).inum NDIRECT ≠ 0) :
    wp (fun e => e = .outOfBlocks ∧ (s.volAt sb k).nfree sb = 0)
      (bmapIndirect sb ((s.volAt sb k).addr (s.itable k).inum NDIRECT) bn)
      (BmapPost sb s k (NDIRECT + 1 + bn)) s := by
  set ind := (s.volAt sb k).addr (s.itable k).inum NDIRECT with hindeq
  have hisData := h.blocks.data _ _ h.alloc hind
  -- the indirect block as `bread` returns it
  have hdata : ∀ t : Fs, (t.volAt sb k).data ind = t.data ind := fun t => if_pos hisData.1
  have haddr : (s.volAt sb k).addr (s.itable k).inum (NDIRECT + 1 + bn)
      = (s.data ind).word bn := by
    rw [addr_indirect (by omega), ← hindeq, if_neg hind, hdata, Nat.add_sub_cancel_left]
  unfold bmapIndirect
  rw [wp_bind, wp_bread]
  by_cases hzero : (s.data ind).word bn = 0
  · rw [if_pos hzero, wp_bind]
    have hempty := haddr.trans hzero
    refine (h.balloc hl).call ?_
    rintro b s1 ⟨hb, hfree, hvol, htable, hloose, hlogs⟩
    obtain ⟨hblocks, hgrows, hplace⟩ := takeEntry hl h.blocks h.alloc hb hfree hbn hind hempty
    have hnew := (h.blocks.of_unused hb hfree).2 _ NDIRECT h.alloc
    have hb0 : b ≠ 0 := (h.blocks.of_unused hb hfree).1.ne_zero hl
    simp only [wp_bind, wp_modifyBuf, wp_logWrite, wp_pure]
    set s' : Fs := { s1 with
      data := update s1.data ind ((s1.data ind).setWord bn b)
      logged := update s1.logged ind
        (update s1.data ind ((s1.data ind).setWord bn b) ind)
      lh := if ind ∈ s1.lh then s1.lh else s1.lh ++ [ind] } with hs'
    have hloose' : ∀ c, s'.Loose c → s.Loose c ∧ c ≠ b := fun c hc => hloose c (loose_write hc).1
    have hv : s'.volAt sb k = ((s.volAt sb k).takeBlock b).setData ind
        (((s.volAt sb k).data ind).setWord bn b) := by
      have hold : s1.data ind = (s.volAt sb k).data ind := by
        rw [← hdata s1, volAt_take hvol htable]
        exact update_of_ne hnew ..
      have hvol' : s'.vol sb = (s1.vol sb).setData ind ((s1.data ind).setWord bn b) :=
        volOf_setData hl hisData.1
      rw [← volAt_take hvol htable, ← hold]
      show (s'.vol sb).setIno _ _ = _
      rw [hvol']
      rfl
    have honly : Only s s' k := .of_eq htable
    exact {
      work := h.of_grows honly hv hblocks hgrows (h.tidy.take hloose' hplace hgrows.type)
      only := honly
      grows := hv ▸ hgrows
      addr := by rw [hv, hplace _ _ h.alloc, if_pos ⟨rfl, rfl⟩]
      ne_zero := hb0
      nfree := by
        rw [hv]
        exact (nfree_take hb hfree rfl).ge
      same := fun hne => absurd hempty hne
      logsAll := (h.tidy.logsAll hvol hloose).trans (.write hl hisData.1)
      logs := fun c hc => by
        rcases mem_logged hc with hc | rfl
        · exact (hlogs c hc).imp_right fun hc => hc.imp (fun heq => ⟨b, hb, heq⟩) .inr
        · refine .inr (.inr (.inl ⟨hind, ?_⟩))
          rw [hv, hplace _ _ h.alloc, if_neg (by omega), ← hindeq] }
  · rw [if_neg hzero, wp_pure, ← haddr]
    exact h.bmapPost (by rwa [haddr])

/-- `bmap` fills the place of block `bn` if it is empty, with up to two new blocks. -/
theorem bmap_spec (h : Work sb s k) {bn : Nat} (hbn : bn < MAXFILE) :
    wp (fun e => e = .outOfBlocks ∧ (s.volAt sb k).nfree sb ≤ 1) (bmap sb k bn)
      (fun b s' => Work sb s' k ∧ Only s s' k ∧
        Grows sb (s.volAt sb k) (s'.volAt sb k) (s.itable k).inum ∧
        (s'.volAt sb k).addr (s.itable k).inum (place bn) = b ∧ b ≠ 0 ∧
        (s.volAt sb k).nfree sb ≤ (s'.volAt sb k).nfree sb + 2 ∧
        ((s.volAt sb k).addr (s.itable k).inum (place bn) ≠ 0 → s' = s) ∧ s.LogsAll sb s' ∧
        s.Logs s' fun c =>
          sb.IsBitmap c ∨ c ≠ 0 ∧ c = (s'.volAt sb k).addr (s.itable k).inum NDIRECT ∨ c = b) s := by
  unfold bmap
  by_cases hdirect : bn < NDIRECT
  · rw [dif_pos hdirect]
    refine (bmapAddr_spec hl h ⟨bn, by omega⟩).mono (fun b s' hpost => ?_) ?_
    · rw [place, if_pos hdirect]
      exact ⟨hpost.work, hpost.only, hpost.grows, hpost.addr, hpost.ne_zero,
        hpost.nfree.trans (Nat.le_succ _), hpost.same, hpost.logsAll, hpost.logs⟩
    · rintro e ⟨rfl, hnone⟩
      exact ⟨rfl, by omega⟩
  · have hrest : bn - NDIRECT < NINDIRECT := by
      unfold MAXFILE at hbn
      omega
    rw [dif_neg hdirect, if_pos hrest, wp_bind, place_indirect hdirect]
    refine (bmapAddr_spec hl h (Fin.last NDIRECT)).mono (fun ind s1 h1 => ?_) ?_
    · have hind : (s1.volAt sb k).addr (s1.itable k).inum NDIRECT = ind := by
        rw [h1.only.inum]
        exact h1.addr
      have hspec := bmapIndirect_spec hl h1.work hrest (by rw [hind]; exact h1.ne_zero)
      rw [hind] at hspec
      have hnfree := h1.nfree
      refine hspec.mono (fun b s' h2 => ?_) ?_
      · have hnfree' := h2.nfree
        have hgrows := h1.only.inum ▸ h2.grows
        refine ⟨h2.work, h1.only.trans h2.only, h1.grows.trans hgrows, ?_, h2.ne_zero, by omega,
          fun hne => ?_, h1.logsAll.trans h2.logsAll, ?_⟩
        · rw [← h1.only.inum]
          exact h2.addr
        · -- with the entry there, so is the indirect block
          have hlast : (s.volAt sb k).addr (s.itable k).inum NDIRECT ≠ 0 := by
            intro hzero
            rw [addr_indirect (by omega), if_pos hzero] at hne
            exact hne rfl
          have hs1 : s1 = s := h1.same hlast
          subst hs1
          exact h2.same hne
        · -- the indirect block stays where it is
          have hkeep : (s'.volAt sb k).addr (s.itable k).inum NDIRECT = ind := by
            rw [hgrows.addr _ _ (h1.only.inum ▸ h1.work.alloc) (.inr (h1.addr ▸ h1.ne_zero))]
            exact h1.addr
          refine Fs.Logs.trans (h1.logs.mono fun c hc => ?_) (h1.only.inum ▸ h2.logs)
          refine hc.imp_right fun hc => .inl ?_
          obtain rfl : c = ind := hc.elim (fun hc => hc.2.trans h1.addr) id
          exact ⟨h1.ne_zero, hkeep.symm⟩
      · rintro e ⟨rfl, hnone⟩
        exact ⟨rfl, by omega⟩
    · rintro e ⟨rfl, hnone⟩
      exact ⟨rfl, by omega⟩

omit hl

theorem bmap_read (h : Work sb s k) {bn : Nat} (hbn : bn < MAXFILE)
    (hne : (s.volAt sb k).addr (s.itable k).inum (place bn) ≠ 0) {E : FsPanic → Prop} :
    wp E (bmap sb k bn) (fun b s' => s' = s ∧
      b = (s.volAt sb k).addr (s.itable k).inum (place bn)) s := by
  -- an address that is not zero is returned as it is
  have haddr : ∀ j : Fin (NDIRECT + 1), (s.volAt sb k).addr (s.itable k).inum j ≠ 0 →
      wp E (bmapAddr sb k j) (fun b s' => s' = s ∧
        b = (s.volAt sb k).addr (s.itable k).inum j) s := by
    intro j hj
    rw [addr_direct j.isLt, Fs.volAt_ino] at hj ⊢
    have hzero : (s.itable k).din.addrs j ≠ 0 := fun h0 => hj (by rw [h0]; rfl)
    unfold bmapAddr
    rw [wp_bind, wp_getInode, if_neg hzero, wp_pure]
    exact ⟨rfl, rfl⟩
  unfold bmap
  by_cases hdirect : bn < NDIRECT
  · rw [dif_pos hdirect]
    rw [place, if_pos hdirect] at hne ⊢
    exact haddr ⟨bn, by omega⟩ hne
  · have hrest : bn - NDIRECT < NINDIRECT := by
      unfold MAXFILE at hbn
      omega
    rw [dif_neg hdirect, if_pos hrest, wp_bind]
    rw [place_indirect hdirect] at hne ⊢
    have hind : (s.volAt sb k).addr (s.itable k).inum NDIRECT ≠ 0 := by
      intro hzero
      rw [addr_indirect (by omega), if_pos hzero] at hne
      exact hne rfl
    refine (haddr (Fin.last NDIRECT) hind).call ?_
    rintro ind s1 ⟨rfl, rfl⟩
    have hdata : (s1.volAt sb k).data ((s1.volAt sb k).addr (s1.itable k).inum NDIRECT)
        = s1.data ((s1.volAt sb k).addr (s1.itable k).inum NDIRECT) :=
      if_pos (h.blocks.data _ _ h.alloc hind).1
    have hword : (s1.volAt sb k).addr (s1.itable k).inum (NDIRECT + 1 + (bn - NDIRECT))
        = (s1.data ((s1.volAt sb k).addr (s1.itable k).inum NDIRECT)).word (bn - NDIRECT) := by
      rw [addr_indirect (p := NDIRECT + 1 + (bn - NDIRECT)) (by omega), if_neg hind, hdata,
        Nat.add_sub_cancel_left]
    rw [hword] at hne ⊢
    show wp E (bmapIndirect sb ((s1.volAt sb k).addr (s1.itable k).inum NDIRECT) _) _ s1
    unfold bmapIndirect
    rw [wp_bind, wp_bread, if_neg hne, wp_pure]
    exact ⟨rfl, rfl⟩

end Bmap

/-! ### `itrunc` -/

theorem Tidy.shrinks {sb : Superblock} (hl : sb.Layout) {s s' : Fs} {v v' : Vol} {i : Nat}
    (h : Tidy sb s v) (hloose : ∀ c, s'.Loose c → s.Loose c) (hv : Shrinks v v' i) :
    Tidy sb s' v' := by
  intro c hc
  obtain ⟨hdata, hplace⟩ := h c (hloose c hc)
  refine ⟨hdata, fun j q hj hq => ?_⟩
  have hj' := (Vol.alloc_congr hv.type).mp hj
  rw [hv.type]
  by_cases hji : j = i
  · subst hji
    rcases hv.addr q with hsame | hzero
    · exact hplace j q hj' (hsame.symm.trans hq)
    · exact absurd (hq.symm.trans hzero) (hdata.ne_zero hl)
  · exact hplace j q hj' ((hv.addr_of_ne hji q).symm.trans hq)

section Itrunc

variable {sb : Superblock} (hl : sb.Layout) {s : Fs} {k : Fin NINODE}

theorem Work.of_shrinks (h : Work sb s k) {s' : Fs} (honly : Only s s' k)
    (hblocks : (s'.volAt sb k).Blocks sb ∅)
    (hv : Shrinks (s.volAt sb k) (s'.volAt sb k) (s.itable k).inum)
    (htidy : Tidy sb s' (s'.volAt sb k)) : Work sb s' k where
  inum := by rw [honly.inum]; exact h.inum
  type := by
    rw [← Fs.volAt_ino sb s' k, honly.inum, hv.type, Fs.volAt_ino]
    exact h.type
  blocks := hblocks
  tidy := htidy

include hl

variable {E : FsPanic → Prop}

theorem bfree_place {P : Set Nat} {p : Nat}
    (hblocks : (s.volAt sb k).Blocks sb ((s.volAt sb k).blocksAt (s.itable k).inum P))
    (halloc : (s.volAt sb k).Alloc sb (s.itable k).inum)
    (hp : (s.volAt sb k).addr (s.itable k).inum p ≠ 0) (hP : p ∉ P) :
    wp E (bfree sb ((s.volAt sb k).addr (s.itable k).inum p)) (fun _ s' =>
      s'.itable = s.itable ∧ (s'.volAt sb k).ino = (s.volAt sb k).ino ∧
        (s'.volAt sb k).data = (s.volAt sb k).data ∧
        (s'.volAt sb k).Blocks sb ((s'.volAt sb k).blocksAt (s.itable k).inum (insert p P)) ∧
        (∀ c, s'.Loose c → s.Loose c) ∧ s.Logs s' sb.IsBitmap) s := by
  have hF := hblocks.notMem_blocksAt (P := P) halloc halloc fun h => hP h.2
  have hused := hblocks.used_of_addr halloc hp hF
  have hlt := (hblocks.data _ _ halloc hp).2
  refine (bfree_spec hl hlt hused).call ?_
  rintro _ s' ⟨hvol, htable, hloose, hlogs⟩
  have hino : (s'.volAt sb k).ino = (s.volAt sb k).ino := by
    unfold Fs.volAt
    rw [hvol, htable]
    rfl
  have hdata : (s'.volAt sb k).data = (s.volAt sb k).data := by
    unfold Fs.volAt
    rw [hvol]
    rfl
  refine ⟨htable, hino, hdata, ?_, hloose, hlogs.mono fun c hc => ⟨_, hlt, hc⟩⟩
  have hsame : ∀ q, (s'.volAt sb k).addr (s.itable k).inum q
      = (s.volAt sb k).addr (s.itable k).inum q := fun q =>
    addr_congr (by rw [hino]) (fun _ => by rw [hdata]) q
  rw [blocksAt_congr hsame, blocksAt_insert hp]
  refine hblocks.freed halloc hp ?_ hino hdata
  show (s'.vol sb).used = _
  rw [hvol]
  rfl

/-- `ip->addrs[j] = 0` once the blocks at the places it stands for have been freed. -/
theorem Work.clearAddr {s1 s' : Fs} (h : Work sb s k) (htable : s1.itable = s.itable)
    (hino : (s1.volAt sb k).ino = (s.volAt sb k).ino)
    (hdata : (s1.volAt sb k).data = (s.volAt sb k).data) {P : Set Nat}
    (hblocks : (s1.volAt sb k).Blocks sb ((s1.volAt sb k).blocksAt (s.itable k).inum P))
    (hloose : ∀ c, s1.Loose c → s.Loose c) {j : Fin (NDIRECT + 1)} (hs' : s' = { s1 with
      itable := update s1.itable k { s1.itable k with
        din := (s1.itable k).din.setAddr j 0 } })
    (hP : ∀ q, q ∈ P ↔ q = j ∨ j = Fin.last NDIRECT ∧ NDIRECT < q) :
    Work sb s' k ∧ Only s s' k ∧ Shrinks (s.volAt sb k) (s'.volAt sb k) (s.itable k).inum ∧
      (s'.volAt sb k).addr (s.itable k).inum j = 0 := by
  have honly : Only s s' k := ⟨(s.itable k).din.setAddr j 0, by rw [hs', htable]⟩
  have halloc : (s1.volAt sb k).Alloc sb (s.itable k).inum := by
    unfold Vol.Alloc
    rw [hino]
    exact h.alloc
  have hv : s'.volAt sb k = (s1.volAt sb k).setIno (s.itable k).inum
      (((s1.volAt sb k).ino (s.itable k).inum).setAddr j 0) := by
    have hmod : s'.volAt sb k = (s1.volAt sb k).setIno (s1.itable k).inum
        ((s1.itable k).din.setAddr j 0) :=
      volAt_modify (by rw [hs']; exact update_self ..) (by rw [hs']; rfl)
    rw [hmod, htable, hino, Fs.volAt_ino]
  obtain ⟨hshrinks, hzero, hdirect, hindirect⟩ :=
    shrinks_setAddr (s1.volAt sb k) (s.itable k).inum j
  rw [← hv] at hshrinks hzero hdirect hindirect
  have hold : Shrinks (s.volAt sb k) (s1.volAt sb k) (s.itable k).inum :=
    ⟨hdata, fun _ _ => by rw [hino], ⟨_, by rw [hino]⟩,
      fun q => .inl (addr_congr (by rw [hino]) (fun _ => by rw [hdata]) q)⟩
  have hall := hold.trans hshrinks
  have hblocks' : (s'.volAt sb k).Blocks sb ∅ := by
    refine hblocks.emptied hl halloc hshrinks (by rw [hv]; rfl) (fun q hq => ?_) fun q hq => ?_
    · rcases (hP q).mp hq with rfl | ⟨rfl, hlt⟩
      · exact hzero
      · rw [addr_indirect hlt, if_pos (show (s'.volAt sb k).addr _ NDIRECT = 0 from hzero)]
    · rw [hP, not_or] at hq
      by_cases hlt : q < NDIRECT + 1
      · exact hdirect q hlt hq.1
      · exact hindirect q (by omega) fun hj => hq.2 ⟨hj, by omega⟩
  have hloose' : ∀ c, s'.Loose c → s.Loose c := fun c hc => hloose c (by rw [hs'] at hc; exact hc)
  exact ⟨h.of_shrinks honly hblocks' hall (h.tidy.shrinks hl hloose' hall), honly, hall, hzero⟩

theorem itruncEntries_spec (h : Work sb s k)
    (hind : (s.volAt sb k).addr (s.itable k).inum NDIRECT ≠ 0) :
    wp E ((List.range NINDIRECT).forM
        (itruncEntry sb ((s.volAt sb k).addr (s.itable k).inum NDIRECT)))
      (fun _ s' => s'.itable = s.itable ∧ (s'.volAt sb k).ino = (s.volAt sb k).ino ∧
        (s'.volAt sb k).data = (s.volAt sb k).data ∧
        (s'.volAt sb k).Blocks sb
          ((s'.volAt sb k).blocksAt (s.itable k).inum {q | NDIRECT < q}) ∧
        (∀ c, s'.Loose c → s.Loose c) ∧ s.Logs s' sb.IsBitmap) s := by
  set i := (s.itable k).inum with hi
  set ind := (s.volAt sb k).addr i NDIRECT with hindeq
  have hdata : ∀ t : Fs, (t.volAt sb k).data ind = t.data ind := fun t =>
    if_pos (h.blocks.data _ _ h.alloc hind).1
  -- the entries not in `rest` have been freed
  have hloop := wp.forM (E := E) (s := s) (l := List.range NINDIRECT) (f := itruncEntry sb ind)
    (I := fun rest t => rest.Nodup ∧ t.itable = s.itable ∧
      (t.volAt sb k).ino = (s.volAt sb k).ino ∧ (t.volAt sb k).data = (s.volAt sb k).data ∧
      (t.volAt sb k).Blocks sb
        ((t.volAt sb k).blocksAt i {q | ∃ j, j ∉ rest ∧ q = NDIRECT + 1 + j}) ∧
      (∀ c, t.Loose c → s.Loose c) ∧ s.Logs t sb.IsBitmap)
    (fun a rest t ht => ?_) ?_
  · refine hloop.call ?_
    rintro _ s' ⟨-, htable, hino, hdata', hblocks, hloose⟩
    refine ⟨htable, hino, hdata', ?_, hloose⟩
    have hall : {q | NDIRECT < q} = {q | ∃ j, j ∉ ([] : List Nat) ∧ q = NDIRECT + 1 + j} := by
      ext q
      simp only [not_mem_nil, not_false_eq_true, true_and, Set.mem_ofPred_eq]
      exact ⟨fun hq => ⟨q - (NDIRECT + 1), by omega⟩, fun ⟨j, hj⟩ => by omega⟩
    rw [hall]
    exact hblocks
  · obtain ⟨hnodup, htable, hino, hdata', hblocks, hloose, hlogs⟩ := ht
    obtain ⟨hnotin, hnodup'⟩ := nodup_cons.mp hnodup
    have haddr : ∀ q, (t.volAt sb k).addr i q = (s.volAt sb k).addr i q := fun q =>
      addr_congr (by rw [hino]) (fun _ => by rw [hdata']) q
    have hword : (t.volAt sb k).addr i (NDIRECT + 1 + a) = (t.data ind).word a := by
      rw [addr_indirect (by omega), haddr, ← hindeq, if_neg hind, hdata, Nat.add_sub_cancel_left]
    have hinsert : {q | ∃ j, j ∉ rest ∧ q = NDIRECT + 1 + j}
        = insert (NDIRECT + 1 + a) {q | ∃ j, j ∉ a :: rest ∧ q = NDIRECT + 1 + j} := by
      ext q
      simp only [Set.mem_insert_iff, Set.mem_ofPred_eq, mem_cons, not_or]
      constructor
      · rintro ⟨j, hj, rfl⟩
        by_cases hja : j = a
        · exact .inl (by rw [hja])
        · exact .inr ⟨j, ⟨hja, hj⟩, rfl⟩
      · rintro (rfl | ⟨j, ⟨-, hj⟩, rfl⟩)
        · exact ⟨a, hnotin, rfl⟩
        · exact ⟨j, hj, rfl⟩
    have halloc : (t.volAt sb k).Alloc sb i := by
      unfold Vol.Alloc
      rw [hino]
      exact h.alloc
    unfold itruncEntry
    rw [wp_bind, wp_bread, wp_ite]
    constructor
    · intro hne
      rw [← hword] at hne ⊢
      have hnew : NDIRECT + 1 + a ∉ {q | ∃ j, j ∉ a :: rest ∧ q = NDIRECT + 1 + j} := by
        rintro ⟨j, hj, heq⟩
        exact hj (by rw [show j = a by omega]; exact mem_cons_self ..)
      have hti : (t.itable k).inum = i := by rw [htable]
      have hfree := bfree_place hl (s := t) (k := k) (E := E)
        (P := {q | ∃ j, j ∉ a :: rest ∧ q = NDIRECT + 1 + j}) (p := NDIRECT + 1 + a)
      rw [hti] at hfree
      refine (hfree hblocks halloc hne hnew).call ?_
      rintro _ s' ⟨htable', hino', hdata'', hblocks', hloose', hlogs'⟩
      refine ⟨hnodup', htable'.trans htable, hino'.trans hino, hdata''.trans hdata', ?_,
        fun c hc => hloose c (hloose' c hc), hlogs.trans hlogs'⟩
      rw [hinsert]
      exact hblocks'
    · intro hzero
      rw [wp_pure]
      refine ⟨hnodup', htable, hino, hdata', ?_, hloose, hlogs⟩
      rw [hinsert, blocksAt_insert_zero (hword.trans (not_not.mp hzero))]
      exact hblocks
  · refine ⟨nodup_range, rfl, rfl, rfl, ?_, fun _ hc => hc, .of_eq rfl⟩
    -- past the end of the block there are no entries
    have hnone : (s.volAt sb k).blocksAt i {q | ∃ j, j ∉ List.range NINDIRECT ∧
        q = NDIRECT + 1 + j} = ∅ := by
      refine Set.eq_empty_of_forall_notMem ?_
      rintro c ⟨hc, q, ⟨j, hj, rfl⟩, hq⟩
      have hge : BSIZE ≤ 4 * (NDIRECT + 1 + j - (NDIRECT + 1)) := by
        rw [mem_range] at hj
        simp only [NINDIRECT, BSIZE] at hj ⊢
        omega
      rw [addr_indirect (by omega), ← hindeq, if_neg hind, Block.word_of_ge hge] at hq
      exact hc hq.symm
    rw [hnone]
    exact h.blocks

theorem itruncIndirect_spec (h : Work sb s k) :
    wp E (itruncIndirect sb k) (fun _ s' => Work sb s' k ∧ Only s s' k ∧
      Shrinks (s.volAt sb k) (s'.volAt sb k) (s.itable k).inum ∧
      (s'.volAt sb k).addr (s.itable k).inum NDIRECT = 0 ∧ s.Logs s' sb.IsBitmap) s := by
  have haddr : (s.volAt sb k).addr (s.itable k).inum NDIRECT
      = ((s.itable k).din.addrs (Fin.last NDIRECT)).toNat := by
    rw [addr_last, Fs.volAt_ino]
  unfold itruncIndirect
  rw [wp_bind, wp_getInode, wp_ite, ← haddr]
  constructor
  · intro hne
    rw [wp_bind]
    refine (itruncEntries_spec hl h hne).call ?_
    rintro _ s1 ⟨htable, hino, hdata, hblocks, hloose, hlogs⟩
    rw [wp_bind]
    have hsame : (s1.volAt sb k).addr (s.itable k).inum NDIRECT
        = (s.volAt sb k).addr (s.itable k).inum NDIRECT :=
      addr_congr (by rw [hino]) (fun _ => by rw [hdata]) _
    have halloc : (s1.volAt sb k).Alloc sb (s.itable k).inum := by
      unfold Vol.Alloc
      rw [hino]
      exact h.alloc
    have hfree := bfree_place hl (s := s1) (k := k) (E := E) (P := {q | NDIRECT < q})
      (p := NDIRECT)
    rw [htable, hsame] at hfree
    refine (hfree hblocks halloc hne (lt_irrefl NDIRECT)).call ?_
    rintro _ s2 ⟨htable', hino', hdata', hblocks', hloose', hlogs'⟩
    rw [wp_modifyInode]
    obtain ⟨hwork, honly, hshrinks, hzero⟩ := h.clearAddr hl (j := Fin.last NDIRECT)
      (htable'.trans rfl) (hino'.trans hino) (hdata'.trans hdata) hblocks'
      (fun c hc => hloose c (hloose' c hc)) rfl fun q => by simp
    exact ⟨hwork, honly, hshrinks, hzero, hlogs.trans hlogs'⟩
  · intro hzero
    rw [wp_pure]
    exact ⟨h, .refl s k, .refl .., not_not.mp hzero, .of_eq rfl⟩

theorem itruncDirect_spec (h : Work sb s k) (j : Fin NDIRECT) :
    wp E (itruncDirect sb k j) (fun _ s' => Work sb s' k ∧ Only s s' k ∧
      Shrinks (s.volAt sb k) (s'.volAt sb k) (s.itable k).inum ∧
      (s'.volAt sb k).addr (s.itable k).inum j = 0 ∧ s.Logs s' sb.IsBitmap) s := by
  have haddr : (s.volAt sb k).addr (s.itable k).inum j
      = ((s.itable k).din.addrs j.castSucc).toNat := by
    rw [addr_direct (by omega), Fs.volAt_ino]
    rfl
  unfold itruncDirect
  rw [wp_bind, wp_getInode, wp_ite]
  constructor
  · intro hne
    rw [wp_bind, ← haddr]
    have hne' : (s.volAt sb k).addr (s.itable k).inum j ≠ 0 := by
      rw [haddr]
      exact fun h0 => hne (UInt32.toNat_inj.mp h0)
    have hblocks : (s.volAt sb k).Blocks sb ((s.volAt sb k).blocksAt (s.itable k).inum ∅) := by
      rw [blocksAt_empty]
      exact h.blocks
    refine (bfree_place hl hblocks h.alloc hne' (fun h => h)).call ?_
    rintro _ s1 ⟨htable, hino, hdata, hfreed, hloose, hlogs⟩
    rw [wp_modifyInode]
    have hlast : j.castSucc ≠ Fin.last NDIRECT := Fin.castSucc_ne_last j
    obtain ⟨hwork, honly, hshrinks, hzero⟩ := h.clearAddr hl (j := j.castSucc) htable hino hdata
      hfreed hloose rfl fun q => by simp [hlast]
    exact ⟨hwork, honly, hshrinks, hzero, hlogs⟩
  · intro hzero
    rw [wp_pure]
    refine ⟨h, .refl s k, .refl .., ?_, .of_eq rfl⟩
    rw [haddr, not_not.mp hzero]
    rfl

theorem itruncDirects_spec (h : Work sb s k) :
    wp E ((List.finRange NDIRECT).forM (itruncDirect sb k)) (fun _ s' => Work sb s' k ∧
      Only s s' k ∧ Shrinks (s.volAt sb k) (s'.volAt sb k) (s.itable k).inum ∧
      (∀ j : Fin NDIRECT, (s'.volAt sb k).addr (s.itable k).inum j = 0) ∧
      s.Logs s' sb.IsBitmap) s := by
  have hloop := wp.forM (E := E) (s := s) (l := List.finRange NDIRECT) (f := itruncDirect sb k)
    (I := fun rest t => Work sb t k ∧ Only s t k ∧
      Shrinks (s.volAt sb k) (t.volAt sb k) (s.itable k).inum ∧
      (∀ j : Fin NDIRECT, j ∉ rest → (t.volAt sb k).addr (s.itable k).inum j = 0) ∧
      s.Logs t sb.IsBitmap)
    (fun a rest t ht => ?_)
    ⟨h, .refl s k, .refl .., fun j hj => absurd (mem_finRange j) hj, .of_eq rfl⟩
  · refine hloop.call ?_
    rintro _ s' ⟨hwork, honly, hshrinks, hzero, hlogs⟩
    exact ⟨hwork, honly, hshrinks, fun j => hzero j not_mem_nil, hlogs⟩
  · obtain ⟨hwork, honly, hshrinks, hzero, hlogs⟩ := ht
    refine (itruncDirect_spec hl hwork a).call ?_
    rintro _ s' ⟨hwork', honly', hshrinks', hzero', hlogs'⟩
    rw [honly.inum] at hshrinks' hzero'
    refine ⟨hwork', honly.trans honly', hshrinks.trans hshrinks', fun j hj => ?_,
      hlogs.trans hlogs'⟩
    by_cases hja : j = a
    · rw [hja]
      exact hzero'
    · refine hshrinks'.zero_of_zero (hzero j ?_)
      rw [mem_cons, not_or]
      exact ⟨hja, hj⟩

end Itrunc

/-! ### `iupdate` -/

section Iupdate

variable {sb : Superblock} (hl : sb.Layout) {s : Fs} {k : Fin NINODE}

include hl

theorem iupdate_spec (hk : (s.itable k).inum < sb.ninodes) {E : FsPanic → Prop} :
    wp E (iupdate sb k) (fun _ s' => s'.vol sb = s.volAt sb k ∧ s'.itable = s.itable ∧
      (∀ c, s'.Loose c → s.Loose c) ∧ s.Logs s' (· = sb.IBLOCK (s.itable k).inum)) s := by
  unfold iupdate
  simp only [wp_bind, wp_getInode, wp_modifyBuf, wp_logWrite]
  exact ⟨volOf_setDinode hl hk _, trivial, fun c hc => (loose_write hc).1, fun c hc =>
    mem_logged hc⟩

omit hl in
theorem volAt_of_synced {s' : Fs} (hvol : s'.vol sb = s.volAt sb k) (htable : s'.itable = s.itable) :
    s'.volAt sb k = s'.vol sb := by
  show (s'.vol sb).setIno _ _ = _
  rw [hvol, htable]
  unfold Fs.volAt Vol.setIno
  simp only [update_idem]

theorem Work.setDin (h : Work sb s k) {d : Dinode} (haddrs : d.addrs = (s.itable k).din.addrs)
    (htype : d.type = (s.itable k).din.type) {s' : Fs}
    (hs' : s' = { s with itable := update s.itable k { s.itable k with din := d } }) :
    Work sb s' k ∧ Only s s' k ∧ s'.volAt sb k = (s.volAt sb k).setIno (s.itable k).inum d := by
  have hself : s'.itable k = { s.itable k with din := d } := by
    rw [hs']
    exact update_self ..
  have hv : s'.volAt sb k = (s.volAt sb k).setIno (s.itable k).inum d :=
    volAt_modify hself (by rw [hs']; rfl)
  have haddrs' : d.addrs = ((s.volAt sb k).ino (s.itable k).inum).addrs := by
    rw [Fs.volAt_ino, haddrs]
  have htype' : d.type = ((s.volAt sb k).ino (s.itable k).inum).type := by
    rw [Fs.volAt_ino, htype]
  have hsame : ∀ j q, (s'.volAt sb k).addr j q = (s.volAt sb k).addr j q := by
    rw [hv]
    exact addr_setIno haddrs'
  have htypes : ∀ j, ((s'.volAt sb k).ino j).type = ((s.volAt sb k).ino j).type := by
    rw [hv]
    exact type_setIno htype'
  refine ⟨⟨by rw [hself]; exact h.inum, by rw [hself]; exact htype ▸ h.type, ?_, ?_⟩,
    ⟨d, by rw [hs']⟩, hv⟩
  · refine h.blocks.congr hl (fun b _ j q => ?_) (by rw [hv]; rfl)
    rw [Vol.alloc_congr htypes, hsame]
  · intro b hb
    obtain ⟨hdata, hplace⟩ := h.tidy b (by rw [hs'] at hb; exact hb)
    refine ⟨hdata, fun j q hj hq => ?_⟩
    rw [htypes]
    exact hplace j q ((Vol.alloc_congr htypes).mp hj) ((hsame j q).symm.trans hq)

theorem itrunc_spec (h : Work sb s k) {E : FsPanic → Prop} :
    wp E (itrunc sb k) (fun _ s' => s'.vol sb = s'.volAt sb k ∧ Only s s' k ∧
      (s'.vol sb).Blocks sb ∅ ∧ Tidy sb s' (s'.vol sb) ∧
      (s'.vol sb).data = (s.volAt sb k).data ∧
      (∀ j, j ≠ (s.itable k).inum → (s'.vol sb).ino j = (s.volAt sb k).ino j) ∧
      (s'.vol sb).ino (s.itable k).inum = { (s.itable k).din with size := 0, addrs := 0 } ∧
      s.Logs s' fun c => sb.IsBitmap c ∨ c = sb.IBLOCK (s.itable k).inum) s := by
  unfold itrunc
  rw [wp_bind]
  refine (itruncDirects_spec hl h).call ?_
  rintro _ s1 ⟨hwork1, honly1, hshrinks1, hzero1, hlogs1⟩
  rw [wp_bind]
  refine (itruncIndirect_spec hl hwork1).call ?_
  rintro _ s2 ⟨hwork2, honly2, hshrinks2, hzero2, hlogs2⟩
  rw [honly1.inum] at hshrinks2 hzero2
  rw [wp_bind, wp_modifyInode]
  set s3 : Fs := { s2 with
    itable := update s2.itable k { s2.itable k with
      din := { (s2.itable k).din with size := 0 } } } with hs3
  have honly : Only s s2 k := honly1.trans honly2
  have hshrinks := hshrinks1.trans hshrinks2
  obtain ⟨hwork3, honly3, hv3⟩ := hwork2.setDin hl
    (d := { (s2.itable k).din with size := 0 }) rfl rfl hs3
  refine (iupdate_spec hl hwork3.inum).call ?_
  rintro _ s' ⟨hvol, htable, hloose, hlogs⟩
  -- every place of the inode is empty
  have haddrs : (s2.itable k).din.addrs = 0 := by
    funext q
    have hq : (s2.volAt sb k).addr (s.itable k).inum q = 0 := by
      by_cases hlt : q.val < NDIRECT
      · exact hshrinks2.zero_of_zero (hzero1 ⟨q, hlt⟩)
      · rw [show q.val = NDIRECT by have := q.isLt; omega]
        exact hzero2
    rw [addr_direct q.isLt, ← honly.inum, Fs.volAt_ino] at hq
    exact UInt32.toNat_inj.mp hq
  have hdin : { (s2.itable k).din with size := 0 }
      = { (s.itable k).din with size := 0, addrs := 0 } := by
    obtain ⟨a, ha⟩ := hshrinks.same
    rw [← honly.inum, Fs.volAt_ino, honly.inum, Fs.volAt_ino] at ha
    rw [haddrs.symm, ha]
  have hlogs' : s.Logs s3 fun c => sb.IsBitmap c ∨ c = sb.IBLOCK (s.itable k).inum :=
    (hlogs1.trans hlogs2).mono fun c hc => .inl hc
  refine ⟨(volAt_of_synced hvol htable).symm, ?_, hvol ▸ hwork3.blocks, ?_, ?_, ?_, ?_,
    hlogs'.trans (hlogs.mono fun c hc => .inr ?_)⟩
  · exact (honly.trans honly3).trans (.of_eq htable)
  · rw [hvol]
    exact fun b hb => hwork3.tidy b (hloose b hb)
  · rw [hvol, hv3]
    exact hshrinks.data
  · intro j hj
    rw [hvol, hv3]
    show update _ _ _ j = _
    rw [update_of_ne (by rw [honly.inum]; exact hj)]
    exact hshrinks.ino j hj
  · rw [hvol, hv3, ← honly.inum]
    show update _ _ _ _ = _
    rw [update_self]
    exact hdin
  · rw [hc, honly3.inum, honly.inum]

end Iupdate

end Xv6
