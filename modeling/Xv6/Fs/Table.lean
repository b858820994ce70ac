import Xv6.Fs.File

/-!
# The state between calls

Between two calls the disk is well formed and the inode table agrees with it.
-/

namespace Xv6

open Prog Vol Function

/-- Every block has one owner or is free, and files have the blocks their sizes ask for. -/
structure Vol.WellFormed (sb : Superblock) (v : Vol) : Prop where
  blocks : v.Blocks sb ∅
  covered : ∀ i, v.Alloc sb i → v.Covered i

structure InodeOk (sb : Superblock) (v : Vol) (ip : Inode) : Prop where
  inum : 0 < ip.ref → ip.inum < sb.ninodes
  dev : 0 < ip.ref → ip.dev = ROOTDEV
  copy : 0 < ip.ref → ip.valid = true → v.ino ip.inum = ip.din ∧ ip.din.type ≠ 0
  held : ip.lock = true → 0 < ip.ref ∧ ip.valid = true

/-- The inode table agrees with the disk: an inode has at most one entry, and an entry that is valid
holds the inode of the disk. -/
structure Table (sb : Superblock) (v : Vol) (t : Fin NINODE → Inode) : Prop where
  entry : ∀ k, InodeOk sb v (t k)
  uniq : ∀ j k, 0 < (t j).ref → 0 < (t k).ref → (t j).inum = (t k).inum → j = k

/-- What the functions of the inode layer keep: the disk is well formed, a recycled buffer can lose
nothing but the content of a file, and the inode table agrees with the disk. -/
structure Fs.Good (sb : Superblock) (s : Fs) : Prop where
  wf : (s.vol sb).WellFormed sb
  tidy : Tidy sb s (s.vol sb)
  table : Table sb (s.vol sb) s.itable

variable {t : Fin NINODE → Inode} {ip : Inode} {v v' : Vol}

theorem Table.set {sb : Superblock} {k : Fin NINODE} (h : Table sb v t) (hip : InodeOk sb v' ip)
    (hino : ∀ j, j ≠ k → 0 < (t j).ref → v'.ino (t j).inum = v.ino (t j).inum)
    (huniq : 0 < ip.ref → ∀ j, j ≠ k → 0 < (t j).ref → (t j).inum ≠ ip.inum) :
    Table sb v' (update t k ip) where
  entry j := by
    by_cases hj : j = k
    · rw [hj, update_self]
      exact hip
    · rw [update_of_ne hj]
      refine ⟨(h.entry j).inum, (h.entry j).dev, fun hr hv => ?_, (h.entry j).held⟩
      rw [hino j hj hr]
      exact (h.entry j).copy hr hv
  uniq i j := by
    by_cases hi : i = k <;> by_cases hj : j = k
    · exact fun _ _ _ => hi.trans hj.symm
    · rw [hi, update_self, update_of_ne hj]
      exact fun hr hr' heq => absurd heq.symm (huniq hr j hj hr')
    · rw [hj, update_self, update_of_ne hi]
      exact fun hr hr' heq => absurd heq (huniq hr' i hi hr)
    · rw [update_of_ne hi, update_of_ne hj]
      exact h.uniq i j

theorem Table.modify {sb : Superblock} {k : Fin NINODE} (h : Table sb v t) (hk : 0 < (t k).ref)
    (hinum : ip.inum = (t k).inum) (hip : InodeOk sb v' ip)
    (hino : ∀ i, i ≠ (t k).inum → v'.ino i = v.ino i) : Table sb v' (update t k ip) := by
  have hne : ∀ j, j ≠ k → 0 < (t j).ref → (t j).inum ≠ (t k).inum := fun j hj hr heq =>
    hj (h.uniq j k hr hk heq)
  refine h.set hip (fun j hj hr => hino _ (hne j hj hr)) fun _ j hj hr => ?_
  rw [hinum]
  exact hne j hj hr

section Good

variable {sb : Superblock} {s s' : Fs} {k : Fin NINODE}

theorem Fs.Good.volAt (h : s.Good sb) (hr : 0 < (s.itable k).ref)
    (hv : (s.itable k).valid = true) : s.volAt sb k = s.vol sb := by
  unfold Fs.volAt Vol.setIno
  rw [← ((h.table.entry k).copy hr hv).1, update_eq_self]

theorem Fs.Good.work (h : s.Good sb) (hr : 0 < (s.itable k).ref)
    (hv : (s.itable k).valid = true) : Work sb s k where
  inum := (h.table.entry k).inum hr
  type := ((h.table.entry k).copy hr hv).2
  blocks := by rw [h.volAt hr hv]; exact h.wf.blocks
  tidy := by rw [h.volAt hr hv]; exact h.tidy

theorem Fs.Good.alloc (h : s.Good sb) (hr : 0 < (s.itable k).ref)
    (hv : (s.itable k).valid = true) : (s.vol sb).Alloc sb (s.itable k).inum := by
  rw [← h.volAt hr hv]
  exact (h.work hr hv).alloc

theorem Fs.Good.of_work (h : s.Good sb) (hr : 0 < (s.itable k).ref)
    (hsynced : s'.vol sb = s'.volAt sb k) (honly : Only s s' k)
    (hblocks : (s'.vol sb).Blocks sb ∅) (htidy : Tidy sb s' (s'.vol sb))
    (hino : ∀ j, j ≠ (s.itable k).inum → (s'.vol sb).ino j = (s.vol sb).ino j)
    (htype : ((s'.vol sb).ino (s.itable k).inum).type ≠ 0)
    (haddr : ∀ j q, (s.vol sb).Alloc sb j → j ≠ (s.itable k).inum →
      (s'.vol sb).addr j q = (s.vol sb).addr j q)
    (hcov : (s'.vol sb).Covered (s.itable k).inum) : s'.Good sb := by
  have hself : (s'.vol sb).ino (s.itable k).inum = (s'.itable k).din := by
    rw [hsynced, ← honly.inum, Fs.volAt_ino]
  refine ⟨⟨hblocks, fun j hj => ?_⟩, htidy, ?_⟩
  · by_cases hji : j = (s.itable k).inum
    · rw [hji]
      exact hcov
    · have hj' : (s.vol sb).Alloc sb j := ⟨hj.1, by rw [← hino j hji]; exact hj.2⟩
      obtain ⟨hmax, hplace⟩ := h.wf.covered j hj'
      have hsize : (s'.vol sb).size j = (s.vol sb).size j := by
        unfold Vol.size
        rw [hino j hji]
      refine ⟨hsize ▸ hmax, fun n hn => ?_⟩
      rw [haddr j _ hj' hji]
      exact hplace n (hsize ▸ hn)
  · obtain ⟨d, hd⟩ := honly
    have hd' : (s'.itable k).din = d := by rw [hd, update_self]
    have hentry := h.table.entry k
    rw [hd]
    refine h.table.modify hr rfl ⟨hentry.inum, hentry.dev, fun _ _ => ?_, hentry.held⟩ hino
    rw [hd'] at hself
    exact ⟨hself, hself ▸ htype⟩

theorem Written.good {src : Nat → Option UInt8} {off n w : Nat} (hw : Written sb s k off n src w s')
    (h : s.Good sb) (hr : 0 < (s.itable k).ref) (hv : (s.itable k).valid = true) : s'.Good sb := by
  have hino := hw.ino
  have haddr := hw.addr
  rw [h.volAt hr hv] at hino haddr
  refine h.of_work hr hw.synced hw.only hw.blocks hw.tidy hino ?_
    (fun j q hj hji => haddr j q hj (.inl hji)) hw.covered
  obtain ⟨a, z, ha⟩ := hw.self
  rw [ha]
  exact ((h.table.entry k).copy hr hv).2

end Good

/-! ### References and locks -/

section Entries

variable {sb : Superblock} {s s' : Fs} {k : Fin NINODE}

def Fs.setEntry (s : Fs) (k : Fin NINODE) (ip : Inode) : Fs :=
  { s with itable := update s.itable k ip }

@[simp] theorem Fs.vol_setEntry (ip : Inode) : (s.setEntry k ip).vol sb = s.vol sb := rfl

@[simp] theorem Fs.itable_setEntry (ip : Inode) : (s.setEntry k ip).itable k = ip :=
  update_self ..

theorem Fs.itable_setEntry_ne {j : Fin NINODE} (hj : j ≠ k) (ip : Inode) :
    (s.setEntry k ip).itable j = s.itable j :=
  update_of_ne hj ..

theorem Fs.Good.setEntry (h : s.Good sb) (hr : 0 < (s.itable k).ref)
    (hinum : ip.inum = (s.itable k).inum) (hip : InodeOk sb (s.vol sb) ip) :
    (s.setEntry k ip).Good sb where
  __ := h
  table := h.table.modify hr hinum hip fun _ _ => rfl

theorem Fs.Good.newEntry (h : s.Good sb) (hip : InodeOk sb (s.vol sb) ip)
    (hnew : ∀ j, 0 < (s.itable j).ref → (s.itable j).inum ≠ ip.inum) :
    (s.setEntry k ip).Good sb where
  __ := h
  table := h.table.set hip (fun _ _ _ => rfl) fun _ j _ hr => hnew j hr

/-- What `iget(dev, inum)` does to the table: there is one more reference to the inode. -/
inductive Iget (t : Fin NINODE → Inode) (inum : Nat) (k : Fin NINODE) :
    (Fin NINODE → Inode) → Prop where
  | found (hr : 0 < (t k).ref) (hk : (t k).inum = inum) :
    Iget t inum k (update t k { t k with ref := (t k).ref + 1 })
  | new (hr : (t k).ref = 0) (hnew : ∀ j, 0 < (t j).ref → (t j).inum ≠ inum) :
    Iget t inum k (update t k { t k with
      dev := ROOTDEV
      inum := inum
      ref := 1
      valid := false })

/-- `iget` fails only if every entry is in use. -/
theorem iget_entries (hdev : ∀ j, 0 < (s.itable j).ref → (s.itable j).dev = ROOTDEV) (inum : Nat) :
    wp (fun e => e = .tableFull ∧ ∀ j, (s.itable j).ref ≠ 0) (iget ROOTDEV inum)
      (fun k s' => ∃ t, s' = { s with itable := t } ∧ Iget s.itable inum k t) s := by
  rw [iget, wp_bind, wp_get]
  cases hfind : (List.finRange NINODE).find? fun k =>
      decide (0 < (s.itable k).ref ∧ (s.itable k).dev = ROOTDEV ∧ (s.itable k).inum = inum) with
  | some k =>
    have hk := List.find?_some hfind
    rw [decide_eq_true_iff] at hk
    exact ⟨_, rfl, .found hk.1 hk.2.2⟩
  | none =>
    have hnew : ∀ j, 0 < (s.itable j).ref → (s.itable j).inum ≠ inum := fun j hr hj => by
      have hnone := List.find?_eq_none.mp hfind j (List.mem_finRange j)
      exact hnone (decide_eq_true ⟨hr, hdev j hr, hj⟩)
    dsimp only
    cases hfree : (List.finRange NINODE).find? fun k => decide ((s.itable k).ref = 0) with
    | some k =>
      have hk := List.find?_some hfree
      rw [decide_eq_true_iff] at hk
      exact ⟨_, rfl, .new hk hnew⟩
    | none =>
      refine ⟨rfl, fun j hj => ?_⟩
      exact List.find?_eq_none.mp hfree j (List.mem_finRange j) (decide_eq_true hj)

theorem iget_spec (h : s.Good sb) (inum : Nat) :
    wp (fun e => e = .tableFull) (iget ROOTDEV inum)
      (fun k s' => ∃ t, s' = { s with itable := t } ∧ Iget s.itable inum k t) s :=
  (iget_entries (fun j hr => (h.table.entry j).dev hr) inum).mono (fun _ _ hpost => hpost)
    fun _ he => he.1

theorem Iget.good {inum : Nat} (hget : Iget s.itable inum k t) (h : s.Good sb)
    (hinum : inum < sb.ninodes) : Fs.Good sb { s with itable := t } := by
  have hentry := h.table.entry k
  cases hget with
  | found hr hk =>
    refine h.setEntry hr rfl ⟨fun _ => hentry.inum hr, fun _ => hentry.dev hr, fun _ => hentry.copy hr,
      fun hlock => ⟨Nat.succ_pos _, (hentry.held hlock).2⟩⟩
  | new hr hnew =>
    refine h.newEntry ⟨fun _ => hinum, fun _ => rfl, fun _ hv => ?_, fun hlock => ?_⟩ hnew
    · cases hv
    · exact absurd hr (hentry.held hlock).1.ne'

theorem Iget.keep {t' : Fin NINODE → Inode} {inum : Nat} (hget : Iget t inum k t') {j : Fin NINODE}
    (hr : 0 < (t j).ref) : t' j = if j = k then { t j with ref := (t j).ref + 1 } else t j := by
  by_cases hj : j = k
  · rw [if_pos hj]
    subst hj
    cases hget with
    | found => exact update_self ..
    | new hzero => exact absurd hzero hr.ne'
  · rw [if_neg hj]
    cases hget with
    | found | new => exact update_of_ne hj ..

theorem Iget.self {inum : Nat} (hget : Iget s.itable inum k t) (h : s.Good sb) :
    0 < (t k).ref ∧ (t k).inum = inum ∧ ((t k).lock = true → 1 < (t k).ref) := by
  cases hget with
  | found hr hk =>
    rw [update_self]
    exact ⟨Nat.succ_pos _, hk, fun _ => Nat.lt_succ_of_le hr⟩
  | new hr =>
    rw [update_self]
    exact ⟨Nat.one_pos, rfl, fun hlock => absurd hr ((h.table.entry k).held hlock).1.ne'⟩

theorem ilock_spec (hentry : InodeOk sb (s.vol sb) (s.itable k)) :
    wp (fun e => e = .ilock ∧ (s.itable k).ref = 0 ∨ e = .asleep ∧ (s.itable k).lock = true ∨
        e = .noType ∧ ((s.vol sb).ino (s.itable k).inum).type = 0)
      (ilock sb k)
      (fun _ s' => 0 < (s.itable k).ref ∧ (s.itable k).lock = false ∧
        ((s.vol sb).ino (s.itable k).inum).type ≠ 0 ∧ s' = s.setEntry k { s.itable k with
          lock := true
          valid := true
          din := (s.vol sb).ino (s.itable k).inum }) s := by
  unfold ilock
  rw [wp_bind, wp_getInode, wp_ite]
  refine ⟨fun hnone => .inl ⟨rfl, Nat.lt_one_iff.mp hnone⟩, fun hr => ?_⟩
  replace hr : 0 < (s.itable k).ref := by omega
  unfold acquireInode
  rw [wp_bind, wp_bind, wp_getInode, wp_ite]
  refine ⟨fun hlock => .inr (.inl ⟨rfl, hlock⟩), fun hlock => ?_⟩
  rw [Bool.not_eq_true] at hlock
  rw [wp_modifyInode]
  by_cases hv : (s.itable k).valid = true
  · have hno : ¬ (s.itable k).valid = false := by simp [hv]
    rw [if_neg hno, wp_pure]
    obtain ⟨hcopy, htype⟩ := hentry.copy hr hv
    refine ⟨hr, hlock, hcopy ▸ htype, ?_⟩
    unfold Fs.setEntry
    rw [hcopy, ← hv]
  · rw [if_pos (Bool.eq_false_of_not_eq_true hv)]
    have hino : (s.vol sb).ino (s.itable k).inum = diskInode sb s.data (s.itable k).inum :=
      if_pos (hentry.inum hr)
    unfold readInode
    simp only [wp_bind, wp_getInode, wp_bread, wp_modifyInode, wp_ite, update_self]
    rw [hino]
    refine ⟨fun htype => .inr (.inr ⟨rfl, htype⟩), fun htype => ⟨hr, hlock, htype, ?_⟩⟩
    unfold Fs.setEntry
    simp only [update_idem]
    rfl

theorem ilock_good (h : s.Good sb) (hr : 0 < (s.itable k).ref)
    (htype : ((s.vol sb).ino (s.itable k).inum).type ≠ 0) :
    Fs.Good sb (s.setEntry k { s.itable k with
      lock := true
      valid := true
      din := (s.vol sb).ino (s.itable k).inum }) :=
  h.setEntry hr rfl ⟨(h.table.entry k).inum, (h.table.entry k).dev, fun _ _ => ⟨rfl, htype⟩,
    fun _ => ⟨hr, rfl⟩⟩

theorem iunlock_spec :
    wp (fun e => e = .iunlock ∧ ((s.itable k).lock = false ∨ (s.itable k).ref = 0)) (iunlock k)
      (fun _ s' => (s.itable k).lock = true ∧ 0 < (s.itable k).ref ∧
        s' = s.setEntry k { s.itable k with lock := false }) s := by
  unfold iunlock
  rw [wp_bind, wp_getInode, wp_ite]
  refine ⟨fun hbad => ⟨rfl, hbad.imp_right Nat.lt_one_iff.mp⟩, fun hok => ?_⟩
  rw [wp_modifyInode]
  rw [not_or] at hok
  exact ⟨by simpa using hok.1, by omega, rfl⟩

theorem iunlock_good (h : s.Good sb) (hr : 0 < (s.itable k).ref) :
    Fs.Good sb (s.setEntry k { s.itable k with lock := false }) :=
  h.setEntry hr rfl ⟨(h.table.entry k).inum, (h.table.entry k).dev, (h.table.entry k).copy,
    fun hlock => by cases hlock⟩

end Entries

/-! ### Freeing inodes -/

section Free

variable {sb : Superblock} (hl : sb.Layout) {s s' : Fs} {k : Fin NINODE}

theorem addr_of_same {j : Nat} (hino : v'.ino j = v.ino j) (hdata : v'.data = v.data) (q : Nat) :
    v'.addr j q = v.addr j q :=
  addr_congr (by rw [hino]) (fun _ => by rw [hdata]) q

include hl

variable {E : FsPanic → Prop}

theorem iupdate_changed (h : s.Good sb) (hr : 0 < (s.itable k).ref) (hv : (s.itable k).valid = true)
    (d : Dinode) :
    wp E (iupdate sb k) (fun _ s' => s'.vol sb = (s.vol sb).setIno (s.itable k).inum d ∧
      s'.itable = update s.itable k { s.itable k with din := d } ∧
      (∀ c, s'.Loose c → s.Loose c) ∧ s.Logs s' (· = sb.IBLOCK (s.itable k).inum))
      (s.setEntry k { s.itable k with din := d }) := by
  have hinum : ((s.setEntry k { s.itable k with din := d }).itable k).inum < sb.ninodes := by
    rw [Fs.itable_setEntry]
    exact (h.table.entry k).inum hr
  refine (iupdate_spec hl hinum).call fun _ s' hup => ⟨?_, hup.2.1, hup.2.2.1, ?_⟩
  · rw [hup.1, volAt_modify (d := d) (Fs.itable_setEntry _) rfl, h.volAt hr hv]
  · have hlogs := hup.2.2.2
    rwa [Fs.itable_setEntry] at hlogs

theorem iupdate_good (h : s.Good sb) (hr : 0 < (s.itable k).ref) (hv : (s.itable k).valid = true)
    {d : Dinode} (htype : d.type = (s.itable k).din.type) (hsize : d.size = (s.itable k).din.size)
    (haddrs : d.addrs = (s.itable k).din.addrs)
    (hvol : s'.vol sb = (s.vol sb).setIno (s.itable k).inum d)
    (htable : s'.itable = update s.itable k { s.itable k with din := d })
    (hloose : ∀ c, s'.Loose c → s.Loose c) : s'.Good sb := by
  obtain ⟨hcopy, hne⟩ := (h.table.entry k).copy hr hv
  have haddr : ∀ j q, (s'.vol sb).addr j q = (s.vol sb).addr j q := by
    rw [hvol]
    exact addr_setIno (by rw [hcopy, haddrs])
  have htypes : ∀ j, ((s'.vol sb).ino j).type = ((s.vol sb).ino j).type := by
    rw [hvol]
    exact type_setIno (by rw [hcopy, htype])
  have hself : (s'.vol sb).ino (s.itable k).inum = d := by
    rw [hvol]
    exact update_self ..
  have hother : ∀ j, j ≠ (s.itable k).inum → (s'.vol sb).ino j = (s.vol sb).ino j := by
    rw [hvol]
    exact fun j hj => update_of_ne hj ..
  have hsizes : ∀ j, (s'.vol sb).size j = (s.vol sb).size j := by
    intro j
    unfold Vol.size
    by_cases hj : j = (s.itable k).inum
    · rw [hj, hself, hcopy, hsize]
    · rw [hother j hj]
  refine ⟨⟨h.wf.blocks.congr hl (fun b _ j q => ?_) (by rw [hvol]; rfl), fun j hj => ?_⟩,
    fun b hb => ?_, ?_⟩
  · rw [Vol.alloc_congr htypes, haddr]
  · unfold Vol.Covered
    simp only [hsizes, haddr]
    exact h.wf.covered j ((Vol.alloc_congr htypes).mp hj)
  · obtain ⟨hdata, hplace⟩ := h.tidy b (hloose b hb)
    refine ⟨hdata, fun j q hj hq => ?_⟩
    rw [htypes]
    exact hplace j q ((Vol.alloc_congr htypes).mp hj) ((haddr j q).symm.trans hq)
  · have hentry := h.table.entry k
    rw [htable]
    exact h.table.modify hr rfl ⟨hentry.inum, hentry.dev, fun _ _ => ⟨hself, htype ▸ hne⟩,
      hentry.held⟩ hother

theorem itrunc_good (h : s.Good sb) (hr : 0 < (s.itable k).ref) (hv : (s.itable k).valid = true) :
    wp E (itrunc sb k) (fun _ s' => s'.Good sb ∧ Only s s' k ∧ (s'.vol sb).data = (s.vol sb).data ∧
      (s'.vol sb).ino = update (s.vol sb).ino (s.itable k).inum
        { (s.itable k).din with size := 0, addrs := 0 } ∧
      s.Logs s' fun c => sb.IsBitmap c ∨ c = sb.IBLOCK (s.itable k).inum) s := by
  refine (itrunc_spec hl (h.work hr hv)).call fun _ s' hpost => ?_
  rw [h.volAt hr hv] at hpost
  obtain ⟨hsynced, honly, hblocks, htidy, hdata, hino, hself, hlogs⟩ := hpost
  refine ⟨?_, honly, hdata, ?_, hlogs⟩
  · refine h.of_work hr hsynced honly hblocks htidy hino ?_
      (fun j q _ hj => addr_of_same (hino j hj) hdata q) ?_
    · rw [hself]
      exact ((h.table.entry k).copy hr hv).2
    · have hsize : (s'.vol sb).size (s.itable k).inum = 0 := by
        rw [Vol.size, hself]
        rfl
      rw [Vol.Covered, hsize]
      exact ⟨Nat.zero_le _, fun n hn => absurd hn (Nat.not_lt_zero _)⟩
  · funext j
    by_cases hj : j = (s.itable k).inum
    · rw [hj, hself, update_self]
    · rw [hino j hj, update_of_ne hj]

theorem Fs.Good.freeInode (h : s.Good sb) (hr : 0 < (s.itable k).ref)
    (hv : (s.itable k).valid = true) (hempty : (s.itable k).din.addrs = 0) (hip : ip.ref = 0)
    (hlock : ip.lock = false)
    (hvol : s'.vol sb = (s.vol sb).setIno (s.itable k).inum { (s.itable k).din with type := 0 })
    (htable : s'.itable = update s.itable k ip) (hloose : ∀ c, s'.Loose c → s.Loose c) : s'.Good sb := by
  obtain ⟨hcopy, -⟩ := (h.table.entry k).copy hr hv
  have haddr : ∀ j q, (s'.vol sb).addr j q = (s.vol sb).addr j q := by
    rw [hvol]
    refine addr_setIno ?_
    rw [hcopy]
  have hother : ∀ j, j ≠ (s.itable k).inum → (s'.vol sb).ino j = (s.vol sb).ino j := by
    rw [hvol]
    exact fun j hj => update_of_ne hj ..
  -- the inode has no blocks, so no place is lost
  have hzero : ∀ q, (s.vol sb).addr (s.itable k).inum q = 0 := by
    intro q
    unfold Vol.addr
    rw [hcopy, hempty]
    split
    · rfl
    · exact if_pos rfl
  have halloc : ∀ j, (s'.vol sb).Alloc sb j ↔ (s.vol sb).Alloc sb j ∧ j ≠ (s.itable k).inum := by
    intro j
    by_cases hj : j = (s.itable k).inum
    · refine iff_of_false (fun hj' => hj'.2 ?_) fun hj' => hj'.2 hj
      rw [hvol, hj, Vol.setIno]
      simp only [update_self]
    · unfold Vol.Alloc
      rw [hother j hj]
      exact ⟨fun hj' => ⟨hj', hj⟩, And.left⟩
  refine ⟨⟨h.wf.blocks.congr hl (fun b hb j q => ?_) (by rw [hvol]; rfl), fun j hj => ?_⟩,
    fun b hb => ?_, ?_⟩
  · rw [halloc, haddr]
    refine ⟨fun hj => ⟨hj.1.1, hj.2⟩, fun hj => ⟨⟨hj.1, fun heq => hb ?_⟩, hj.2⟩⟩
    rw [← hj.2, heq, hzero]
  · obtain ⟨hj', hne⟩ := (halloc j).mp hj
    obtain ⟨hmax, hplace⟩ := h.wf.covered j hj'
    unfold Vol.Covered Vol.size
    simp only [hother j hne, haddr]
    exact ⟨hmax, hplace⟩
  · obtain ⟨hdata, hplace⟩ := h.tidy b (hloose b hb)
    refine ⟨hdata, fun j q hj hq => ?_⟩
    obtain ⟨hj', hne⟩ := (halloc j).mp hj
    rw [hother j hne]
    exact hplace j q hj' ((haddr j q).symm.trans hq)
  · rw [htable]
    refine h.table.set ⟨fun hr' => ?_, fun hr' => ?_, fun hr' => ?_, fun hl' => ?_⟩
      (fun j hj hr' => hother _ fun heq => hj (h.table.uniq j k hr' hr heq)) fun hr' => ?_
    · exact absurd hip hr'.ne'
    · exact absurd hip hr'.ne'
    · exact absurd hip hr'.ne'
    · rw [hlock] at hl'
      cases hl'
    · exact absurd hip hr'.ne'

/-- `iput` drops the last reference to an inode without links. -/
def Inode.Dead (ip : Inode) : Prop := ip.ref = 1 ∧ ip.valid = true ∧ ip.din.nlink = 0

instance (ip : Inode) : Decidable ip.Dead := inferInstanceAs (Decidable (_ ∧ _))

structure Iput (sb : Superblock) (s : Fs) (k : Fin NINODE) (s' : Fs) : Prop where
  good : s'.Good sb
  entry : ∃ ip : Inode, s'.itable = update s.itable k ip ∧ ip.inum = (s.itable k).inum ∧
    ip.ref = (s.itable k).ref - 1 ∧ ip.lock = (s.itable k).lock ∧
    (1 < (s.itable k).ref → ip = { s.itable k with ref := (s.itable k).ref - 1 })
  data : (s'.vol sb).data = (s.vol sb).data
  ino : (s'.vol sb).ino = if (s.itable k).Dead then
      update (s.vol sb).ino (s.itable k).inum
        { (s.itable k).din with type := 0, size := 0, addrs := 0 }
    else (s.vol sb).ino
  logs : s.Logs s' fun c => (s.itable k).Dead ∧ (sb.IsBitmap c ∨ c = sb.IBLOCK (s.itable k).inum)

theorem ifree_spec (h : s.Good sb) (hdead : (s.itable k).Dead) (hlock : (s.itable k).lock = false) :
    wp E (ifree sb k) (fun _ s' => Iput sb s k
      (s'.setEntry k { s'.itable k with ref := (s'.itable k).ref - 1 })) s := by
  obtain ⟨hr, hv, hlink⟩ := hdead
  unfold ifree acquireInode
  rw [wp_bind, wp_bind, wp_getInode, hlock, if_neg Bool.false_ne_true, wp_modifyInode]
  have hentry := h.table.entry k
  have h1 : (s.setEntry k { s.itable k with lock := true }).Good sb := by
    refine h.setEntry (by omega) rfl ⟨hentry.inum, hentry.dev, hentry.copy, fun _ => ⟨?_, hv⟩⟩
    exact hr ▸ Nat.one_pos
  rw [wp_bind]
  refine (itrunc_good hl h1 ?_ ?_).call fun _ s2 hpost => ?_
  · rw [Fs.itable_setEntry]
    exact hr ▸ Nat.one_pos
  · rw [Fs.itable_setEntry]
    exact hv
  obtain ⟨hgood2, honly2, hdata2, hino2, hlogs2⟩ := hpost
  obtain ⟨d, hd⟩ := honly2
  rw [Fs.itable_setEntry] at hd hino2 hlogs2
  have hself : s2.itable k = { s.itable k with lock := true, din := d } := by
    rw [hd, update_self]
  -- the inode is empty in memory too
  have hdin : d = { (s.itable k).din with size := 0, addrs := 0 } := by
    have hcopy := ((hgood2.table.entry k).copy (by rw [hself]; exact hr ▸ Nat.one_pos)
      (by rw [hself]; exact hv)).1
    rw [hself, hino2] at hcopy
    exact hcopy.symm.trans (update_self ..)
  have hr2 : 0 < (s2.itable k).ref := by
    rw [hself]
    exact hr ▸ Nat.one_pos
  have hv2 : (s2.itable k).valid = true := by
    rw [hself]
    exact hv
  rw [wp_bind, wp_modifyInode, wp_bind]
  refine (iupdate_changed hl hgood2 hr2 hv2 { (s2.itable k).din with type := 0 }).call
    ?_
  rintro _ s4 ⟨hvol, htable, hloose, hlogs⟩
  rw [hself] at hlogs
  rw [wp_modifyInode]
  -- the state in the end
  set ip : Inode := { s.itable k with
    ref := 0
    lock := false
    valid := false
    din := { d with type := 0 } } with hip
  have hend : ∀ s6 : Fs, s6.data = s4.data → s6.logged = s4.logged →
      s6.itable = update s2.itable k ip → s6.lh = s4.lh → Iput sb s k s6 := by
    intro s6 hdata hlogged hitable hlh
    have hvol6 : s6.vol sb = s4.vol sb := by
      unfold Fs.vol
      rw [hdata]
    have hloose6 : ∀ c, s6.Loose c → s2.Loose c := fun c hc =>
      hloose c (by unfold Fs.Loose at hc ⊢; rwa [hdata, hlogged] at hc)
    refine ⟨hgood2.freeInode hl hr2 hv2 ?_ rfl rfl (hvol6.trans hvol) hitable hloose6,
      ⟨ip, hitable.trans ?_, rfl, ?_, hlock.symm, fun hmany => ?_⟩, ?_, ?_, fun c hc => ?_⟩
    · rw [hself]
      show d.addrs = 0
      rw [hdin]
    · rw [hd]
      exact (update_idem ..).trans (update_idem ..)
    · rw [hr]
    · omega
    · rw [hvol6, hvol]
      exact hdata2
    · rw [if_pos ⟨hr, hv, hlink⟩, hvol6, hvol, hself]
      show update (s2.vol sb).ino _ _ = _
      rw [hino2, hdin]
      exact update_idem ..
    · rw [hlh] at hc
      rcases hlogs c hc with hc | hc
      · exact (hlogs2 c hc).imp_right fun hc => ⟨⟨hr, hv, hlink⟩, hc⟩
      · exact .inr ⟨⟨hr, hv, hlink⟩, .inr hc⟩
  refine hend _ rfl rfl ?_ rfl
  unfold Fs.setEntry
  simp only [htable, update_idem, update_self, hself, hr]
  rfl

theorem iput_spec (h : s.Good sb) (hr : 0 < (s.itable k).ref)
    (hlock : (s.itable k).lock = true → 1 < (s.itable k).ref) :
    wp E (iput sb k) (fun _ s' => Iput sb s k s') s := by
  unfold iput
  rw [wp_bind, wp_getInode]
  dsimp only
  rw [wp_ite]
  refine ⟨fun hdead => ?_, fun hlive => ?_⟩
  · rw [wp_bind]
    have hfree : (s.itable k).lock = false := by
      by_contra hheld
      have := hlock (by simpa using hheld)
      have := hdead.1
      omega
    exact ifree_spec hl h hdead hfree
  · rw [wp_modifyInode]
    have hentry := h.table.entry k
    refine ⟨h.setEntry hr rfl ⟨fun _ => hentry.inum hr, fun _ => hentry.dev hr,
      fun _ => hentry.copy hr, fun hheld => ⟨?_, (hentry.held hheld).2⟩⟩, ⟨_, rfl, rfl, rfl, rfl,
      fun _ => rfl⟩, rfl, (if_neg hlive).symm, .of_eq rfl⟩
    have := hlock hheld
    show 0 < (s.itable k).ref - 1
    omega

/-! ### Allocating inodes -/

/-- `ialloc` takes a free inode of the disk, and a reference to it. -/
structure Ialloc (sb : Superblock) (s : Fs) (type : Int16) (k : Fin NINODE) (s' : Fs) (i : Nat) :
    Prop where
  pos : 0 < i
  lt : i < sb.ninodes
  free : ((s.vol sb).ino i).type = 0
  vol : s'.vol sb = (s.vol sb).setIno i { Dinode.zero with type := type }
  get : Iget s.itable i k s'.itable
  good : s'.Good sb
  logs : s.Logs s' (· = sb.IBLOCK i)

theorem Fs.Good.takeInode (h : s.Good sb) {i : Nat} (hfree : ((s.vol sb).ino i).type = 0)
    {type : Int16} (hvol : s'.vol sb = (s.vol sb).setIno i { Dinode.zero with type := type })
    (htable : s'.itable = s.itable) (hloose : ∀ c, s'.Loose c → s.Loose c) : s'.Good sb := by
  have hself : (s'.vol sb).ino i = { Dinode.zero with type := type } := by
    rw [hvol]
    exact update_self ..
  have hother : ∀ j, j ≠ i → (s'.vol sb).ino j = (s.vol sb).ino j := by
    rw [hvol]
    exact fun j hj => update_of_ne hj ..
  have hdata : (s'.vol sb).data = (s.vol sb).data := by
    rw [hvol]
    rfl
  have hzero : ∀ q, (s'.vol sb).addr i q = 0 := by
    intro q
    unfold Vol.addr
    rw [hself]
    split
    · rfl
    · exact if_pos rfl
  have halloc : ∀ j, j ≠ i → ((s'.vol sb).Alloc sb j ↔ (s.vol sb).Alloc sb j) := by
    intro j hj
    unfold Vol.Alloc
    rw [hother j hj]
  have hfree' : ¬ (s.vol sb).Alloc sb i := fun hi' => hi'.2 hfree
  refine ⟨⟨h.wf.blocks.congr hl (fun b hb j q => ?_) (by rw [hvol]; rfl), fun j hj => ?_⟩,
    fun b hb => ?_, ?_⟩
  · by_cases hji : j = i
    · rw [hji, hzero]
      exact iff_of_false (fun hq => hb hq.2.symm) fun hq => hfree' hq.1
    · rw [halloc j hji, addr_of_same (hother j hji) hdata]
  · by_cases hji : j = i
    · have hsize : (s'.vol sb).size i = 0 := by
        rw [Vol.size, hself]
        rfl
      rw [hji, Vol.Covered, hsize]
      exact ⟨Nat.zero_le _, fun n hn => absurd hn (Nat.not_lt_zero _)⟩
    · obtain ⟨hmax, hplace⟩ := h.wf.covered j ((halloc j hji).mp hj)
      unfold Vol.Covered Vol.size
      simp only [hother j hji, addr_of_same (hother j hji) hdata]
      exact ⟨hmax, hplace⟩
  · obtain ⟨hIsData, hplace⟩ := h.tidy b (hloose b hb)
    refine ⟨hIsData, fun j q hj hq => ?_⟩
    by_cases hji : j = i
    · rw [hji, hzero] at hq
      exact absurd hq (hIsData.ne_zero hl).symm
    · rw [hother j hji]
      exact hplace j q ((halloc j hji).mp hj) (by rwa [addr_of_same (hother j hji) hdata] at hq)
  · rw [htable]
    refine ⟨fun j => ?_, h.table.uniq⟩
    have hentry := h.table.entry j
    refine ⟨hentry.inum, hentry.dev, fun hr hv => ?_, hentry.held⟩
    obtain ⟨hcopy, htype⟩ := hentry.copy hr hv
    -- a valid entry is not of a free inode
    rw [hother _ fun heq => htype (by rw [← hcopy, heq, hfree])]
    exact ⟨hcopy, htype⟩

theorem iallocFrom_spec (h : s.Good sb) (type : Int16) {inums : List Nat}
    (hinums : ∀ i ∈ inums, 0 < i ∧ i < sb.ninodes) :
    wp (fun e => e = .noInodes ∨ e = .tableFull) (iallocFrom sb ROOTDEV type inums)
      (fun k s' => ∃ i, Ialloc sb s type k s' i) s := by
  induction inums with
  | nil => exact .inl rfl
  | cons i rest ih =>
    obtain ⟨hpos, hlt⟩ := hinums i (List.mem_cons_self ..)
    unfold iallocFrom
    rw [wp_bind, wp_bread, wp_ite]
    have hino : (s.vol sb).ino i = diskInode sb s.data i := if_pos hlt
    refine ⟨fun hfree => ?_, fun _ => ih fun j hj => hinums j (List.mem_cons_of_mem _ hj)⟩
    rw [wp_bind, wp_modifyBuf, wp_bind, wp_logWrite]
    have hvol : volOf sb (update s.data _ _) = _ :=
      volOf_setDinode hl hlt { Dinode.zero with type := type }
    have h1 : Fs.Good sb { s with
        data := update s.data (sb.IBLOCK i)
          ((s.data (sb.IBLOCK i)).setDinode (i % IPB) { Dinode.zero with type := type })
        logged := update s.logged (sb.IBLOCK i) (update s.data (sb.IBLOCK i)
          ((s.data (sb.IBLOCK i)).setDinode (i % IPB) { Dinode.zero with type := type })
          (sb.IBLOCK i))
        lh := if sb.IBLOCK i ∈ s.lh then s.lh else s.lh ++ [sb.IBLOCK i] } :=
      h.takeInode hl (hino ▸ hfree) hvol rfl fun c hc => (loose_write hc).1
    refine (iget_spec h1 i).mono (fun k s' hpost => ?_) fun e he => .inr he
    obtain ⟨t, rfl, hget⟩ := hpost
    exact ⟨i, hpos, hlt, hino ▸ hfree, hvol, hget, hget.good h1 hlt, fun c hc => mem_logged hc⟩

theorem ialloc_spec (h : s.Good sb) (type : Int16) :
    wp (fun e => e = .noInodes ∨ e = .tableFull) (ialloc sb ROOTDEV type)
      (fun k s' => ∃ i, Ialloc sb s type k s' i) s := by
  refine iallocFrom_spec hl h type fun i hi => ?_
  rw [List.mem_range'_1] at hi
  have := hl.root
  unfold ROOTINO at this
  omega

end Free

end Xv6
