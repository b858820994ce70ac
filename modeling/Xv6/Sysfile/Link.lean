import Xv6.Sysfile.Steps

/-!
# `sys_link` and `sys_unlink`

Both find the directory of a name, lock it, and fail or change an entry of it. `sys_link` raises the
link count before it looks for the directory; when it fails it lowers it again.
-/

namespace Xv6

open Prog Vol Function List

/-- What a call has done between `begin_op` and `end_op`. When it fails, the volume and the references
are as they were. -/
inductive CallPost (sb : Superblock) (s₀ : Fs) : Int → Fs → Prop where
  | fail {s : Fs} (hold : s.Holding sb ∅) (near : Near sb s₀ s []) (cost : s₀.Cost sb s 9) :
    CallPost sb s₀ (-1) s
  | done {s : Fs} (hold : s.Holding sb ∅) (cost : s₀.Cost sb s 9) : CallPost sb s₀ 0 s

theorem Vol.walk_type {v : Vol} {i d : Nat} {path : List (List UInt8)} {name : List UInt8}
    (h : v.walk true i path = some (d, name)) : (v.ino d).type = T_DIR := by
  induction path generalizing i with
  | nil => cases h
  | cons elem path ih =>
    unfold Vol.walk at h
    obtain ⟨htype, h⟩ := Option.ite_none_right_eq_some.mp h
    split at h
    · cases h
      exact htype
    · obtain ⟨j, -, hj⟩ := Option.bind_eq_some_iff.mp h
      exact ih hj

section Walks

variable {sb : Superblock} (hl : sb.Layout) {s₀ : Fs} (h₀ : s₀.Sound sb) {cwd : Fin NINODE}
  (hcwd : 0 < (s₀.itable cwd).ref) {path : List UInt8} (hpath : (0 : UInt8) ∉ path)

include hl h₀ hcwd hpath

variable {β : Type} {bad : FsM β} {Q : β → Fs → Prop}
  (hbad : ∀ s, s.Holding sb ∅ → Near sb s₀ s [] → s.lh = s₀.lh → wp (fun _ => True) bad Q s)

include hbad

theorem namei_walk {next : Fin NINODE → FsM β} (hnext : ∀ s ip, s.Holding sb {ip} →
      Near sb s₀ s [ip] → s.lh = s₀.lh → wp (fun _ => True) (next ip) Q s) :
    wp (fun _ => True) (do
      match ← namei sb cwd path with
      | none => bad
      | some ip =>
        ilock sb ip
        next ip) Q s₀ := by
  unfold namei
  rw [wp_bind, wp_bind]
  refine (namex_walk hl h₀ hcwd hpath false).mono (fun r s hpost => ?_) fun _ _ => trivial
  cases hpost with
  | none hold hn hlh => exact hbad s hold hn hlh
  | some hold hn hlh =>
    show wp _ (ilock sb _ >>= fun _ => next _) _ _
    rw [wp_bind]
    exact (ilock_only hold hn).call fun _ s' hpost =>
      hnext s' _ hpost.1 hpost.2.1 (hpost.2.2.lh.trans hlh)

theorem nameiparent_walk {next : Fin NINODE → List UInt8 → FsM β}
    (hnext : ∀ s dp name, s.Holding sb {dp} → Near sb s₀ s [dp] → s.lh = s₀.lh →
      (s₀.vol sb).walk true (walkStart s₀ cwd path) (pathElems path)
        = some ((s.itable dp).inum, name) → wp (fun _ => True) (next dp name) Q s) :
    wp (fun _ => True) (do
      match ← nameiparent sb cwd path with
      | none => bad
      | some (dp, name) =>
        ilock sb dp
        next dp name) Q s₀ := by
  rw [wp_bind]
  refine (namex_walk hl h₀ hcwd hpath true).mono (fun r s hpost => ?_) fun _ _ => trivial
  cases hpost with
  | none hold hn hlh => exact hbad s hold hn hlh
  | some hold hn hlh hres =>
    dsimp only
    rw [wp_bind]
    refine (ilock_only hold hn).call fun _ s' hpost => ?_
    rw [← hpost.2.2.inum] at hres
    exact hnext s' _ _ hpost.1 hpost.2.1 (hpost.2.2.lh.trans hlh) hres

end Walks

/-! ### `sys_link` -/

section Link

/-- `sys_link` when it has raised the link count of `ip`. -/
structure Raised (sb : Superblock) (s₀ s : Fs) (ip : Fin NINODE) : Prop where
  hold : s.Holding sb ∅
  taken : Taken s₀ s [ip]
  named : 0 < (s₀.itable ip).ref ∨ (s₀.vol sb).Named sb (s.itable ip).inum
  vol : s.vol sb = (s₀.vol sb).setIno (s.itable ip).inum
    { (s₀.vol sb).ino (s.itable ip).inum with
      nlink := ((s₀.vol sb).ino (s.itable ip).inum).nlink + 1 }
  spends : s₀.Spends sb s {(s.itable ip).inum} 0

variable {sb : Superblock} {s₀ s s' : Fs} {ip : Fin NINODE}

theorem Raised.alike (h : Raised sb s₀ s ip) : (s₀.vol sb).Alike (s.vol sb) := by
  rw [h.vol]
  exact Vol.alike_setIno rfl rfl rfl

theorem Raised.pos (h : Raised sb s₀ s ip) : 0 < (s.itable ip).ref :=
  h.taken.pos (mem_singleton_self _)

theorem Raised.sound (h : Raised sb s₀ s ip) (h₀ : s₀.Sound sb) : s.Sound sb where
  toQuiet := h.hold.quiet
  whole i halloc htype := by
    have halike := h.alike
    rw [halike.size]
    rw [halike.type] at htype
    exact h₀.whole i ((halike.alloc i).mp halloc) htype
  linked i hnamed halloc hlink := by
    have halike := h.alike
    by_cases hi : i = (s.itable ip).inum
    · exact ⟨ip, h.pos, hi.symm⟩
    · rw [h.vol] at hlink
      simp only [Vol.setIno, update_of_ne hi] at hlink
      obtain ⟨j, hj, hinum⟩ := h₀.linked i ((halike.named i).mp hnamed) ((halike.alloc i).mp halloc) hlink
      exact ⟨j, h.taken.le hj, (h.taken.kept j hj).trans hinum⟩

theorem Raised.near (h : Raised sb s₀ s ip) (hold : s'.Holding sb ∅) (hn : Near sb s s' [])
    (hlh : s'.lh = s.lh) : Raised sb s₀ s' ip := by
  have hinum : (s'.itable ip).inum = (s.itable ip).inum := hn.kept ip h.pos
  refine ⟨hold, h.taken.trans hn.toTaken, ?_, ?_, ?_⟩
  · rw [hinum]
    exact h.named
  · rw [hn.vol, h.vol, hinum]
  · rw [hinum]
    exact h.spends.still hlh

variable (hl : sb.Layout) (h₀ : s₀.Sound sb)

include hl h₀

theorem linkBad_spec (h : Raised sb s₀ s ip) :
    wp (fun _ => True) (linkBad sb ip) (CallPost sb s₀) s := by
  unfold linkBad
  rw [wp_bind]
  refine (ilock_hold h.hold h.pos).mono (fun _ s1 hpost => ?_) fun _ _ => trivial
  obtain ⟨h1, -, htaken1, hstill1, hvol1⟩ := hpost
  rw [insert_empty_eq] at h1
  rw [wp_bind]
  refine (addNlink_spec hl h1 (Finset.mem_singleton_self _) (-1)).call fun _ s2 hlow => ?_
  have htaken2 := (h.taken.trans htaken1).trans hlow.only.taken
  have hinum2 : (s2.itable ip).inum = (s.itable ip).inum :=
    (hlow.only.inums ip).trans (hstill1.inum ip)
  -- the link count is what it was
  have hvol2 : s2.vol sb = s₀.vol sb := by
    have hvol := hlow.vol
    rw [hvol1, hstill1.inum, h.vol] at hvol
    rw [hvol]
    unfold Vol.setIno
    simp only [update_self, update_idem]
    have hback (n : Int16) : n + 1 + -1 = n := by
      rw [Int16.add_assoc]
      exact Int16.add_zero n
    rw [hback, update_eq_self]
  have hn2 : Near sb s₀ s2 [ip] := by
    refine ⟨htaken2, hvol2, fun j hj => ?_⟩
    rw [mem_singleton.mp hj, hinum2]
    exact h.named
  rw [wp_bind]
  refine (iunlockput_only hl h₀ hlow.hold hn2).call ?_
  rintro _ s3 ⟨h3, hn3, hstill3⟩
  refine .fail h3 hn3 ⟨{(s.itable ip).inum}, 0, ?_, by simp⟩
  have hspends := hlow.spends
  rw [hstill1.inum] at hspends
  exact ((h.spends.trans (hspends.after hstill1.lh)).still hstill3.lh).mono (by simp) le_rfl

theorem linkNew_spec (h : Raised sb s₀ s ip) {cwd : Fin NINODE} (hcwd : 0 < (s₀.itable cwd).ref)
    {path : List UInt8} (hpath : (0 : UInt8) ∉ path) :
    wp (fun _ => True) (linkNew sb cwd ip path) (CallPost sb s₀) s := by
  have hs := h.sound h₀
  unfold linkNew
  refine nameiparent_walk hl hs (h.taken.le hcwd) hpath
    (fun s1 hold hn hlh => linkBad_spec hl h₀ (h.near hold hn hlh)) ?_
  intro s2 dp name h2 hn2 hlh2 hres
  have hmem : dp ∈ ({dp} : Finset (Fin NINODE)) := Finset.mem_singleton_self _
  have hdir := h2.directory hmem hs hn2.vol (Vol.walk_type hres)
  have hinum2 : (s2.itable ip).inum = (s.itable ip).inum := hn2.kept ip h.pos
  have hpos2 : 0 < (s2.itable ip).ref := hn2.toTaken.le h.pos
  -- the way out when there is no new entry
  have hbad {s3 : Fs} (h3 : s3.Holding sb {dp}) (hn3 : Near sb s s3 [dp]) (hlh3 : s3.lh = s.lh) :
      wp (fun _ => True) (do iunlockput sb dp; linkBad sb ip) (CallPost sb s₀) s3 := by
    rw [wp_bind]
    exact (iunlockput_only hl hs h3 hn3).call fun _ s4 hpost =>
      linkBad_spec hl h₀ (h.near hpost.1 hpost.2.1 (hpost.2.2.lh.trans hlh3))
  unfold linkFails
  rw [wp_bind, wp_bind, wp_getInode, wp_bind, wp_getInode, wp_ite]
  refine ⟨fun _ => ?_, fun _ => ?_⟩
  · rw [wp_pure, if_pos rfl]
    exact hbad h2 hn2 hlh2
  rw [wp_bind]
  refine (dirlink_hold hl h2 hmem hdir name ((h2.good.table.entry ip).inum hpos2)).mono
    (fun r s3 hlink => ?_) fun _ _ => trivial
  rw [wp_pure]
  cases hlink with
  | used h3 htaken3 hvol3 hlh3 =>
    rw [if_pos (by decide)]
    exact hbad h3 (hn2.same hvol3 htaken3.ref htaken3.kept) (hlh3.trans hlh2)
  | new hfind h3 honly3 hset hspends3 =>
    rw [if_neg (by decide), wp_bind]
    refine (iunlockput_hold hl h3 hmem).call fun _ s4 hdrop4 => ?_
    have h4 := hdrop4.hold
    rw [Finset.erase_singleton] at h4
    have hpos4 : 0 < (s4.itable ip).ref := by
      have hpos := h.pos
      have href := hn2.ref ip
      rw [count_singleton] at href
      rw [hdrop4.ref ip, honly3.taken.ref ip, href]
      by_cases hdi : dp = ip
      · rw [if_pos hdi, if_pos (by simpa using hdi)]
        exact hpos
      · rw [if_neg hdi]
        exact Nat.add_pos_left (Nat.add_pos_left hpos _) _
    rw [wp_bind]
    refine (iput_hold hl h4 (Finset.notMem_empty _) hpos4).call fun _ s5 hdrop5 => ?_
    have hspends4 := hdrop4.spends
    have hspends5 := hdrop5.spends
    rw [honly3.inums dp] at hspends4
    rw [hdrop4.inum, honly3.inums, hinum2] at hspends5
    refine .done hdrop5.hold ((Fs.Cost.of_pair (((h.spends.trans (hspends3.after hlh2)).trans
      hspends4).trans hspends5) (i := (s.itable ip).inum) (j := (s2.itable dp).inum) ?_).mono
      (by decide))
    intro i
    simp only [Finset.mem_union, Finset.mem_singleton, Finset.mem_insert]
    tauto

theorem link_spec {cwd : Fin NINODE} (hcwd : 0 < (s₀.itable cwd).ref) {old new : List UInt8}
    (hold : (0 : UInt8) ∉ old) (hnew : (0 : UInt8) ∉ new) :
    wp (fun _ => True) (link sb cwd old new) (CallPost sb s₀) s₀ := by
  refine namei_walk hl h₀ hcwd hold ?_ ?_
  · exact fun s1 h1 hn1 hlh1 => .fail h1 hn1 (.of_eq hlh1)
  intro s2 ip h2 hn2 hlh2
  have hmem : ip ∈ ({ip} : Finset (Fin NINODE)) := Finset.mem_singleton_self _
  rw [wp_bind, wp_getInode, wp_ite]
  refine ⟨fun _ => ?_, fun _ => ?_⟩
  · rw [wp_bind]
    exact (iunlockput_only hl h₀ h2 hn2).call fun _ s3 hpost =>
      .fail hpost.1 hpost.2.1 (.of_eq (hpost.2.2.lh.trans hlh2))
  rw [wp_bind]
  refine (addNlink_spec hl h2 hmem 1).call fun _ s3 hup => ?_
  rw [wp_bind]
  refine (iunlock_hold hup.hold hmem).call ?_
  rintro _ s4 ⟨h4, htaken4, hstill4, hvol4, -⟩
  rw [Finset.erase_singleton] at h4
  have hinum4 : (s4.itable ip).inum = (s2.itable ip).inum :=
    (hstill4.inum ip).trans (hup.only.inums ip)
  have hraised : Raised sb s₀ s4 ip := by
    refine ⟨h4, (hn2.toTaken.trans hup.only.taken).trans htaken4, ?_, ?_, ?_⟩
    · rw [hinum4]
      exact hn2.named ip (mem_singleton_self _)
    · rw [hvol4, hup.vol, hn2.vol, hinum4]
    · rw [hinum4]
      exact (hup.spends.after hlh2).still hstill4.lh
  exact linkNew_spec hl h₀ hraised hcwd hnew

end Link

/-! ### `sys_unlink` -/

section Unlink

variable {sb : Superblock} {s s₀ : Fs} {dp ip k : Fin NINODE} {locks : Finset (Fin NINODE)}

variable {E : FsPanic → Prop}

theorem isdiremptyFrom_spec (h : s.Good sb) (hr : 0 < (s.itable k).ref)
    (hv : (s.itable k).valid = true) {offs : List Nat}
    (hoffs : ∀ off ∈ offs, off + DESIZE ≤ (s.vol sb).size (s.itable k).inum) :
    wp E (isdiremptyFrom sb k offs) (fun r s' => s' = s ∧
      r = (offs.map fun off => ((s.vol sb).dirent (s.itable k).inum off).entry).all (·.isNone)) s := by
  induction offs with
  | nil => exact ⟨rfl, rfl⟩
  | cons off rest ih =>
    unfold isdiremptyFrom
    rw [wp_bind]
    refine (readDirent_in h hr hv hoffs (mem_cons_self ..) _).call ?_
    rintro de s' ⟨rfl, rfl⟩
    set de := (s'.vol sb).dirent (s'.itable k).inum off with hde
    rw [wp_ite, map_cons, ← hde, all_cons]
    unfold Dirent.entry
    refine ⟨fun hne => ⟨rfl, ?_⟩, fun hzero => ?_⟩
    · rw [if_neg hne]
      rfl
    · rw [not_not] at hzero
      rw [if_pos hzero]
      exact ih fun o ho => hoffs o (mem_cons_of_mem _ ho)

theorem Vol.Directory.offs_two {v : Vol} {i : Nat} (h : v.Directory i) :
    (direntOffs (2 * DESIZE) (v.size i)).map (fun off => (v.dirent i off).entry)
      = (v.slots i).drop 2 := by
  have hcount : (v.size i - 2 * DESIZE + DESIZE - 1) / DESIZE = (v.slots i).length - 2 := by
    rw [← h.size]
    unfold DESIZE DIRSIZ
    omega
  have hdrop : (List.range (v.slots i).length).drop 2
      = (List.range ((v.slots i).length - 2)).map (2 + ·) := by
    rw [range_eq_range', drop_range', range'_eq_map_range]
  rw [Vol.length_slots] at hcount hdrop
  unfold direntOffs
  rw [hcount, Vol.slots, ← map_drop, hdrop, map_map, map_map]
  refine map_congr_left fun e _ => ?_
  simp only [comp_apply, Nat.add_mul]

theorem isdirempty_spec (h : s.Holding sb locks) (hk : k ∈ locks)
    (hdir : (s.vol sb).Directory (s.itable k).inum) :
    wp E (isdirempty sb k) (fun r s' => s' = s ∧
      r = (((s.vol sb).slots (s.itable k).inum).drop 2).all (·.isNone)) s := by
  obtain ⟨hr, hv⟩ := h.held hk
  have hsize : (s.itable k).din.size.toNat = (s.vol sb).size (s.itable k).inum := by
    rw [h.din hk]
    rfl
  unfold isdirempty
  rw [wp_bind, wp_getInode, hsize, ← hdir.offs_two]
  refine isdiremptyFrom_spec h.good hr hv fun off hoff => ?_
  obtain ⟨e, rfl, hlt⟩ := mem_direntOffs hoff
  obtain ⟨n, hn⟩ := hdir.whole
  rw [hn] at hlt ⊢
  unfold DESIZE DIRSIZ at *
  omega

theorem fullDir_spec (h : s.Holding sb locks) (hk : k ∈ locks)
    (hdir : ((s.vol sb).ino (s.itable k).inum).type = T_DIR →
      (s.vol sb).Directory (s.itable k).inum) :
    wp E (fullDir sb k) (fun r s' => s' = s ∧
      (r = true ↔ ((s.vol sb).ino (s.itable k).inum).type = T_DIR ∧
        (((s.vol sb).slots (s.itable k).inum).drop 2).all (·.isNone) = false)) s := by
  unfold fullDir
  rw [wp_bind, wp_getInode, h.din hk, wp_ite]
  refine ⟨fun htype => ?_, fun htype => ⟨rfl, ?_⟩⟩
  · rw [wp_bind]
    refine (isdirempty_spec h hk (hdir htype)).call ?_
    rintro r s' ⟨rfl, rfl⟩
    rw [wp_pure]
    refine ⟨rfl, ?_⟩
    rw [Bool.not_eq_true']
    exact ⟨fun hempty => ⟨htype, hempty⟩, And.right⟩
  · exact iff_of_false Bool.false_ne_true fun h => htype h.1

theorem unlinkEntry_spec (hl : sb.Layout) (h : s.Holding sb {ip, dp}) (hne : ip ≠ dp)
    (hdir : (s.vol sb).Directory (s.itable dp).inum) {e : Nat}
    (he : e < ((s.vol sb).slots (s.itable dp).inum).length) :
    wp (fun _ => True) (unlinkEntry sb dp ip (e * DESIZE))
      (fun _ s' => s'.Holding sb ∅ ∧ s.Cost sb s' 4) s := by
  have hdp : dp ∈ ({ip, dp} : Finset (Fin NINODE)) := by simp
  have hip : ip ∈ ({ip, dp} : Finset (Fin NINODE)) := by simp
  obtain ⟨hr, hv⟩ := h.held hdp
  have hle : e * DESIZE ≤ (s.vol sb).size (s.itable dp).inum := by
    rw [← hdir.size]
    exact Nat.mul_le_mul_right _ he.le
  have hname : Dirent.zero.name.length = DIRSIZ := rfl
  unfold unlinkEntry
  rw [wp_bind]
  refine (writeDirent_spec hl h.good hr hv (hle.trans_lt (UInt32.toNat_lt _)) hname _).mono
    (fun _ s1 hpost => ?_) fun _ _ => trivial
  have hwrite := hpost.2.dirWrite h.good hr hv hname hle
  have hpos : 0 < sb.ninodes := Nat.zero_lt_of_lt ((h.good.table.entry dp).inum hr)
  have h1 : s1.Holding sb {ip, dp} := ⟨hwrite.good, hwrite.dirs h.dirs hdir hpos, fun j =>
    (hwrite.only.lock j).trans (h.lock j)⟩
  -- what is left, once the link of the directory that `".."` was has been given up
  have hrest {s2 : Fs} (h2 : s2.Holding sb {ip, dp})
      (hinum2 : ∀ j, (s2.itable j).inum = (s1.itable j).inum)
      (hspends2 : s1.Spends sb s2 {(s1.itable dp).inum} 0) :
      wp (fun _ => True) (do iunlockput sb dp; addNlink sb ip (-1); iunlockput sb ip)
        (fun _ s' => s'.Holding sb ∅ ∧ s.Cost sb s' 4) s2 := by
    rw [wp_bind]
    refine (iunlockput_hold hl h2 hdp).call fun _ s3 hdrop3 => ?_
    have h3 := hdrop3.hold
    rw [Finset.pair_comm, Finset.erase_insert (Finset.notMem_singleton.mpr hne.symm)] at h3
    rw [wp_bind]
    refine (addNlink_spec hl h3 (Finset.mem_singleton_self _) (-1)).call fun _ s4 hlow4 => ?_
    refine (iunlockput_hold hl hlow4.hold (Finset.mem_singleton_self _)).call fun _ s5 hdrop5 => ?_
    have h5 := hdrop5.hold
    rw [Finset.erase_singleton] at h5
    refine ⟨h5, Fs.Cost.of_pair ((((hwrite.spends.trans hspends2).trans hdrop3.spends).trans
      hlow4.spends).trans hdrop5.spends) (i := (s.itable ip).inum) (j := (s.itable dp).inum) ?_⟩
    intro i
    rw [hlow4.only.inums, hdrop3.inum, hinum2, hinum2, hwrite.only.inums, hwrite.only.inums]
    simp only [Finset.mem_union, Finset.mem_singleton, Finset.mem_insert]
    tauto
  rw [wp_bind, wp_getInode]
  dsimp only
  rw [wp_ite]
  refine ⟨fun _ => ?_, fun _ => hrest h1 (fun _ => rfl) (.of_eq rfl)⟩
  rw [wp_bind]
  exact (addNlink_spec hl h1 hdp (-1)).call fun _ s2 hlow =>
    hrest hlow.hold hlow.only.inums hlow.spends

theorem unlink_spec (hl : sb.Layout) (h₀ : s₀.Sound sb) {cwd : Fin NINODE}
    (hcwd : 0 < (s₀.itable cwd).ref) {path : List UInt8} (hpath : (0 : UInt8) ∉ path) :
    wp (fun _ => True) (unlink sb cwd path) (CallPost sb s₀) s₀ := by
  unfold unlink
  refine nameiparent_walk hl h₀ hcwd hpath ?_ ?_
  · exact fun s1 hold hn hlh => .fail hold hn (.of_eq hlh)
  intro s2 dp name h2 hn2 hlh2 hres
  have htype := Vol.walk_type hres
  have hmem : dp ∈ ({dp} : Finset (Fin NINODE)) := Finset.mem_singleton_self _
  -- the way out, with only the directory locked
  have hbad {s3 : Fs} (h3 : s3.Holding sb {dp}) (hn3 : Near sb s₀ s3 [dp]) (hlh3 : s3.lh = s₀.lh) :
      wp (fun _ => True) (do iunlockput sb dp; return (-1 : Int)) (CallPost sb s₀) s3 := by
    rw [wp_bind]
    exact (iunlockput_only hl h₀ h3 hn3).call fun _ s4 hpost =>
      .fail hpost.1 hpost.2.1 (.of_eq (hpost.2.2.lh.trans hlh3))
  rw [wp_ite]
  refine ⟨fun _ => hbad h2 hn2 hlh2, fun _ => ?_⟩
  rw [wp_bind]
  refine (dirlookup_near h₀ h2 hmem hn2 htype name).mono (fun r s3 hlook => ?_) fun _ _ => trivial
  cases hlook with
  | none => exact hbad h2 hn2 hlh2
  | @found ip e inum s3 hfind h3 hn3 hinum3 hkept3 hlh3 =>
    dsimp only
    rw [wp_bind]
    refine (ilock_near h3 hn3 (mem_cons_self ..)).mono (fun _ s4 hpost => ?_)
      fun _ _ => trivial
    obtain ⟨h4, hfree, hn4, hstill4⟩ := hpost
    have hne : ip ≠ dp := fun heq => hfree (Finset.mem_singleton.mpr heq)
    have hip : ip ∈ ({ip, dp} : Finset (Fin NINODE)) := by simp
    have hdp : dp ∈ ({ip, dp} : Finset (Fin NINODE)) := by simp
    have hlh4 : s4.lh = s₀.lh := hstill4.lh.trans (hlh3.trans hlh2)
    have hdinum : (s4.itable dp).inum = (s2.itable dp).inum :=
      (hstill4.inum dp).trans (hkept3 dp (h2.held hmem).1)
    rw [wp_bind, wp_getInode, wp_ite]
    refine ⟨fun _ => trivial, fun _ => ?_⟩
    have hfull := fullDir_spec h4 hip (fun htype' => h4.directory hip h₀ hn4.vol (by
      rw [← hn4.vol]
      exact htype')) (E := fun _ => True)
    rw [wp_bind]
    refine hfull.call ?_
    rintro r s5 ⟨rfl, -⟩
    rw [wp_ite]
    refine ⟨fun _ => ?_, fun _ => ?_⟩
    · -- a directory that is not empty
      rw [wp_bind]
      refine (iunlockput_near hl h₀ h4 hip hn4 (mem_cons_self ..)).call ?_
      rintro _ s6 ⟨h6, hn6, hstill6⟩
      rw [Finset.erase_insert hfree] at h6
      rw [erase_cons_head] at hn6
      exact hbad h6 hn6 (hstill6.lh.trans hlh4)
    · have htype4 : ((s₀.vol sb).ino (s5.itable dp).inum).type = T_DIR := by
        rw [hdinum]
        exact htype
      have hdir := h4.directory hdp h₀ hn4.vol htype4
      have he : e < ((s5.vol sb).slots (s5.itable dp).inum).length := by
        rw [hn4.vol, hdinum]
        exact Slots.find_lt hfind
      rw [wp_bind]
      refine (unlinkEntry_spec hl h4 hne hdir he).call ?_
      rintro _ s6 ⟨h6, is, m, hspends, hle⟩
      exact .done h6 ⟨is, m, hspends.after hlh4, by omega⟩

end Unlink

end Xv6
