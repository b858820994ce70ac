import Xv6.Sysfile.Fail

/-!
# `sys_open`

`sys_open` looks the file up or creates it, and then needs a `struct file` and a descriptor. When it
fails nothing has changed, but for a file that it has created before it finds no free `struct file` or
descriptor. The content is truncated only after both have been found.
-/

namespace Xv6

open Prog Vol SysM Function Finset

/-! ### The inode -/

inductive OpenPost (sb : Superblock) (s₀ : Fs) (cwd : Fin NINODE) (path : List UInt8) (omode : UInt32) :
    Option (Fin NINODE) → Fs → Prop where
  | none {s : Fs} (hold : s.Holding sb ∅) (near : Near sb s₀ s []) (hlh : s.lh = s₀.lh) :
    OpenPost sb s₀ cwd path omode none s
  | old {s : Fs} {ip : Fin NINODE} (hold : s.Holding sb {ip}) (near : Near sb s₀ s [ip])
    (hlh : s.lh = s₀.lh) : OpenPost sb s₀ cwd path omode (some ip) s
  | new {s : Fs} {ip : Fin NINODE} {d : Nat} {name : List UInt8} (hcreate : omode &&& O_CREATE ≠ 0)
    (parent : parentOf sb s₀ cwd path = some (d, name)) (hold : s.Holding sb {ip})
    (taken : Taken s₀ s [ip]) (spends : s₀.Spends sb s {(s.itable ip).inum, d} 6)
    (made : (s₀.vol sb).Made sb d name (s.itable ip).inum (Dinode.made T_FILE 0 0) (s.vol sb)) :
    OpenPost sb s₀ cwd path omode (some ip) s

theorem Vol.Made.ino {sb : Superblock} {v v' : Vol} {d i : Nat} {name : List UInt8} {x : Dinode}
    (h : v.Made sb d name i x v') : (v'.ino i).type = x.type ∧ (v'.ino i).nlink = x.nlink := by
  have hself : (v.setIno i x).ino i = x := update_self ..
  by_cases hi : i = d
  · obtain ⟨a, z, heq⟩ := h.entry.self
    rw [← hi, hself] at heq
    rw [heq]
    exact ⟨rfl, rfl⟩
  · rw [h.entry.ino i hi, hself]
    exact ⟨rfl, rfl⟩

section Inode

variable {sb : Superblock} (hl : sb.Layout) {s₀ : Fs} (h₀ : s₀.Sound sb) {cwd : Fin NINODE}
  (hcwd : 0 < (s₀.itable cwd).ref) {path : List UInt8} (hpath : (0 : UInt8) ∉ path) (omode : UInt32)

include hl h₀ hcwd hpath

theorem openOld_spec : wp (fun _ => True) (openOld sb cwd path omode)
    (OpenPost sb s₀ cwd path omode) s₀ := by
  unfold openOld
  refine namei_walk hl h₀ hcwd hpath ?_ ?_
  · exact fun s1 h1 hn1 hlh1 => .none h1 hn1 hlh1
  intro s2 ip h2 hn2 hlh2
  rw [wp_bind, wp_getInode, wp_ite]
  refine ⟨fun _ => ?_, fun _ => .old h2 hn2 hlh2⟩
  rw [wp_bind]
  exact (iunlockput_only hl h₀ h2 hn2).call fun _ s3 hpost =>
    .none hpost.1 hpost.2.1 (hpost.2.2.lh.trans hlh2)

theorem openFound_spec : wp (fun _ => True) (openFound sb cwd path omode)
    (OpenPost sb s₀ cwd path omode) s₀ := by
  unfold openFound
  rw [wp_ite]
  refine ⟨fun hcreate => ?_, fun _ => openOld_spec hl h₀ hcwd hpath omode⟩
  refine (create_spec hl h₀ hcwd hpath T_FILE 0 0).call fun r s1 hpost => ?_
  cases hpost with
  | none hold near hlh => exact .none hold near hlh
  | old hold near hlh => exact .old hold near hlh
  | new parent hold taken spends made =>
    exact .new hcreate parent hold taken spends (made (by decide))

theorem openInode_spec : wp (fun _ => True) (openInode sb cwd path omode)
    (OpenPost sb s₀ cwd path omode) s₀ := by
  unfold openInode
  rw [wp_bind]
  refine (openFound_spec hl h₀ hcwd hpath omode).call fun r s1 hpost => ?_
  cases hpost with
  | none hold near hlh => exact .none hold near hlh
  | old hold near hlh =>
    dsimp only
    rw [wp_bind, wp_getInode, wp_ite]
    refine ⟨fun _ => ?_, fun _ => .old hold near hlh⟩
    rw [wp_bind]
    exact (iunlockput_only hl h₀ hold near).call fun _ s2 hpost =>
      .none hpost.1 hpost.2.1 (hpost.2.2.lh.trans hlh)
  | @new _ ip _ _ hcreate parent hold taken spends made =>
    dsimp only
    rw [wp_bind, wp_getInode, wp_ite]
    refine ⟨fun hdev => ?_, fun _ => .new hcreate parent hold taken spends made⟩
    -- a new file is not a device
    rw [hold.din (mem_singleton_self _), made.ino.1] at hdev
    exact absurd hdev.1 (by decide)

end Inode

/-! ### The file and the descriptor -/

/-- No `struct file`, or no descriptor, is free. -/
def FileSys.Full (s : FileSys) : Prop := (∀ f, (s.ftable f).ref ≠ 0) ∨ ∀ fd, s.ofile fd ≠ none

def FileSys.Closed (s : FileSys) : Prop := ∀ f, (s.ftable f).ref = 0 → (s.ftable f).type = .none

instance (s : FileSys) : Decidable s.Closed :=
  inferInstanceAs (Decidable (∀ f, (s.ftable f).ref = 0 → (s.ftable f).type = .none))

variable {s : FileSys}

theorem filealloc_spec {E : SysPanic → Prop} :
    wp E filealloc (fun r s' => (r = none ∧ s' = s ∧ ∀ f, (s.ftable f).ref ≠ 0) ∨
      ∃ f, r = some f ∧ (s.ftable f).ref = 0 ∧ s' = { s with
        ftable := update s.ftable f { s.ftable f with ref := 1 } }) s := by
  rw [filealloc, wp_bind, wp_get]
  cases hfind : (List.finRange NFILE).find? fun f => decide ((s.ftable f).ref = 0) with
  | none =>
    refine .inl ⟨rfl, rfl, fun f hf => ?_⟩
    exact List.find?_eq_none.mp hfind f (List.mem_finRange f) (decide_eq_true hf)
  | some f =>
    have hzero := List.find?_some hfind
    rw [decide_eq_true_iff] at hzero
    exact .inr ⟨f, rfl, hzero, rfl⟩

theorem fdalloc_spec (f : Fin NFILE) {E : SysPanic → Prop} :
    wp E (fdalloc f) (fun r s' => (r = none ∧ s' = s ∧ ∀ fd, s.ofile fd ≠ none) ∨
      ∃ fd, r = some fd ∧ s' = { s with ofile := update s.ofile fd (some f) }) s := by
  rw [fdalloc, wp_bind, wp_get]
  cases hfind : (List.finRange NOFILE).find? fun fd => decide (s.ofile fd = none) with
  | none =>
    refine .inl ⟨rfl, rfl, fun fd hfd => ?_⟩
    exact List.find?_eq_none.mp hfind fd (List.mem_finRange fd) (decide_eq_true hfd)
  | some fd => exact .inr ⟨fd, rfl, rfl⟩

/-- Only the two tables can change; when there is no room they have not. -/
theorem allocFile_spec {sb : Superblock} (hclosed : s.Closed) :
    wp (fun _ => True) (allocFile sb) (fun r s' =>
      (r = none ∧ s' = s ∧ s.Full) ∨
      ∃ x ftable ofile, r = some x ∧ s' = { s with ftable := ftable, ofile := ofile }) s := by
  unfold allocFile
  rw [wp_bind]
  refine filealloc_spec.call fun r s1 hpost => ?_
  rcases hpost with ⟨rfl, rfl, hfull⟩ | ⟨f, rfl, hzero, rfl⟩
  · exact .inl ⟨rfl, rfl, .inl hfull⟩
  dsimp only
  rw [wp_bind]
  refine (fdalloc_spec f).call fun r s2 hpost => ?_
  rcases hpost with ⟨rfl, rfl, hfull⟩ | ⟨fd, rfl, rfl⟩
  · -- the file that was taken is given back
    dsimp only
    unfold fileclose
    simp only [wp_bind, SysM.wp_getFile, update_self]
    rw [if_neg (by decide), if_neg (by decide)]
    simp only [wp_bind, SysM.wp_setFile, update_idem, hclosed f hzero]
    rw [if_neg (by decide), wp_pure, wp_pure]
    refine .inl ⟨rfl, ?_, .inr hfull⟩
    have hsame : { s.ftable f with ref := 0, type := FileType.none } = s.ftable f := by
      rw [← hzero, ← hclosed f hzero]
    rw [hsame, update_eq_self]
  · exact .inr ⟨_, _, _, rfl, rfl⟩

/-! ### The call -/

section Open

variable {sb : Superblock} (hl : sb.Layout)

include hl

theorem itrunc_hold {s : Fs} {k : Fin NINODE} {locks : Finset (Fin NINODE)} (h : s.Holding sb locks)
    (hk : k ∈ locks) (htype : (s.itable k).din.type ≠ T_DIR) {E : FsPanic → Prop} :
    wp E (itrunc sb k) (fun _ s' => s'.Holding sb locks ∧ Only s s' k ∧
      s.Spends sb s' {(s.itable k).inum} 0) s := by
  refine (itrunc_good hl h.good (h.held hk).1 (h.held hk).2).call ?_
  rintro _ s' ⟨hgood, honly, hdata, hino, hlogs⟩
  refine ⟨⟨hgood, fun i halloc htype' e he => ?_, fun j => (honly.lock j).trans (h.lock j)⟩, honly,
    hlogs.spends fun c hc => hc.imp_right fun hc => ⟨_, mem_singleton_self _, hc⟩⟩
  -- directories are not the inode that is truncated
  have hne : i ≠ (s.itable k).inum := by
    intro heq
    rw [hino, heq, update_self] at htype'
    exact htype htype'
  have hsame : (s'.vol sb).ino i = (s.vol sb).ino i := by
    rw [hino, update_of_ne hne]
  rw [dirent_congr fun o _ _ => fileByte_of_same hsame hdata o]
  unfold Vol.size at he
  rw [hsame] at htype' he
  refine h.dirs i ⟨halloc.1, ?_⟩ htype' e he
  rw [← hsame]
  exact halloc.2

theorem openEnd_spec {s : Fs} {ip : Fin NINODE} (h : s.Holding sb {ip}) (omode : UInt32)
    {E : FsPanic → Prop} :
    wp E (openEnd sb ip omode) (fun _ s' => s'.Holding sb ∅ ∧
      s.Spends sb s' {(s.itable ip).inum} 0) s := by
  have hmem : ip ∈ ({ip} : Finset (Fin NINODE)) := mem_singleton_self _
  -- `iunlock` at the end
  have hunlock {s1 : Fs} (h1 : s1.Holding sb {ip}) (hspends : s.Spends sb s1 {(s.itable ip).inum} 0) :
      wp E (iunlock ip) (fun _ s' => s'.Holding sb ∅ ∧ s.Spends sb s' {(s.itable ip).inum} 0) s1 := by
    refine (iunlock_hold h1 hmem).call ?_
    rintro _ s2 ⟨h2, -, hstill2, -⟩
    rw [erase_singleton] at h2
    exact ⟨h2, hspends.still hstill2.lh⟩
  unfold openEnd
  rw [wp_bind, wp_getInode]
  dsimp only
  rw [wp_ite]
  refine ⟨fun htrunc => ?_, fun _ => hunlock h (.of_eq rfl)⟩
  rw [wp_bind]
  refine (itrunc_hold hl h hmem ?_).call fun _ s1 hpost => hunlock hpost.1 hpost.2.2
  rw [htrunc.2]
  decide

/-- With `O_CREATE`, a file that was not there is left behind when no `struct file` or descriptor is
free. -/
def FileSys.Leftover (sb : Superblock) (s : FileSys) (path : List UInt8) (omode : UInt32) (v : Vol) :
    Prop :=
  omode &&& O_CREATE ≠ 0 ∧ s.Full ∧ ∃ d name i, parentOf sb s.fs s.cwd path = some (d, name) ∧
    (s.fs.vol sb).Made sb d name i (Dinode.made T_FILE 0 0) v

/-- What `sys_open` has done: the transaction left the file system as `t`. -/
structure Opened (sb : Superblock) (s : FileSys) (path : List UInt8) (omode : UInt32) (r : Int)
    (t : Fs) (ftable : Fin NFILE → File) (ofile : Fin NOFILE → Option (Fin NFILE)) : Prop where
  hold : t.Holding sb ∅
  cost : s.fs.Cost sb t 9
  failed : r = -1 → ftable = s.ftable ∧ ofile = s.ofile ∧ Taken s.fs t [] ∧
    (t.vol sb = s.fs.vol sb ∨ s.Leftover sb path omode (t.vol sb))

theorem openPath_spec (h : s.fs.Sound sb) (hcwd : 0 < (s.fs.itable s.cwd).ref) (hclosed : s.Closed)
    {path : List UInt8} (hpath : (0 : UInt8) ∉ path) (omode : UInt32) :
    wp (fun _ => True) (openPath sb path omode) (fun r s' => ∃ t ftable ofile,
      s' = { s.commit t with ftable := ftable, ofile := ofile } ∧
      Opened sb s path omode r t ftable ofile) s := by
  -- the ways out: `end_op`, and the value returned
  have hend {r : Int} {t : Fs} {ftable : Fin NFILE → File} {ofile : Fin NOFILE → Option (Fin NFILE)}
      (hopen : Opened sb s path omode r t ftable ofile) :
      wp (fun _ => True) (do endOp; return r) (fun r s' => ∃ t ftable ofile,
        s' = { s.commit t with ftable := ftable, ofile := ofile } ∧
        Opened sb s path omode r t ftable ofile)
        { s with fs := t, outstanding := s.outstanding + 1, ftable := ftable, ofile := ofile } := by
    rw [wp_bind]
    exact (SysM.wp_endOp t ftable ofile).mpr ⟨t, ftable, ofile, rfl, hopen⟩
  unfold openPath
  rw [wp_bind, SysM.wp_beginOp, wp_bind, SysM.wp_getCwd, wp_bind, SysM.wp_fs]
  refine (openInode_spec hl h hcwd hpath omode).call fun r t hpost => ?_
  cases hpost with
  | none hold near hlh =>
    exact hend ⟨hold, .of_eq hlh, fun _ => ⟨rfl, rfl, near.toTaken, .inl near.vol⟩⟩
  | @old t ip hold near hlh =>
    dsimp only
    rw [wp_bind]
    refine (allocFile_spec (s := { s with fs := t, outstanding := s.outstanding + 1 }) hclosed).call
      fun r s1 hpost => ?_
    rcases hpost with ⟨rfl, rfl, -⟩ | ⟨⟨f, fd⟩, ftable, ofile, rfl, rfl⟩
    · dsimp only
      rw [wp_bind, SysM.wp_fs]
      refine (iunlockput_only hl h hold near).call ?_
      rintro _ t₂ ⟨hold2, near2, hstill2⟩
      exact hend ⟨hold2, .of_eq (hstill2.lh.trans hlh), fun _ =>
        ⟨rfl, rfl, near2.toTaken, .inl near2.vol⟩⟩
    · dsimp only
      rw [wp_bind, SysM.wp_fs, wp_getInode, wp_bind, SysM.wp_getFile, wp_bind, SysM.wp_setFile,
        wp_bind, SysM.wp_fs]
      refine (openEnd_spec hl hold omode).call ?_
      rintro _ t₂ ⟨hold2, hspends2⟩
      exact hend ⟨hold2, ⟨_, _, hspends2.after hlh, by simp⟩, fun hneg => by omega⟩
  | @new t ip d name hcreate parent hold taken spends made =>
    dsimp only
    rw [wp_bind]
    refine (allocFile_spec (s := { s with fs := t, outstanding := s.outstanding + 1 }) hclosed).call
      fun r s1 hpost => ?_
    rcases hpost with ⟨rfl, rfl, hfull⟩ | ⟨⟨f, fd⟩, ftable, ofile, rfl, rfl⟩
    · dsimp only
      rw [wp_bind, SysM.wp_fs]
      refine (iunlockput_hold hl hold (mem_singleton_self _)).call fun _ t₂ hdrop => ?_
      have hold2 := hdrop.hold
      rw [erase_singleton] at hold2
      -- the new file has a link
      have hlive : ¬ (t.itable ip).Dead := by
        rintro ⟨-, -, hlink⟩
        rw [hold.din (mem_singleton_self _), made.ino.2] at hlink
        exact absurd hlink (by decide)
      refine hend ⟨hold2, (Fs.Cost.of_pair (spends.trans hdrop.spends) (i := (t.itable ip).inum)
        (j := d) ?_).mono (by decide), fun _ => ⟨rfl, rfl, ?_,
          .inr ⟨hcreate, hfull, d, name, (t.itable ip).inum, parent, ?_⟩⟩⟩
      · intro i
        simp only [mem_union, mem_singleton, mem_insert]
        tauto
      · have hdropped := taken.drop (List.mem_singleton_self _) hdrop.ref hdrop.inum
        rwa [List.erase_cons_head] at hdropped
      · rw [hdrop.vol hlive]
        exact made
    · dsimp only
      rw [wp_bind, SysM.wp_fs, wp_getInode, wp_bind, SysM.wp_getFile, wp_bind, SysM.wp_setFile,
        wp_bind, SysM.wp_fs]
      refine (openEnd_spec hl hold omode).call ?_
      rintro _ t₂ ⟨hold2, hspends2⟩
      refine hend ⟨hold2, (Fs.Cost.of_pair (spends.trans hspends2) (i := (t.itable ip).inum)
        (j := d) ?_).mono (by decide), fun hneg => by omega⟩
      intro i
      simp only [mem_union, mem_singleton, mem_insert]
      tauto

/-- A failed `open` changes nothing, but for an empty file that `O_CREATE` has made before the file
table or the descriptors were found full. -/
theorem failed_open {s : FileSys} (h : s.fs.Sound sb) (hcwd : 0 < (s.fs.itable s.cwd).ref)
    (hclosed : s.Closed) (path : Option PathStr) (omode : UInt32) {s' : FileSys}
    (hrun : (sysOpen sb path omode).run s = .ok (-1, s')) :
    s.SameRefs sb s' ∧ (s'.fs.vol sb = s.fs.vol sb ∨
      ∃ p, path = some p ∧ s.Leftover sb p.bytes omode (s'.fs.vol sb)) := by
  cases path with
  | none =>
    cases hrun
    exact ⟨(FileSys.Unchanged.refl h).toSameRefs, .inl rfl⟩
  | some path =>
    obtain ⟨t, ftable, ofile, rfl, hopen⟩ :=
      (wp_iff.mp (openPath_spec hl h hcwd hclosed path.noNul omode)).1 _ _ hrun
    obtain ⟨rfl, rfl, htaken, hvol⟩ := hopen.failed rfl
    have hsame := FileSys.SameRefs.commit hopen.hold htaken
    obtain ⟨-, hcommit, -⟩ := s.commit_eq sb t
    refine ⟨⟨hsame.ref, hsame.inum, hsame.unlocked, rfl, rfl, hsame.cwd, hsame.outstanding,
      hsame.table⟩, ?_⟩
    change (s.commit t).fs.vol sb = _ ∨ ∃ p : PathStr, _ ∧
      s.Leftover sb p.bytes omode ((s.commit t).fs.vol sb)
    rw [hcommit]
    exact hvol.imp_right fun hleft => ⟨path, rfl, hleft⟩

end Open

def file0 : Fin NFILE := ⟨0, by decide⟩

def Mkfs.fullSys : FileSys where
  fs := Mkfs.rootIdle
  outstanding := 0
  ftable := update (fun _ => noFile) file0 { noFile with type := .pipe, ref := NOFILE }
  ofile _ := some file0
  cwd := Mkfs.entry0
  sections := []

/-- `open("x", O_CREATE | O_RDWR)` fails, and the file is there. -/
theorem open_leaves_file :
    Slots.get xPath.bytes ((Mkfs.fullSys.fs.vol Mkfs.sb).slots ROOTINO) = none ∧
    ((sysOpen Mkfs.sb (some xPath) (O_CREATE ||| O_RDWR)).run Mkfs.fullSys).map
        (fun r => (r.1, Slots.get xPath.bytes ((r.2.fs.vol Mkfs.sb).slots ROOTINO)))
      = .ok (-1, some 2) := by
  decide +kernel

/-- `open(".", O_RDONLY)` has locked the directory when it finds no descriptor. -/
theorem failed_open_full :
    ∃ s', (sysOpen Mkfs.sb (some dotPath) O_RDONLY).run Mkfs.fullSys = .ok (-1, s') ∧
      Mkfs.fullSys.SameRefs Mkfs.sb s' ∧ s'.fs.vol Mkfs.sb = Mkfs.fullSys.fs.vol Mkfs.sb := by
  -- with the state a variable, so that the run is not unfolded
  have hall {s s' : FileSys} (h : s.fs.Sound Mkfs.sb) (hcwd : 0 < (s.fs.itable s.cwd).ref)
      (hclosed : s.Closed) (hrun : (sysOpen Mkfs.sb (some dotPath) O_RDONLY).run s = .ok (-1, s')) :=
    failed_open Mkfs.layout h hcwd hclosed (some dotPath) O_RDONLY hrun
  have hclosed : Mkfs.fullSys.Closed := by decide
  obtain ⟨s', hrun⟩ : ∃ s', (sysOpen Mkfs.sb (some dotPath) O_RDONLY).run Mkfs.fullSys = .ok (-1, s') :=
    ok_of_map_fst (by decide +kernel)
  obtain ⟨hsame, hvol⟩ := hall Mkfs.rootIdle_whole.toSound (by decide) hclosed hrun
  exact ⟨s', hrun, hsame, hvol.resolve_right fun ⟨_, _, hcreate, _⟩ => hcreate rfl⟩

/-! ### Room in the log -/

theorem Fs.Cost.card_le {sb : Superblock} {s s' : Fs} {n : Nat} (h : s.Cost sb s' n)
    (hone : sb.size ≤ BPB) (hempty : s.lh = []) : s'.lh.toFinset.card ≤ n + 1 := by
  obtain ⟨is, m, ⟨bs, hbs, hlogs⟩, hle⟩ := h
  have hsub : s'.lh.toFinset ⊆ insert (sb.BBLOCK 0) (is.image sb.IBLOCK ∪ bs) := by
    intro c hc
    rcases hlogs c (List.mem_toFinset.mp hc) with hold | ⟨b, hb, rfl⟩ | ⟨i, hi, rfl⟩ | hc
    · simp [hempty] at hold
    · simp [Superblock.BBLOCK, Nat.div_eq_of_lt (hb.trans_le hone)]
    · exact mem_insert_of_mem (mem_union_left _ (mem_image_of_mem _ hi))
    · simp [hc]
  have hcard := (card_le_card hsub).trans (card_insert_le ..)
  have hunion := card_union_le (is.image sb.IBLOCK) bs
  have himage := card_image_le (s := is) (f := sb.IBLOCK)
  omega

/-- The transactions since `s` are of at most `MAXOPBLOCKS` blocks each. -/
def FileSys.Fits (s s' : FileSys) : Prop :=
  ∃ new, s'.sections = s.sections ++ new ∧ ∀ sec ∈ new, sec.toFinset.card ≤ MAXOPBLOCKS

/-- A process makes a system call while no other does, on a disk with one block of bitmap. -/
structure FileSys.Alone (sb : Superblock) (s : FileSys) : Prop where
  sound : s.fs.Sound sb
  cwd : 0 < (s.fs.itable s.cwd).ref
  closed : s.Closed
  one : sb.size ≤ BPB
  idle : s.outstanding = 0
  empty : s.fs.lh = []

section Fits

variable {sb : Superblock} {s s' : FileSys}

theorem FileSys.Fits.none (hs : s'.sections = s.sections) : s.Fits s' :=
  ⟨[], by simpa using hs, by simp⟩

theorem FileSys.Alone.fits {t : Fs} (h : s.Alone sb) (hcost : s.fs.Cost sb t 9)
    (hs : s'.sections = (s.commit t).sections) : s.Fits s' := by
  rw [FileSys.commit, if_pos h.idle] at hs
  exact ⟨[t.lh], hs, List.forall_mem_singleton.mpr (hcost.card_le h.one h.empty)⟩

theorem DirCall.run_fits (hl : sb.Layout) (h : s.Alone sb) (c : DirCall) :
    wp (fun _ => True) (c.run sb) (fun _ => s.Fits) s := by
  have hcall {c : FsM Int} (hc : wp (fun _ => True) c (CallPost sb s.fs) s.fs) :
      wp (fun _ => True) (transaction c) (fun _ => s.Fits) s := by
    rw [SysM.wp_transaction]
    refine hc.call fun r t hpost => ?_
    cases hpost with
    | fail _ _ cost | done _ cost => exact h.fits cost rfl
  have hbytes (path : Option PathStr) : ∀ p ∈ path.map PathStr.bytes, (0 : UInt8) ∉ p :=
    Option.forall_mem_map.mpr fun x _ => x.noNul
  cases c with
  | link old new =>
    rcases old with _ | old
    · exact .none rfl
    rcases new with _ | new
    · exact .none rfl
    exact hcall (link_spec hl h.sound h.cwd old.noNul new.noNul)
  | unlink path =>
    rcases path with _ | path
    · exact .none rfl
    exact hcall (unlink_spec hl h.sound h.cwd path.noNul)
  | mkdir path => exact hcall (make_spec hl h.sound h.cwd (hbytes path) T_DIR 0 0)
  | mknod path => exact hcall (make_spec hl h.sound h.cwd (hbytes path) T_DEVICE _ _)
  | chdir path =>
    show wp _ (getCwd >>= _) _ _
    rw [wp_bind, SysM.wp_getCwd, wp_bind, SysM.wp_transaction]
    refine (chdir_spec hl h.sound h.cwd (hbytes path)).call fun r t hpost => ?_
    cases r <;> exact h.fits hpost.2.1 rfl

/-- **Every call fits its reservation in the log**: `link`, `unlink`, `mkdir`, `mknod`, `chdir` and
`open` give at most `MAXOPBLOCKS` blocks to `log_write` between `begin_op` and `end_op`, whether they
succeed or fail. -/
theorem calls_fit_log (hl : sb.Layout) (h : s.Alone sb) {call : SysM Int}
    (hcall : (∃ c : DirCall, call = c.run sb) ∨ ∃ path omode, call = sysOpen sb path omode) {r : Int}
    (hrun : call.run s = .ok (r, s')) : s.Fits s' := by
  rcases hcall with ⟨c, rfl⟩ | ⟨path, omode, rfl⟩
  · exact (wp_iff.mp (c.run_fits hl h)).1 _ _ hrun
  rcases path with _ | path
  · cases hrun
    exact .none rfl
  obtain ⟨t, ftable, ofile, rfl, hopen⟩ :=
    (wp_iff.mp (openPath_spec hl h.sound h.cwd h.closed path.noNul omode)).1 _ _ hrun
  exact h.fits hopen.cost rfl

end Fits

theorem calls_fit_log_root :
    ∃ s', (sysOpen Mkfs.sb (some xPath) O_CREATE).run Mkfs.fullSys = .ok (-1, s') ∧
      Mkfs.fullSys.Fits s' := by
  have hall {s s' : FileSys} (h : s.Alone Mkfs.sb)
      (hrun : (sysOpen Mkfs.sb (some xPath) O_CREATE).run s = .ok (-1, s')) :=
    calls_fit_log Mkfs.layout h (.inr ⟨_, _, rfl⟩) hrun
  obtain ⟨s', hrun⟩ : ∃ s', (sysOpen Mkfs.sb (some xPath) O_CREATE).run Mkfs.fullSys
    = .ok (-1, s') := ok_of_map_fst (by decide +kernel)
  exact ⟨s', hrun, hall ⟨Mkfs.rootIdle_whole.toSound, by decide, by decide, by decide, rfl, rfl⟩ hrun⟩

end Xv6
