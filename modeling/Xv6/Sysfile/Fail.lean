import Xv6.Sysfile.Create

/-!
# Calls that fail

A call that returns `-1` leaves the file system as it found it: `sys_link`, `sys_unlink`, `sys_mkdir`,
`sys_mknod` and `sys_chdir` always, `sys_open` unless it has created the file when it finds that no
`struct file` or descriptor is free.
-/

namespace Xv6

open Prog Vol SysM

/-! ### Transactions -/

/-- The state after a transaction that left the file system as `t`. -/
def FileSys.commit (s : FileSys) (t : Fs) : FileSys :=
  if s.outstanding = 0 then
    { s with fs := { t with lh := [] }, sections := s.sections ++ [t.lh] }
  else
    { s with fs := t }

section Transactions

variable {α : Type} {E : SysPanic → Prop} {s : FileSys}

@[simp] theorem SysM.wp_getCwd {Q : Fin NINODE → FileSys → Prop} : wp E getCwd Q s ↔ Q s.cwd s := Iff.rfl

@[simp] theorem SysM.wp_getFile {f : Fin NFILE} {Q : File → FileSys → Prop} :
    wp E (getFile f) Q s ↔ Q (s.ftable f) s := Iff.rfl

variable {Q : Unit → FileSys → Prop}

@[simp] theorem SysM.wp_setFile {f : Fin NFILE} {x : File} :
    wp E (setFile f x) Q s ↔ Q () { s with ftable := Function.update s.ftable f x } := Iff.rfl

@[simp] theorem SysM.wp_beginOp :
    wp E beginOp Q s ↔ Q () { s with outstanding := s.outstanding + 1 } := Iff.rfl

theorem SysM.wp_endOp (t : Fs) (ftable : Fin NFILE → File)
    (ofile : Fin NOFILE → Option (Fin NFILE)) :
    wp E endOp Q
        { s with fs := t, outstanding := s.outstanding + 1, ftable := ftable, ofile := ofile }
      ↔ Q () { s.commit t with ftable := ftable, ofile := ofile } := by
  show Q () (if s.outstanding + 1 - 1 = 0 then _ else _) ↔ _
  unfold FileSys.commit
  rw [Nat.add_sub_cancel]
  split
  · exact Iff.rfl
  · exact Iff.rfl

@[simp] theorem SysM.wp_fs {c : FsM α} {Q : α → FileSys → Prop} :
    wp E (fs c) Q s ↔ wp (fun e => E (.fs e)) c (fun a t => Q a { s with fs := t }) s.fs :=
  wp_within

theorem SysM.wp_transaction {c : FsM α} {Q : α → FileSys → Prop} :
    wp E (transaction c) Q s
      ↔ wp (fun e => E (.fs e)) c (fun a t => Q a (s.commit t)) s.fs := by
  unfold transaction
  rw [wp_bind, SysM.wp_beginOp, wp_bind, SysM.wp_fs]
  refine Iff.of_eq (congrArg (fun Q => wp _ c Q s.fs) ?_)
  funext a t
  have hcommit : { s.commit t with ftable := s.ftable, ofile := s.ofile } = s.commit t := by
    unfold FileSys.commit
    split
    · rfl
    · rfl
  rw [wp_bind]
  have hend := SysM.wp_endOp (E := E) (s := s) t s.ftable s.ofile (Q := fun _ => wp E (pure a) Q)
  rw [hcommit] at hend
  exact propext hend

end Transactions

/-! ### Directory operations -/

inductive DirCall where
  | link (old new : Option PathStr)
  | unlink (path : Option PathStr)
  | mkdir (path : Option PathStr)
  | mknod (path : Option PathStr) (major minor : Int32)
  | chdir (path : Option PathStr)

def DirCall.run (sb : Superblock) : DirCall → SysM Int
  | .link old new => sysLink sb old new
  | .unlink path => sysUnlink sb path
  | .mkdir path => sysMkdir sb path
  | .mknod path major minor => sysMknod sb path major minor
  | .chdir path => sysChdir sb path

/-- The references, the files and descriptors, and the current directory are as they were; no inode is
locked, and no transaction has been left open. What the table has of an inode is what the disk has. -/
structure FileSys.SameRefs (sb : Superblock) (s s' : FileSys) : Prop where
  ref : ∀ k, (s'.fs.itable k).ref = (s.fs.itable k).ref
  inum : ∀ k, 0 < (s.fs.itable k).ref → (s'.fs.itable k).inum = (s.fs.itable k).inum
  unlocked : ∀ k, (s'.fs.itable k).lock = false
  ftable : s'.ftable = s.ftable
  ofile : s'.ofile = s.ofile
  cwd : s'.cwd = s.cwd
  outstanding : s'.outstanding = s.outstanding
  table : Table sb (s'.fs.vol sb) s'.fs.itable

/-- The same, and so are all inodes, the bitmap, and the content of files and directories. -/
structure FileSys.Unchanged (sb : Superblock) (s s' : FileSys) : Prop extends s.SameRefs sb s' where
  vol : s'.fs.vol sb = s.fs.vol sb

section Fail

variable {sb : Superblock} {s : FileSys}

theorem FileSys.commit_eq (s : FileSys) (sb : Superblock) (t : Fs) : (s.commit t).fs.itable = t.itable ∧
    (s.commit t).fs.vol sb = t.vol sb ∧ (s.commit t).ftable = s.ftable ∧
    (s.commit t).ofile = s.ofile ∧ (s.commit t).cwd = s.cwd ∧
    (s.commit t).outstanding = s.outstanding := by
  unfold FileSys.commit
  split
  · exact ⟨rfl, rfl, rfl, rfl, rfl, rfl⟩
  · exact ⟨rfl, rfl, rfl, rfl, rfl, rfl⟩

theorem FileSys.SameRefs.commit {t : Fs} (hold : t.Holding sb ∅) (htaken : Taken s.fs t []) :
    s.SameRefs sb (s.commit t) := by
  obtain ⟨htable, hvol, hftable, hofile, hcwd, hout⟩ := s.commit_eq sb t
  refine ⟨fun k => ?_, fun k hk => ?_, fun k => ?_, hftable, hofile, hcwd, hout, ?_⟩
  · rw [htable]
    exact htaken.ref k
  · rw [htable]
    exact htaken.kept k hk
  · rw [htable]
    exact hold.quiet.unlocked k
  · rw [htable, hvol]
    exact hold.good.table

theorem FileSys.Unchanged.commit {t : Fs} (hold : t.Holding sb ∅) (hn : Near sb s.fs t []) :
    s.Unchanged sb (s.commit t) :=
  ⟨.commit hold hn.toTaken, (s.commit_eq sb t).2.1.trans hn.vol⟩

theorem FileSys.Unchanged.refl (h : s.fs.Sound sb) : s.Unchanged sb s where
  ref _ := rfl
  inum _ _ := rfl
  unlocked := h.unlocked
  ftable := rfl
  ofile := rfl
  cwd := rfl
  outstanding := rfl
  table := h.good.table
  vol := rfl

theorem transaction_call {c : FsM Int} (hc : wp (fun _ => True) c (CallPost sb s.fs) s.fs) :
    wp (fun _ => True) (transaction c) (fun r s' => r = -1 → s.Unchanged sb s') s := by
  rw [SysM.wp_transaction]
  refine hc.call fun r t hpost hr => ?_
  cases hpost with
  | fail hold near => exact .commit hold near
  | done => exact absurd hr (by decide)

theorem DirCall.run_spec (hl : sb.Layout) (h : s.fs.Sound sb) (hcwd : 0 < (s.fs.itable s.cwd).ref)
    (c : DirCall) : wp (fun _ => True) (c.run sb) (fun r s' => r = -1 → s.Unchanged sb s') s := by
  have hbytes (path : Option PathStr) : ∀ p ∈ path.map PathStr.bytes, (0 : UInt8) ∉ p := by
    intro p hp
    obtain ⟨x, -, rfl⟩ := Option.map_eq_some_iff.mp hp
    exact x.noNul
  cases c with
  | link old new =>
    cases old with
    | none => exact fun _ => .refl h
    | some old =>
      cases new with
      | none => exact fun _ => .refl h
      | some new =>
        show wp _ (getCwd >>= _) _ _
        rw [wp_bind, SysM.wp_getCwd]
        exact transaction_call (link_spec hl h hcwd old.noNul new.noNul)
  | unlink path =>
    cases path with
    | none => exact fun _ => .refl h
    | some path =>
      show wp _ (getCwd >>= _) _ _
      rw [wp_bind, SysM.wp_getCwd]
      exact transaction_call (unlink_spec hl h hcwd path.noNul)
  | mkdir path =>
    show wp _ (getCwd >>= _) _ _
    rw [wp_bind, SysM.wp_getCwd]
    exact transaction_call (make_spec hl h hcwd (hbytes path) T_DIR 0 0)
  | mknod path major minor =>
    show wp _ (getCwd >>= _) _ _
    rw [wp_bind, SysM.wp_getCwd]
    exact transaction_call (make_spec hl h hcwd (hbytes path) T_DEVICE _ _)
  | chdir path =>
    show wp _ (getCwd >>= _) _ _
    rw [wp_bind, SysM.wp_getCwd, wp_bind, SysM.wp_transaction]
    refine (chdir_spec hl h hcwd (hbytes path)).call fun r t hpost => ?_
    cases r with
    | none => exact fun _ => .commit hpost.1 (hpost.2.2 rfl)
    | some ip => exact fun hr => absurd hr (by decide)

/-- **A directory operation that fails changes nothing**: `link`, `unlink`, `mkdir`, `mknod` and
`chdir` that return −1 leave the files, the references and the descriptors as they were, with no
inode locked and no operation open. -/
theorem failed_call_unchanged (hl : sb.Layout) (h : s.fs.Sound sb)
    (hcwd : 0 < (s.fs.itable s.cwd).ref) (c : DirCall) {s' : FileSys}
    (hrun : (c.run sb).run s = .ok (-1, s')) : s.Unchanged sb s' :=
  (wp_iff.mp (c.run_spec hl h hcwd)).1 _ _ hrun rfl

def noFile : File where
  type := .none
  ref := 0
  readable := false
  writable := false
  ip := Mkfs.entry0
  off := 0
  major := 0

/-- A process in the root directory of the disk of `mkfs`. -/
def Mkfs.idleSys : FileSys where
  fs := Mkfs.rootIdle
  outstanding := 0
  ftable _ := noFile
  ofile _ := none
  cwd := Mkfs.entry0
  sections := []

def dotPath : PathStr where
  bytes := [dot]
  noNul := by decide
  short := by decide

def xPath : PathStr where
  bytes := [120]
  noNul := by decide
  short := by decide

def xyPath : PathStr where
  bytes := [120, slash, 121]
  noNul := by decide
  short := by decide

/-- The disk of `mkfs` with an empty file `"x"`, after the commit. -/
def Mkfs.xFs : Fs :=
  match (make Mkfs.sb Mkfs.entry0 (some xPath.bytes) T_FILE 0 0).run Mkfs.rootIdle with
  | .ok (_, fs) => { fs with lh := [] }
  | .error _ => Mkfs.rootIdle

theorem Mkfs.xFs_sound : Mkfs.xFs.Sound Mkfs.sb := by
  have hquiet : Mkfs.xFs.Quiet Mkfs.sb := by
    obtain ⟨s, hrun⟩ : ∃ s, (make Mkfs.sb Mkfs.entry0 (some xPath.bytes) T_FILE 0 0).run Mkfs.rootIdle
        = .ok (0, s) := ok_of_map_fst (by decide +kernel)
    have hpath : ∀ p ∈ some xPath.bytes, (0 : UInt8) ∉ p := by decide
    have hpost := (wp_iff.mp (make_spec Mkfs.layout Mkfs.rootIdle_whole.toSound (by decide) hpath
      T_FILE 0 0)).1 _ _ hrun
    unfold Mkfs.xFs
    rw [hrun]
    cases hpost with
    | done hold => exact ⟨⟨hold.good.wf, hold.good.tidy, hold.good.table⟩, hold.dirs, hold.quiet.unlocked⟩
  have hall : ∀ i, i < Mkfs.sb.ninodes → ((Mkfs.xFs.vol Mkfs.sb).ino i).type ≠ 0 →
      ((Mkfs.xFs.vol Mkfs.sb).ino i).nlink ≠ 0 ∧ DESIZE ∣ (Mkfs.xFs.vol Mkfs.sb).size i := by
    decide +kernel
  exact {
    hquiet with
    whole := fun i hi _ => (hall i hi.1 hi.2).2
    linked := fun i _ hi hlink => absurd hlink (hall i hi.1 hi.2).1 }

/-- `link("x", "x/y")` has counted the new link of `"x"` when it finds that there is no directory
`"x"`, and takes it back: the block of the inode has been logged. -/
theorem failed_call_unchanged_link :
    ∃ s', ((DirCall.link (some xPath) (some xyPath)).run Mkfs.sb).run { Mkfs.idleSys with fs := Mkfs.xFs }
        = .ok (-1, s') ∧ s'.sections = [[Mkfs.sb.IBLOCK 2]] ∧
      FileSys.Unchanged Mkfs.sb { Mkfs.idleSys with fs := Mkfs.xFs } s' := by
  -- with the file system a variable, so that the run is not unfolded
  have hall {fs : Fs} {s' : FileSys} (h : fs.Sound Mkfs.sb) (hcwd : 0 < (fs.itable Mkfs.entry0).ref)
      (hrun : ((DirCall.link (some xPath) (some xyPath)).run Mkfs.sb).run { Mkfs.idleSys with fs := fs }
        = .ok (-1, s')) :=
    failed_call_unchanged (s := { Mkfs.idleSys with fs := fs }) Mkfs.layout h hcwd
      (.link (some xPath) (some xyPath)) hrun
  obtain ⟨⟨r, s'⟩, hrun, hout⟩ := ok_of_map (x := ((DirCall.link (some xPath) (some xyPath)).run
    Mkfs.sb).run { Mkfs.idleSys with fs := Mkfs.xFs }) (f := fun r => (r.1, r.2.sections))
    (b := (-1, [[Mkfs.sb.IBLOCK 2]])) (by decide +kernel)
  obtain ⟨rfl, hsections⟩ := Prod.mk.inj hout
  exact ⟨s', hrun, hsections, hall Mkfs.xFs_sound (by decide +kernel) hrun⟩

end Fail

end Xv6
