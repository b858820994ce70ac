import Xv6.Fs.Entries
import Xv6.Fs.Mkfs

/-!
# Walking a path

What `namei` leaves behind when it runs alone: one more reference, to the inode it returns, and no
lock. The directories on the way are locked one after the other, and each reference is dropped once
the next one has been taken.
-/

namespace Xv6

open Prog Vol Function Option

/-- Between two calls: the file system is good, directories name inodes of the disk, and nobody
holds a lock. -/
structure Fs.Quiet (sb : Superblock) (s : Fs) : Prop where
  good : s.Good sb
  dirs : (s.vol sb).Dirs sb
  unlocked : ∀ j, (s.itable j).lock = false

/-- The references of the table are those of `s₀`, and one more to the entry `k`, if any. -/
def Fs.Holds (s₀ s : Fs) (k : Option (Fin NINODE)) : Prop :=
  ∀ j, (s.itable j).ref = (s₀.itable j).ref + if k = some j then 1 else 0

section Steps

variable {sb : Superblock} {s s' s₀ : Fs} {k ip : Fin NINODE}

theorem Iget.ref {t t' : Fin NINODE → Inode} {inum : Nat} (hget : Iget t inum k t') (j : Fin NINODE) :
    (t' j).ref = (t j).ref + (if k = j then 1 else 0) ∧ (t' j).lock = (t j).lock := by
  by_cases hj : j = k
  · subst hj
    rw [if_pos rfl]
    cases hget with
    | found =>
      rw [update_self]
      exact ⟨rfl, rfl⟩
    | new hr =>
      rw [update_self, hr]
      exact ⟨rfl, rfl⟩
  · rw [if_neg (Ne.symm hj)]
    cases hget with
    | found | new =>
      rw [update_of_ne hj]
      exact ⟨rfl, rfl⟩

theorem Iput.ref (hput : Iput sb s k s') (j : Fin NINODE) :
    (s'.itable j).ref = (s.itable j).ref - (if k = j then 1 else 0) ∧
      (s'.itable j).lock = (s.itable j).lock := by
  obtain ⟨ip, htab, -, href, hlock, -⟩ := hput.entry
  rw [htab]
  by_cases hj : j = k
  · subst hj
    rw [update_self, if_pos rfl]
    exact ⟨href, hlock⟩
  · rw [update_of_ne hj, if_neg (Ne.symm hj)]
    exact ⟨rfl, rfl⟩

theorem Iput.dirs (hput : Iput sb s k s') (hdirs : (s.vol sb).Dirs sb) : (s'.vol sb).Dirs sb := by
  intro i halloc htype e he
  have hino : (s'.vol sb).ino i = (s.vol sb).ino i := by
    rw [hput.ino] at htype ⊢
    by_cases hdead : (s.itable k).Dead
    · rw [if_pos hdead] at htype ⊢
      by_cases hi : i = (s.itable k).inum
      · rw [hi, update_self] at htype
        exact absurd (show (0 : Int16) = T_DIR from htype) (by decide)
      · rw [update_of_ne hi]
    · rw [if_neg hdead]
  have hbytes := fileByte_of_same hino hput.data
  have hdirent : (s'.vol sb).dirent i (e * DESIZE) = (s.vol sb).dirent i (e * DESIZE) :=
    dirent_congr fun o _ _ => hbytes o
  rw [hdirent]
  have hsize : (s'.vol sb).size i = (s.vol sb).size i := by
    unfold Vol.size
    rw [hino]
  refine hdirs i ⟨halloc.1, ?_⟩ ?_ e (hsize ▸ he)
  · rw [← hino]
    exact halloc.2
  · rw [← hino]
    exact htype

/-- One entry is locked, by the process whose calls are followed. -/
structure Fs.Locked (sb : Superblock) (s : Fs) (k : Fin NINODE) : Prop where
  good : s.Good sb
  dirs : (s.vol sb).Dirs sb
  ref : 0 < (s.itable k).ref
  valid : (s.itable k).valid = true
  locked : ∀ j, (s.itable j).lock = decide (j = k)

theorem Fs.Quiet.lock (h : s.Quiet sb) (hr : 0 < (s.itable k).ref)
    (htype : ((s.vol sb).ino (s.itable k).inum).type ≠ 0) :
    Fs.Locked sb (s.setEntry k { s.itable k with
      lock := true
      valid := true
      din := (s.vol sb).ino (s.itable k).inum }) k := by
  refine ⟨ilock_good h.good hr htype, h.dirs, ?_, ?_, fun j => ?_⟩
  · rw [Fs.itable_setEntry]
    exact hr
  · rw [Fs.itable_setEntry]
  · by_cases hj : j = k
    · rw [hj, Fs.itable_setEntry, decide_eq_true rfl]
    · rw [Fs.itable_setEntry_ne hj, decide_eq_false hj]
      exact h.unlocked j

theorem Fs.Locked.unlock (h : s.Locked sb k) :
    Fs.Quiet sb (s.setEntry k { s.itable k with lock := false }) := by
  refine ⟨iunlock_good h.good h.ref, h.dirs, fun j => ?_⟩
  by_cases hj : j = k
  · rw [hj, Fs.itable_setEntry]
  · rw [Fs.itable_setEntry_ne hj, h.locked]
    exact decide_eq_false hj

theorem ilock_quiet (h : s.Quiet sb) (hr : 0 < (s.itable k).ref) :
    wp (fun e => e = .noType ∧ ((s.vol sb).ino (s.itable k).inum).type = 0) (ilock sb k)
      (fun _ s' => s'.Locked sb k ∧ s'.vol sb = s.vol sb ∧
        (s'.itable k).inum = (s.itable k).inum ∧ ∀ j, (s'.itable j).ref = (s.itable j).ref) s := by
  refine (ilock_spec (h.good.table.entry _)).mono (fun _ s' hpost => ?_) fun e he => ?_
  · obtain ⟨-, -, htype, rfl⟩ := hpost
    refine ⟨h.lock hr htype, rfl, ?_, fun j => ?_⟩
    · rw [Fs.itable_setEntry]
    · by_cases hj : j = k
      · rw [hj, Fs.itable_setEntry]
      · rw [Fs.itable_setEntry_ne hj]
  · rcases he with ⟨-, hno⟩ | ⟨-, hno⟩ | hno
    · omega
    · rw [h.unlocked] at hno
      cases hno
    · exact hno

theorem iunlock_locked (h : s.Locked sb k) {E : FsPanic → Prop} :
    wp E (iunlock k) (fun _ s' => s'.Quiet sb ∧ 0 < (s'.itable k).ref ∧
      ∀ j, (s'.itable j).ref = (s.itable j).ref) s := by
  refine iunlock_spec.mono (fun _ s' hpost => ?_) fun e he => ?_
  · obtain ⟨-, -, rfl⟩ := hpost
    refine ⟨h.unlock, ?_, fun j => ?_⟩
    · rw [Fs.itable_setEntry]
      exact h.ref
    · by_cases hj : j = k
      · rw [hj, Fs.itable_setEntry]
      · rw [Fs.itable_setEntry_ne hj]
  · have hlock := h.locked k
    have hr := h.ref
    rw [decide_eq_true rfl] at hlock
    rcases he.2 with hno | hno
    · rw [hlock] at hno
      cases hno
    · omega

theorem iunlockput_locked (hl : sb.Layout) (h : s.Locked sb k) {E : FsPanic → Prop} :
    wp E (iunlockput sb k) (fun _ s' => s'.Quiet sb ∧
      ∀ j, (s'.itable j).ref = (s.itable j).ref - if k = j then 1 else 0) s := by
  unfold iunlockput
  rw [wp_bind]
  refine (iunlock_locked h).call ?_
  rintro _ s1 ⟨hquiet, hr, href⟩
  refine (iput_spec hl hquiet.good hr fun hlock => ?_).call fun _ s' hput => ?_
  · rw [hquiet.unlocked] at hlock
    cases hlock
  · refine ⟨⟨hput.good, hput.dirs hquiet.dirs, fun j => ?_⟩, fun j => ?_⟩
    · rw [(hput.ref j).2]
      exact hquiet.unlocked j
    · rw [(hput.ref j).1, href j]

theorem dirlookup_locked (h : s.Locked sb k) (name : List UInt8) :
    wp (fun _ => True) (dirlookup sb k name) (fun r s' => s'.Locked sb k ∧
      s.Holds s' (r.map Prod.fst) ∧ ∀ next ∈ r.map Prod.fst, 0 < (s'.itable next).ref) s := by
  refine (dirlookup_spec h.good h.ref h.valid name).mono (fun r s' hpost => ?_) fun _ _ => trivial
  obtain ⟨htype, hlook⟩ := hpost
  have hgood := hlook.good h.good h.dirs h.ref h.valid htype
  cases hlook with
  | none =>
    refine ⟨h, fun j => ?_, fun next hnext => ?_⟩
    · simp
    · cases hnext
  | @found next e t hin hm hget =>
    have hkeep := hget.keep h.ref
    refine ⟨⟨hgood, h.dirs, ?_, ?_, fun j => ?_⟩, fun j => ?_, fun i hi => ?_⟩
    · show 0 < (t k).ref
      rw [(hget.ref k).1]
      exact Nat.add_pos_left h.ref _
    · show (t k).valid = true
      rw [hkeep]
      split
      · exact h.valid
      · exact h.valid
    · show (t j).lock = _
      rw [(hget.ref j).2]
      exact h.locked j
    · show (t j).ref = _
      rw [(hget.ref j).1]
      simp only [map_some, some_inj]
    · rw [map_some, mem_some_iff] at hi
      subst hi
      exact (hget.self h.good).1

end Steps

/-! ## The walk -/

section Walk

variable {sb : Superblock} {s s₀ : Fs} {ip : Fin NINODE}

theorem Fs.Holds.iget {k : Fin NINODE} {inum : Nat} {t : Fin NINODE → Inode}
    (hget : Iget s.itable inum k t) : s.Holds { s with itable := t } (some k) := by
  intro j
  show (t j).ref = _
  rw [(hget.ref j).1]
  simp only [some_inj]

theorem Fs.Holds.pos {k : Fin NINODE} (h : s₀.Holds s (some k)) : 0 < (s.itable k).ref := by
  rw [h k, if_pos rfl]
  exact Nat.succ_pos _

/-- The loop of `namex` for `namei`: the reference to `ip` is given up for one to the result. -/
theorem namexFrom_spec (hl : sb.Layout) {fuel : Nat} {path : List UInt8} (h : s.Quiet sb)
    (hip : s₀.Holds s (some ip)) :
    wp (fun _ => True) (namexFrom sb false fuel ip path)
      (fun r s' => s'.Quiet sb ∧ s₀.Holds s' (r.map Prod.fst)) s := by
  induction fuel generalizing s ip path with
  | zero => exact ⟨h, hip⟩
  | succ fuel ih =>
    unfold namexFrom
    cases skipelem path with
    | none => exact ⟨h, hip⟩
    | some elem =>
      obtain ⟨name, rest⟩ := elem
      dsimp only
      rw [wp_bind]
      refine (ilock_quiet h hip.pos).mono (fun _ s1 hpost => ?_) fun _ _ => trivial
      obtain ⟨hlocked, -, -, href⟩ := hpost
      have hip1 : s₀.Holds s1 (some ip) := fun j => (href j).trans (hip j)
      -- the way out, taken when there is no such file
      have hnone {s2 : Fs} (hlocked : s2.Locked sb ip) (hip2 : s₀.Holds s2 (some ip)) :
          wp (fun _ => True) (do iunlockput sb ip; return none) (fun r s' => s'.Quiet sb ∧
            s₀.Holds s' (Option.map Prod.fst (r : Option (Fin NINODE × List UInt8)))) s2 := by
        rw [wp_bind]
        refine (iunlockput_locked hl hlocked).call fun _ s3 hpost => ⟨hpost.1, fun j => ?_⟩
        rw [hpost.2, hip2 j]
        simp
      rw [wp_bind, wp_getInode, wp_ite]
      refine ⟨fun _ => hnone hlocked hip1, fun _ => ?_⟩
      rw [if_neg (by simp), wp_bind]
      refine (dirlookup_locked hlocked name).call fun r s2 hpost => ?_
      obtain ⟨hlocked2, hholds, -⟩ := hpost
      cases r with
      | none => exact hnone hlocked2 fun j => (hholds j).trans (hip1 j)
      | some found =>
        dsimp only
        rw [wp_bind]
        refine (iunlockput_locked hl hlocked2).call fun _ s3 hpost => ih hpost.1 fun j => ?_
        rw [hpost.2, hholds, hip1 j]
        simp only [map_some, some_inj]
        omega

theorem namei_spec (hl : sb.Layout) {cwd : Fin NINODE} (h : s.Quiet sb)
    (hcwd : 0 < (s.itable cwd).ref) (path : List UInt8) :
    wp (fun _ => True) (namei sb cwd path) (fun r s' => s'.Quiet sb ∧ s.Holds s' r) s := by
  have hwalk (ip : Fin NINODE) (s1 : Fs) (hq : s1.Quiet sb) (hip : s.Holds s1 (some ip)) :
      wp (fun _ => True) (namexFrom sb false path.length ip path) (fun r s' =>
        wp (fun _ => True) (pure (r.map Prod.fst) : FsM (Option (Fin NINODE)))
          (fun r s' => s'.Quiet sb ∧ s.Holds s' r) s') s1 :=
    (namexFrom_spec hl hq hip).call fun _ _ hpost => hpost
  have hfirst {inum : Nat} {k : Fin NINODE} {t : Fin NINODE → Inode}
      (hget : Iget s.itable inum k t) (hinum : inum < sb.ninodes) :
      Fs.Quiet sb { s with itable := t } :=
    ⟨hget.good h.good hinum, h.dirs, fun j => by
      show (t j).lock = false
      rw [(hget.ref j).2]
      exact h.unlocked j⟩
  unfold namei namex
  rw [wp_bind]
  dsimp only
  rw [wp_ite, wp_bind, wp_bind]
  refine ⟨fun _ => ?_, fun _ => ?_⟩
  · refine (iget_spec h.good ROOTINO).mono (fun k s1 hpost => ?_) fun _ _ => trivial
    obtain ⟨t, rfl, hget⟩ := hpost
    exact hwalk k _ (hfirst hget hl.root) (.iget hget)
  · have hget : Iget s.itable (s.itable cwd).inum cwd _ := .found hcwd rfl
    exact hwalk cwd _ (hfirst hget ((h.good.table.entry cwd).inum hcwd)) (.iget hget)

end Walk

theorem Mkfs.rootIdle_quiet : Mkfs.rootIdle.Quiet Mkfs.sb where
  good := Mkfs.rootIdle_good
  dirs i hi _ e he := by
    obtain rfl := Mkfs.vol_alloc.mp hi
    have hsize : (Mkfs.fs.vol Mkfs.sb).size ROOTINO = BSIZE := by
      rw [Vol.size, Mkfs.vol_ino, if_pos rfl]
      rfl
    replace he : (e + 1) * DESIZE ≤ BSIZE := hsize ▸ he
    have hall : ∀ e, e < 64 →
        ((Mkfs.fs.vol Mkfs.sb).dirent ROOTINO (e * DESIZE)).inum.toNat < Mkfs.sb.ninodes := by
      decide +kernel
    refine hall e ?_
    unfold DESIZE DIRSIZ BSIZE at he
    omega
  unlocked j := by
    show (update Mkfs.fs.itable Mkfs.entry0 _ j).lock = false
    rw [update_apply]
    split
    · rfl
    · rfl

end Xv6
