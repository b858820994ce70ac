import Xv6.Fs.Path
import Xv6.Sysfile.Calls

/-!
# The steps of the system calls

What the functions that the system calls are made of do to a file system in which some inodes are
locked (`Fs.Holding`): to the volume, to the references (`Taken`) and to the log (`Fs.Spends`).
-/

namespace Xv6

open Prog Vol Function

/-! ### Volumes with the same contents -/

structure Vol.Alike (v v' : Vol) : Prop where
  type : ∀ j, (v'.ino j).type = (v.ino j).type
  size : ∀ j, v'.size j = v.size j
  byte : ∀ j o, v'.fileByte j o = v.fileByte j o

section Alike

variable {sb : Superblock} {v v' : Vol} {i : Nat}

theorem Vol.alike_setIno {d : Dinode} (htype : d.type = (v.ino i).type)
    (hsize : d.size = (v.ino i).size) (haddrs : d.addrs = (v.ino i).addrs) :
    v.Alike (v.setIno i d) where
  type := type_setIno htype
  size j := by
    show (update v.ino i d j).size.toNat = _
    by_cases hj : j = i
    · rw [hj, update_self, hsize, Vol.size]
    · rw [update_of_ne hj, Vol.size]
  byte j o := by
    unfold Vol.fileByte
    rw [blk_setIno haddrs]

theorem Vol.Alike.dirent (h : v.Alike v') (j off : Nat) : v'.dirent j off = v.dirent j off :=
  dirent_congr fun o _ _ => h.byte j o

theorem Vol.Alike.slots (h : v.Alike v') (j : Nat) : v'.slots j = v.slots j := by
  unfold Vol.slots
  simp only [h.size, h.dirent]

theorem Vol.Alike.alloc (h : v.Alike v') (j : Nat) : v'.Alloc sb j ↔ v.Alloc sb j :=
  Vol.alloc_congr h.type

theorem Vol.Alike.named (h : v.Alike v') (j : Nat) : v'.Named sb j ↔ v.Named sb j := by
  unfold Vol.Named
  simp only [h.alloc, h.type, h.slots]

theorem Vol.Alike.dirs (h : v.Alike v') (hdirs : v.Dirs sb) : v'.Dirs sb := by
  intro j halloc htype e he
  rw [h.dirent]
  rw [h.type] at htype
  rw [h.size] at he
  exact hdirs j ((h.alloc j).mp halloc) htype e he

end Alike

/-! ### Entries written -/

/-- Entry `e` of directory `d` is set to `de`. -/
structure Vol.SetDirent (sb : Superblock) (v : Vol) (d e : Nat) (de : Dirent) (v' : Vol) : Prop where
  ino : ∀ j, j ≠ d → v'.ino j = v.ino j
  self : ∃ a z, v'.ino d = { v.ino d with addrs := a, size := z }
  slots : v'.slots d = if e < (v.slots d).length then (v.slots d).set e de.entry
    else v.slots d ++ [de.entry]
  whole : DESIZE ∣ v'.size d
  byte : ∀ j, v.Alloc sb j → j ≠ d → ∀ o, v'.fileByte j o = v.fileByte j o

section SetDirent

variable {sb : Superblock} {v v' : Vol} {d e : Nat} {de : Dirent}

theorem Vol.SetDirent.type (h : v.SetDirent sb d e de v') (j : Nat) :
    (v'.ino j).type = (v.ino j).type := by
  by_cases hj : j = d
  · obtain ⟨a, z, hself⟩ := h.self
    rw [hj, hself]
  · rw [h.ino j hj]

theorem Vol.SetDirent.alloc (h : v.SetDirent sb d e de v') (j : Nat) :
    v'.Alloc sb j ↔ v.Alloc sb j :=
  Vol.alloc_congr h.type

theorem Vol.SetDirent.directory (h : v.SetDirent sb d e de v') {j : Nat} (hdir : v.Directory j) :
    v'.Directory j := by
  refine ⟨(h.type j).trans hdir.type, ?_⟩
  by_cases hj : j = d
  · rw [hj]
    exact h.whole
  · have hsize : v'.size j = v.size j := by
      unfold Vol.size
      rw [h.ino j hj]
    rw [hsize]
    exact hdir.whole

end SetDirent

theorem DirWrite.setDirent {sb : Superblock} {s s' : Fs} {dp : Fin NINODE} {e : Nat} {de : Dirent}
    (hw : DirWrite sb s dp e de s') (hdir : (s.vol sb).Directory (s.itable dp).inum) :
    (s.vol sb).SetDirent sb (s.itable dp).inum e de (s'.vol sb) :=
  ⟨hw.ino, hw.self, hw.slots hdir, (hw.directory hdir).whole, hw.other⟩

theorem DirWrite.dirs {sb : Superblock} {s s' : Fs} {dp : Fin NINODE} {e : Nat} {de : Dirent}
    (hw : DirWrite sb s dp e de s') (hdirs : (s.vol sb).Dirs sb)
    (hdir : (s.vol sb).Directory (s.itable dp).inum) (hnew : de.inum.toNat < sb.ninodes) :
    (s'.vol sb).Dirs sb := by
  have hset := hw.setDirent hdir
  intro j halloc htype x hx
  have halloc' := (hset.alloc j).mp halloc
  have htype' : ((s.vol sb).ino j).type = T_DIR := (hset.type j).symm.trans htype
  by_cases hj : j = (s.itable dp).inum
  · subst hj
    by_cases hxe : x = e
    · rw [hxe, hw.new]
      exact hnew
    · rw [hw.same x hxe]
      refine hdirs _ halloc' htype' x ?_
      -- entries other than the new one were there before
      rw [hw.size] at hx
      rcases le_max_iff.mp hx with hx | hx
      · exact hx
      · have hlt : x < e := by
          have := Nat.le_of_mul_le_mul_right hx (by decide)
          omega
        exact (Nat.mul_le_mul_right _ hlt).trans hw.le
  · have hsize : (s'.vol sb).size j = (s.vol sb).size j := by
      unfold Vol.size
      rw [hw.ino j hj]
    rw [dirent_congr fun o _ _ => hw.other j halloc' hj o]
    rw [hsize] at hx
    exact hdirs j halloc' htype' x hx

/-! ### Changes under a lock -/

section Changes

variable {sb : Superblock} {s s' : Fs} {k : Fin NINODE} {locks : Finset (Fin NINODE)}

theorem Only.taken (h : Only s s' k) : Taken s s' [] := by
  obtain ⟨d, htable⟩ := h
  refine ⟨fun j => ?_, fun j _ => ?_⟩
  · rw [htable, update_apply]
    split
    · rename_i hj
      rw [hj]
      rfl
    · rfl
  · rw [htable, update_apply]
    split
    · rename_i hj
      rw [hj]
    · rfl

theorem Only.inums (h : Only s s' k) (j : Fin NINODE) : (s'.itable j).inum = (s.itable j).inum := by
  obtain ⟨d, htable⟩ := h
  rw [htable, update_apply]
  split
  · rename_i hj
    rw [hj]
  · rfl

theorem Only.lock (h : Only s s' k) (j : Fin NINODE) : (s'.itable j).lock = (s.itable j).lock := by
  obtain ⟨d, htable⟩ := h
  rw [htable, update_apply]
  split
  · rename_i hj
    rw [hj]
  · rfl

theorem ilock_hold (h : s.Holding sb locks) (hr : 0 < (s.itable k).ref) :
    wp (fun e => e = .noType ∧ ¬ (s.vol sb).Alloc sb (s.itable k).inum ∨ e = .asleep ∧ k ∈ locks)
      (ilock sb k) (fun _ s' => s'.Holding sb (insert k locks) ∧ k ∉ locks ∧ Taken s s' [] ∧
        s.Still s' ∧ s'.vol sb = s.vol sb) s := by
  refine (ilock_spec (h.good.table.entry _)).mono (fun _ s' hpost => ?_) fun e he => ?_
  · obtain ⟨-, hfree, htype, rfl⟩ := hpost
    rw [h.lock k, decide_eq_false_iff_not] at hfree
    exact ⟨h.lockEntry hr htype, hfree, (Taken.refl s).setEntry rfl rfl, .setEntry rfl, rfl⟩
  · rcases he with ⟨-, hno⟩ | ⟨rfl, hno⟩ | ⟨rfl, hno⟩
    · omega
    · rw [h.lock k, decide_eq_true_iff] at hno
      exact .inr ⟨rfl, hno⟩
    · exact .inl ⟨rfl, fun halloc => halloc.2 hno⟩

/-- `iupdate` after a change of the inode that keeps its type, its size and its addresses. -/
structure Relabeled (sb : Superblock) (s : Fs) (k : Fin NINODE) (locks : Finset (Fin NINODE))
    (d : Dinode) (s' : Fs) : Prop where
  hold : s'.Holding sb locks
  vol : s'.vol sb = (s.vol sb).setIno (s.itable k).inum d
  alike : (s.vol sb).Alike (s'.vol sb)
  only : Only s s' k
  spends : s.Spends sb s' {(s.itable k).inum} 0

variable {E : FsPanic → Prop}

theorem relabel_spec (hl : sb.Layout) (h : s.Holding sb locks) (hk : k ∈ locks)
    {f : Dinode → Dinode} (htype : ∀ d, (f d).type = d.type) (hsize : ∀ d, (f d).size = d.size)
    (haddrs : ∀ d, (f d).addrs = d.addrs) :
    wp E (do modifyInode k fun ip => { ip with din := f ip.din }; iupdate sb k)
      (fun _ s' => Relabeled sb s k locks (f ((s.vol sb).ino (s.itable k).inum)) s') s := by
  obtain ⟨hr, hv⟩ := h.held hk
  have hdin := h.din hk
  rw [wp_bind, wp_modifyInode]
  refine (iupdate_changed hl h.good hr hv (f (s.itable k).din)).call ?_
  rintro _ s' ⟨hvol, htable, hloose, hlogs⟩
  have hgood := iupdate_good hl h.good hr hv (htype _) (hsize _) (haddrs _) hvol htable hloose
  have honly : Only s s' k := ⟨_, htable⟩
  rw [hdin] at hvol
  have halike : (s.vol sb).Alike (s'.vol sb) := by
    rw [hvol]
    exact Vol.alike_setIno (htype _) (hsize _) (haddrs _)
  refine ⟨⟨hgood, halike.dirs h.dirs, fun j => (honly.lock j).trans (h.lock j)⟩, hvol, halike, honly,
    hlogs.spends fun c hc => .inr ⟨_, Finset.mem_singleton_self _, hc⟩⟩

theorem addNlink_spec (hl : sb.Layout) (h : s.Holding sb locks) (hk : k ∈ locks) (n : Int16) :
    wp E (addNlink sb k n) (fun _ s' => Relabeled sb s k locks
      { (s.vol sb).ino (s.itable k).inum with
        nlink := ((s.vol sb).ino (s.itable k).inum).nlink + n } s') s :=
  relabel_spec (f := fun d => { d with nlink := d.nlink + n }) hl h hk (fun _ => rfl) (fun _ => rfl)
    fun _ => rfl

/-- `iput` of an entry that is not locked; it may free the inode. -/
structure Dropped (sb : Superblock) (s : Fs) (k : Fin NINODE) (locks : Finset (Fin NINODE))
    (s' : Fs) : Prop where
  hold : s'.Holding sb locks
  ref : ∀ j, (s'.itable j).ref = (s.itable j).ref - if k = j then 1 else 0
  inum : ∀ j, (s'.itable j).inum = (s.itable j).inum
  vol : ¬ (s.itable k).Dead → s'.vol sb = s.vol sb
  spends : s.Spends sb s' {(s.itable k).inum} 0

theorem iput_hold (hl : sb.Layout) (h : s.Holding sb locks) (hfree : k ∉ locks)
    (hr : 0 < (s.itable k).ref) : wp E (iput sb k) (fun _ s' => Dropped sb s k locks s') s := by
  have hspec := iput_spec hl h.good hr (E := E) fun hlock => by
    rw [h.lock k, decide_eq_true_iff] at hlock
    exact absurd hlock hfree
  have hvol : wp E (iput sb k) (fun _ s' => ¬ (s.itable k).Dead → s'.vol sb = s.vol sb) s := by
    by_cases hdead : (s.itable k).Dead
    · exact hspec.call fun _ _ _ hlive => absurd hdead hlive
    · refine (iput_live hdead).call fun _ s' hs' _ => ?_
      rw [hs']
      rfl
  refine (hspec.and hvol).call ?_
  rintro _ s' ⟨hput, hvol⟩
  refine ⟨⟨hput.good, hput.dirs h.dirs, fun j => ?_⟩, fun j => (hput.ref j).1, fun j => ?_, hvol,
    hput.logs.spends fun c hc => hc.2.imp_right fun hc => ⟨_, Finset.mem_singleton_self _, hc⟩⟩
  · rw [(hput.ref j).2]
    exact h.lock j
  · obtain ⟨ip, htable, hinum, -⟩ := hput.entry
    rw [htable, update_apply]
    split
    · rename_i hj
      rw [hj, hinum]
    · rfl

theorem iunlock_hold (h : s.Holding sb locks) (hk : k ∈ locks) :
    wp E (iunlock k) (fun _ s' => s'.Holding sb (locks.erase k) ∧ Taken s s' [] ∧ s.Still s' ∧
      s'.vol sb = s.vol sb ∧ (s'.itable k).Dead = (s.itable k).Dead) s := by
  refine iunlock_spec.mono (fun _ s' hpost => ?_) fun e he => ?_
  · obtain ⟨-, hr, rfl⟩ := hpost
    refine ⟨h.unlockEntry hr, (Taken.refl s).setEntry rfl rfl, .setEntry rfl, rfl, ?_⟩
    rw [Fs.itable_setEntry]
    rfl
  · have hlock := h.lock k
    have hr := (h.held hk).1
    rw [decide_eq_true hk] at hlock
    rcases he.2 with hno | hno
    · rw [hlock] at hno
      cases hno
    · omega

theorem iunlockput_hold (hl : sb.Layout) (h : s.Holding sb locks) (hk : k ∈ locks) :
    wp E (iunlockput sb k) (fun _ s' => Dropped sb s k (locks.erase k) s') s := by
  unfold iunlockput
  rw [wp_bind]
  refine (iunlock_hold h hk).call ?_
  rintro _ s1 ⟨h1, htaken1, hstill1, hvol1, hdead1⟩
  have href1 (j : Fin NINODE) : (s1.itable j).ref = (s.itable j).ref := htaken1.ref j
  refine (iput_hold hl h1 (Finset.notMem_erase k locks) (by rw [href1]; exact (h.held hk).1)).call
    fun _ s' hdrop => ⟨hdrop.hold, fun j => ?_, fun j => ?_, fun hlive => ?_, ?_⟩
  · rw [hdrop.ref j, href1]
  · rw [hdrop.inum j, hstill1.inum]
  · rw [hdrop.vol (hdead1 ▸ hlive), hvol1]
  · have hspends := hdrop.spends
    rw [hstill1.inum] at hspends
    exact hspends.after hstill1.lh

inductive LinkHold (sb : Superblock) (s : Fs) (dp : Fin NINODE) (locks : Finset (Fin NINODE))
    (name : List UInt8) (inum : Nat) : Int → Fs → Prop where
  | used {s' : Fs} (hold : s'.Holding sb locks) (htaken : Taken s s' []) (hvol : s'.vol sb = s.vol sb)
    (hlh : s'.lh = s.lh) : LinkHold sb s dp locks name inum (-1) s'
  | new {s' : Fs}
    (hfind : Slots.find (nameKey name) ((s.vol sb).slots (s.itable dp).inum) = none)
    (hold : s'.Holding sb locks) (honly : Only s s' dp)
    (hset : (s.vol sb).SetDirent sb (s.itable dp).inum
      (Slots.free ((s.vol sb).slots (s.itable dp).inum)) ⟨UInt16.ofNat inum, strncpy DIRSIZ name⟩
      (s'.vol sb))
    (hspends : s.Spends sb s' {(s.itable dp).inum} 2) : LinkHold sb s dp locks name inum 0 s'

theorem dirlink_hold (hl : sb.Layout) {dp : Fin NINODE} (h : s.Holding sb locks) (hdp : dp ∈ locks)
    (hdir : (s.vol sb).Directory (s.itable dp).inum) (name : List UInt8) {inum : Nat}
    (hinum : inum < sb.ninodes) :
    wp (LinkPanic sb s dp name) (dirlink sb dp name inum) (LinkHold sb s dp locks name inum) s := by
  obtain ⟨hr, hv⟩ := h.held hdp
  refine (dirlink_slots hl h.good hr hv hdir name inum).call fun r s' hlink => ?_
  cases hlink with
  | @used t hfind hsame =>
    refine .used ⟨hsame.good h.good, h.dirs, fun j => ?_⟩ ⟨fun j => (hsame j).1, fun j hj => ?_⟩ rfl rfl
    · show (t j).lock = _
      rw [(hsame j).2.1]
      exact h.lock j
    · show (t j).inum = _
      rw [(hsame j).2.2 hj]
  | new hfind hwrite =>
    have hnew : (UInt16.ofNat inum).toNat < sb.ninodes := by
      refine lt_of_le_of_lt ?_ hinum
      rw [UInt16.toNat_ofNat']
      exact Nat.mod_le ..
    exact .new hfind ⟨hwrite.good, hwrite.dirs h.dirs hdir hnew, fun j =>
      (hwrite.only.lock j).trans (h.lock j)⟩ hwrite.only (hwrite.setDirent hdir) hwrite.spends

end Changes

end Xv6
