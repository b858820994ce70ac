import Xv6.Sysfile.Link

/-!
# `create`

`create` finds a name, or makes an inode and an entry for it. What it makes is a new inode without
content, or with the entries `"."` and `".."`, and one entry of the directory.
-/

namespace Xv6

open Prog Vol Function Finset

/-! ### A new inode -/

section New

variable {sb : Superblock} {v v' : Vol} {i j : Nat} {x : Dinode}

theorem Vol.ino_setIno_ne (hj : j ≠ i) : (v.setIno i x).ino j = v.ino j :=
  update_of_ne hj ..

theorem Vol.slots_setIno_ne (hj : j ≠ i) : (v.setIno i x).slots j = v.slots j :=
  Vol.slots_congr (Vol.ino_setIno_ne hj) rfl

theorem Vol.Directory.setIno_ne (h : v.Directory j) (hj : j ≠ i) : (v.setIno i x).Directory j := by
  refine ⟨?_, ?_⟩
  · rw [Vol.ino_setIno_ne hj]
    exact h.type
  · unfold Vol.size
    rw [Vol.ino_setIno_ne hj]
    exact h.whole

/-- A name `name` in directory `d` for the new inode `i`, which is `x`. -/
structure Vol.Made (sb : Superblock) (v : Vol) (d : Nat) (name : List UInt8) (i : Nat) (x : Dinode)
    (v' : Vol) : Prop where
  free : (v.ino i).type = 0
  absent : Slots.get (nameKey name) (v.slots d) = none
  entry : (v.setIno i x).SetDirent sb d (Slots.free (v.slots d))
    ⟨UInt16.ofNat i, strncpy DIRSIZ name⟩ v'

end New

def Dinode.made (type major minor : Int16) : Dinode :=
  { Dinode.zero with type := type, major := major, minor := minor, nlink := 1 }

section Ialloc

variable {sb : Superblock} {s s' : Fs} {k : Fin NINODE} {locks : Finset (Fin NINODE)}

theorem Iget.taken {inum : Nat} (hget : Iget s.itable inum k s'.itable) : Taken s s' [k] := by
  refine ⟨fun j => ?_, fun j hj => (hget.kept hj).1⟩
  rw [(hget.ref j).1, List.count_singleton]
  simp only [beq_iff_eq]

theorem Ialloc.dirs {type : Int16} {i : Nat} (h : Ialloc sb s type k s' i)
    (hdirs : (s.vol sb).Dirs sb) : (s'.vol sb).Dirs sb := by
  rw [h.vol]
  intro j halloc htype e he
  by_cases hj : j = i
  · have hsize : ((s.vol sb).setIno i { Dinode.zero with type := type }).size j = 0 := by
      unfold Vol.size Vol.setIno
      rw [hj]
      simp only [update_self]
      rfl
    rw [hsize, Nat.succ_mul] at he
    have hpos : 0 < DESIZE := by decide
    omega
  · have hino : ((s.vol sb).setIno i { Dinode.zero with type := type }).ino j = (s.vol sb).ino j :=
      Vol.ino_setIno_ne hj
    rw [dirent_congr fun o _ _ => fileByte_of_same hino rfl o]
    unfold Vol.size at he
    rw [hino] at htype he
    refine hdirs j ⟨halloc.1, ?_⟩ htype e he
    rw [← hino]
    exact halloc.2

theorem ialloc_hold (hl : sb.Layout) (h : s.Holding sb locks) (type : Int16) :
    wp (fun e => e = .noInodes ∨ e = .tableFull) (ialloc sb ROOTDEV type)
      (fun k s' => ∃ i, Ialloc sb s type k s' i ∧ s'.Holding sb locks) s := by
  refine (ialloc_spec hl h.good type).call ?_
  rintro k s' ⟨i, hi⟩
  refine ⟨i, hi, hi.good, hi.dirs h.dirs, fun j => ?_⟩
  rw [(hi.get.ref j).2]
  exact h.lock j

end Ialloc

/-! ### `create` of a new name -/

section CreateNew

variable {sb : Superblock} {s s' : Fs} {dp ip : Fin NINODE}

/-- `createDots` has written the first two entries of the new directory. -/
structure Dotted (sb : Superblock) (s : Fs) (dp ip : Fin NINODE) (s' : Fs) : Prop where
  hold : s'.Holding sb {ip, dp}
  taken : Taken s s' []
  inum : ∀ j, (s'.itable j).inum = (s.itable j).inum
  dir : (s.vol sb).Directory (s.itable dp).inum → (s'.vol sb).Directory (s.itable dp).inum
  spends : s.Spends sb s' {(s.itable ip).inum, (s.itable dp).inum} 4

theorem createDots_spec (hl : sb.Layout) (h : s.Holding sb {ip, dp})
    (hdir : (s.vol sb).Directory (s.itable ip).inum) :
    wp (fun _ => True) (createDots sb dp ip) (fun _ s' => Dotted sb s dp ip s') s := by
  have hdp : dp ∈ ({ip, dp} : Finset (Fin NINODE)) := by simp
  have hip : ip ∈ ({ip, dp} : Finset (Fin NINODE)) := by simp
  unfold createDots
  rw [wp_bind]
  refine (addNlink_spec hl h hdp 1).call fun _ s1 hup => ?_
  have hdir1 : (s1.vol sb).Directory (s1.itable ip).inum := by
    rw [hup.only.inums]
    exact ⟨(hup.alike.type _).trans hdir.type, (hup.alike.size _).symm ▸ hdir.whole⟩
  rw [wp_bind, wp_getInode, wp_bind]
  refine (dirlink_hold hl hup.hold hip hdir1 [dot]
    ((hup.hold.good.table.entry ip).inum (hup.hold.held hip).1)).mono (fun r s2 hlink => ?_)
    fun _ _ => trivial
  cases hlink with
  | used => exact trivial
  | new _ h2 honly2 hset2 hspends2 =>
    have hdir2 : (s2.vol sb).Directory (s2.itable ip).inum := by
      rw [honly2.inums]
      exact hset2.directory hdir1
    rw [if_neg (by decide), wp_bind, wp_getInode, wp_bind]
    refine (dirlink_hold hl h2 hip hdir2 [dot, dot]
      ((h2.good.table.entry dp).inum (h2.held hdp).1)).mono (fun r s3 hlink => ?_)
      fun _ _ => trivial
    cases hlink with
    | used => exact trivial
    | new _ h3 honly3 hset3 hspends3 =>
      rw [if_neg (by decide)]
      have hinum (j : Fin NINODE) : (s3.itable j).inum = (s.itable j).inum := by
        rw [honly3.inums, honly2.inums, hup.only.inums]
      refine ⟨h3, (hup.only.taken.trans honly2.taken).trans honly3.taken, hinum, fun hd => ?_, ?_⟩
      · have hd1 : (s1.vol sb).Directory (s.itable dp).inum :=
          ⟨(hup.alike.type _).trans hd.type, (hup.alike.size _).symm ▸ hd.whole⟩
        exact hset3.directory (hset2.directory hd1)
      · rw [hup.only.inums] at hspends2
        rw [honly2.inums, hup.only.inums] at hspends3
        refine ((hup.spends.trans hspends2).trans hspends3).mono ?_ le_rfl
        intro i
        simp only [mem_union, mem_singleton, mem_insert]
        tauto

/-- What `create` of a new name has done since `s₀`, where the reference to the directory `dp` was
taken. -/
structure CreatedNew (sb : Superblock) (s₀ s : Fs) (dp : Fin NINODE) (name : List UInt8)
    (type major minor : Int16) (ip : Fin NINODE) (s' : Fs) : Prop where
  hold : s'.Holding sb {ip}
  taken : Taken s₀ s' [ip]
  spends : s.Spends sb s' {(s'.itable ip).inum, (s.itable dp).inum} 6
  made : type ≠ T_DIR → (s.vol sb).Made sb (s.itable dp).inum name (s'.itable ip).inum
    (Dinode.made type major minor) (s'.vol sb)

theorem createNew_spec (hl : sb.Layout) {s₀ : Fs} (h : s.Holding sb {dp}) (hs : Taken s₀ s [dp])
    (hdir : (s.vol sb).Directory (s.itable dp).inum) (hlive : ¬ (s.itable dp).Dead)
    (name : List UInt8) (type major minor : Int16) :
    wp (fun _ => True) (createNew sb dp name type major minor)
      (CreatedNew sb s₀ s dp name type major minor) s := by
  have hmem : dp ∈ ({dp} : Finset (Fin NINODE)) := mem_singleton_self _
  obtain ⟨hr, hv⟩ := h.held hmem
  unfold createNew
  rw [wp_bind, wp_getInode, (h.good.table.entry dp).dev hr, wp_bind]
  refine (ialloc_hold hl h type).mono (fun ip s1 hpost => ?_) fun _ _ => trivial
  obtain ⟨i, hi, h1⟩ := hpost
  have hself := hi.get.self h.good
  have htaken1 : Taken s s1 [ip] := hi.get.taken
  have hdi : (s.itable dp).inum ≠ i := by
    intro heq
    have htype := hdir.type
    rw [heq, hi.free] at htype
    exact absurd htype (by decide)
  rw [wp_bind]
  refine (ilock_hold h1 hself.1).mono (fun _ s2 hpost => ?_) fun _ _ => trivial
  obtain ⟨h2, hfree, htaken2, hstill2, hvol2⟩ := hpost
  have hip : ip ∈ ({ip, dp} : Finset (Fin NINODE)) := by simp
  have hdp : dp ∈ ({ip, dp} : Finset (Fin NINODE)) := by simp
  have hinit := relabel_spec (f := fun d => { d with major := major, minor := minor, nlink := 1 }) hl h2
    hip (fun _ => rfl) (fun _ => rfl) (fun _ => rfl) (E := fun _ => True)
  rw [wp_bind]
  refine hinit.call fun _ s3 hrel => ?_
  have hinum3 (j : Fin NINODE) : (s3.itable j).inum = (s1.itable j).inum :=
    (hrel.only.inums j).trans (hstill2.inum j)
  have hinumi : (s3.itable ip).inum = i := (hinum3 ip).trans hself.2.1
  have hinumd : (s3.itable dp).inum = (s.itable dp).inum := (hinum3 dp).trans (htaken1.kept dp hr)
  -- the new inode is the only change of the volume so far
  have hvol3 : s3.vol sb = (s.vol sb).setIno i (Dinode.made type major minor) := by
    have hvol := hrel.vol
    rw [hvol2, hstill2.inum, hself.2.1, hi.vol] at hvol
    rw [hvol]
    unfold Vol.setIno Dinode.made
    simp only [update_self, update_idem]
  have hdir3 : (s3.vol sb).Directory (s3.itable dp).inum := by
    rw [hvol3, hinumd]
    exact hdir.setIno_ne hdi
  have hspends3 : s.Spends sb s3 {i} 0 := by
    have hlogs : s.Spends sb s1 {i} 0 := hi.logs.spends fun c hc =>
      .inr ⟨i, mem_singleton_self _, hc⟩
    have hspends := hrel.spends
    rw [hstill2.inum, hself.2.1] at hspends
    exact ((hlogs.still hstill2.lh).trans hspends).mono (by simp) le_rfl
  have htaken3 : Taken s s3 [ip] := (htaken1.trans htaken2).trans hrel.only.taken
  -- what is left, once the directory has its first entries
  have hrest {s4 : Fs} (h4 : s4.Holding sb {ip, dp}) (htaken4 : Taken s3 s4 [])
      (hinum4 : ∀ j, (s4.itable j).inum = (s3.itable j).inum)
      (hdir4 : (s4.vol sb).Directory (s4.itable dp).inum)
      (hspends4 : s3.Spends sb s4 {i, (s.itable dp).inum} 4)
      (hsame : type ≠ T_DIR → s4.vol sb = s3.vol sb) :
      wp (fun _ => True) (do
        let i ← getInode ip
        let r ← dirlink sb dp name i.inum
        if r < 0 then throw .createDirlink else do
          iunlockput sb dp
          return ip) (CreatedNew sb s₀ s dp name type major minor) s4 := by
    rw [wp_bind, wp_getInode, wp_bind, hinum4, hinumi]
    refine (dirlink_hold hl h4 hdp hdir4 name hi.lt).mono (fun r s5 hlink => ?_) fun _ _ => trivial
    cases hlink with
    | used => exact trivial
    | new hfind h5 honly5 hset5 hspends5 =>
      rw [if_neg (by decide), wp_bind]
      refine (iunlockput_hold hl h5 hdp).call fun _ s6 hdrop => ?_
      rw [wp_pure]
      have h6 := hdrop.hold
      have hne : ip ≠ dp := fun heq => hfree (mem_singleton.mpr heq)
      rw [pair_comm, erase_insert (notMem_singleton.mpr hne.symm)] at h6
      have htaken5 : Taken s s5 [ip] := (htaken3.trans htaken4).trans honly5.taken
      have hinum6 (j : Fin NINODE) : (s6.itable j).inum = (s3.itable j).inum := by
        rw [hdrop.inum, honly5.inums, hinum4]
      rw [hinum4, hinumd] at hset5 hfind hspends5
      refine ⟨h6, ?_, ?_, fun htype => ?_⟩
      · have htaken := (hs.trans htaken5).drop (k := dp) (by simp) hdrop.ref hdrop.inum
        rwa [List.singleton_append, List.erase_cons_head] at htaken
      · rw [hinum6, hinumi]
        have hspends6 := hdrop.spends
        rw [honly5.inums, hinum4, hinumd] at hspends6
        refine (((hspends3.trans hspends4).trans hspends5).trans hspends6).mono ?_ le_rfl
        intro c
        simp only [mem_union, mem_singleton, mem_insert]
        tauto
      · -- the directory is not given up: it has links, or somebody else uses it
        have hdead : ¬ (s5.itable dp).Dead := by
          rintro ⟨hone, -, hlink⟩
          refine hlive ⟨?_, hv, ?_⟩
          · have href := htaken5.ref dp
            rw [hone, List.count_singleton, if_neg (by simpa using hne)] at href
            exact href.symm
          · rw [h5.din hdp, honly5.inums, hinum4, hinumd] at hlink
            obtain ⟨a, z, hself5⟩ := hset5.self
            rw [hself5, hsame htype, hvol3, Vol.ino_setIno_ne hdi] at hlink
            rw [h.din hmem]
            exact hlink
        rw [hdrop.vol hdead, hinum6, hinumi]
        rw [hsame htype, hvol3] at hset5 hfind
        rw [Vol.slots_setIno_ne hdi] at hset5 hfind
        exact ⟨hi.free, Option.map_eq_none_iff.mpr hfind, hset5⟩
  dsimp only
  rw [wp_ite]
  refine ⟨fun htype => ?_, fun htype => ?_⟩
  · rw [wp_bind]
    have hdirip : (s3.vol sb).Directory (s3.itable ip).inum := by
      rw [hinumi, hvol3]
      unfold Vol.setIno
      refine ⟨?_, ?_⟩
      · simp only [update_self]
        exact htype
      · simp only [Vol.size, update_self]
        exact Nat.dvd_zero _
    refine (createDots_spec hl hrel.hold hdirip).call fun _ s4 hdots => ?_
    refine hrest hdots.hold hdots.taken hdots.inum ?_ ?_ fun hno => absurd htype hno
    · rw [hdots.inum]
      exact hdots.dir hdir3
    · have hspends := hdots.spends
      rwa [hinumi, hinumd] at hspends
  · exact hrest hrel.hold (.refl s3) (fun _ => rfl) hdir3 (.of_eq rfl) fun _ => rfl

end CreateNew

/-! ### `create` and the calls that use it -/

/-- The directory of the last component of `path`, and that component. -/
def parentOf (sb : Superblock) (s : Fs) (cwd : Fin NINODE) (path : List UInt8) :
    Option (Nat × List UInt8) :=
  (s.vol sb).walk true (walkStart s cwd path) (pathElems path)

/-- What `create` leaves: nothing changed, an inode that was there, locked, or a new one, locked. -/
inductive CreatePost (sb : Superblock) (s₀ : Fs) (cwd : Fin NINODE) (path : List UInt8)
    (type major minor : Int16) : Option (Fin NINODE) → Fs → Prop where
  | none {s : Fs} (hold : s.Holding sb ∅) (near : Near sb s₀ s []) (hlh : s.lh = s₀.lh) :
    CreatePost sb s₀ cwd path type major minor none s
  | old {s : Fs} {ip : Fin NINODE} (hold : s.Holding sb {ip}) (near : Near sb s₀ s [ip])
    (hlh : s.lh = s₀.lh) : CreatePost sb s₀ cwd path type major minor (some ip) s
  | new {s : Fs} {ip : Fin NINODE} {d : Nat} {name : List UInt8}
    (parent : parentOf sb s₀ cwd path = some (d, name)) (hold : s.Holding sb {ip})
    (taken : Taken s₀ s [ip]) (spends : s₀.Spends sb s {(s.itable ip).inum, d} 6)
    (made : type ≠ T_DIR → (s₀.vol sb).Made sb d name (s.itable ip).inum
      (Dinode.made type major minor) (s.vol sb)) :
    CreatePost sb s₀ cwd path type major minor (some ip) s

section Create

variable {sb : Superblock} (hl : sb.Layout) {s₀ : Fs} (h₀ : s₀.Sound sb) {cwd : Fin NINODE}
  (hcwd : 0 < (s₀.itable cwd).ref)

include hl h₀ hcwd

theorem create_spec {path : List UInt8} (hpath : (0 : UInt8) ∉ path) (type major minor : Int16) :
    wp (fun _ => True) (create sb cwd path type major minor)
      (CreatePost sb s₀ cwd path type major minor) s₀ := by
  unfold create
  refine nameiparent_walk hl h₀ hcwd hpath ?_ ?_
  · exact fun s1 h1 hn1 hlh1 => .none h1 hn1 hlh1
  intro s2 dp name h2 hn2 hlh2 hres
  have htype := Vol.walk_type hres
  have hmem : dp ∈ ({dp} : Finset (Fin NINODE)) := mem_singleton_self _
  rw [wp_bind]
  refine (dirlookup_near h₀ h2 hmem hn2 htype name).mono (fun r s3 hlook => ?_) fun _ _ => trivial
  cases hlook with
  | @found ip e inum s3 hfind h3 hn3 hinum3 hkept3 hlh3 =>
    dsimp only
    rw [wp_bind]
    refine (iunlockput_dir hl h₀ h3 hn3).call fun _ s4 hpost => ?_
    obtain ⟨h4, hn4, hstill4⟩ := hpost
    rw [wp_bind]
    refine (ilock_only h4 hn4).call fun _ s5 hpost => ?_
    obtain ⟨h5, hn5, hstill5⟩ := hpost
    have hlh5 : s5.lh = s₀.lh := hstill5.lh.trans (hstill4.lh.trans (hlh3.trans hlh2))
    rw [wp_bind, wp_getInode, wp_ite]
    refine ⟨fun _ => .old h5 hn5 hlh5, fun _ => ?_⟩
    rw [wp_bind]
    exact (iunlockput_only hl h₀ h5 hn5).call fun _ s6 hpost =>
      .none hpost.1 hpost.2.1 (hpost.2.2.lh.trans hlh5)
  | none =>
    dsimp only
    have hdir := h2.directory hmem h₀ hn2.vol htype
    have hlive := hn2.live h₀ h2.good (List.mem_singleton_self _)
    rw [wp_bind]
    refine (createNew_spec hl h2 hn2.toTaken hdir hlive name type major minor).call
      fun ip s3 hnew => ?_
    rw [wp_pure]
    refine .new hres hnew.hold hnew.taken (hnew.spends.after hlh2) fun htype => ?_
    have hmade := hnew.made htype
    rwa [hn2.vol] at hmade

theorem make_spec {path : Option (List UInt8)} (hpath : ∀ p ∈ path, (0 : UInt8) ∉ p)
    (type major minor : Int16) :
    wp (fun _ => True) (make sb cwd path type major minor) (CallPost sb s₀) s₀ := by
  unfold make
  cases path with
  | none => exact .fail h₀.holding (.refl s₀) (.of_eq rfl)
  | some path =>
    dsimp only
    rw [wp_bind]
    refine (create_spec hl h₀ hcwd (hpath path rfl) type major minor).call fun r s1 hpost => ?_
    cases hpost with
    | none hold near hlh => exact .fail hold near (.of_eq hlh)
    | @old _ ip hold near hlh =>
      dsimp only
      rw [wp_bind]
      exact (iunlockput_only hl h₀ hold near).call fun _ s2 hpost =>
        .done hpost.1 (.of_eq (hpost.2.2.lh.trans hlh))
    | @new _ ip d name _ hold taken spends _ =>
      dsimp only
      rw [wp_bind]
      refine (iunlockput_hold hl hold (mem_singleton_self _)).call fun _ s2 hdrop => ?_
      have h2 := hdrop.hold
      rw [erase_singleton] at h2
      refine .done h2 ((Fs.Cost.of_pair (spends.trans hdrop.spends) (i := (s1.itable ip).inum) (j := d)
        ?_).mono (by decide))
      intro i
      simp only [mem_union, mem_singleton, mem_insert]
      tauto

theorem chdir_spec {path : Option (List UInt8)} (hpath : ∀ p ∈ path, (0 : UInt8) ∉ p) :
    wp (fun _ => True) (chdir sb cwd path) (fun r s => s.Holding sb ∅ ∧ s₀.Cost sb s 9 ∧
      (r = none → Near sb s₀ s [])) s₀ := by
  unfold chdir
  cases path with
  | none => exact ⟨h₀.holding, .of_eq rfl, fun _ => .refl s₀⟩
  | some path =>
    refine namei_walk hl h₀ hcwd (hpath path rfl) ?_ ?_
    · exact fun s1 h1 hn1 hlh1 => ⟨h1, .of_eq hlh1, fun _ => hn1⟩
    intro s2 ip h2 hn2 hlh2
    rw [wp_bind, wp_getInode, wp_ite]
    refine ⟨fun _ => ?_, fun _ => ?_⟩
    · rw [wp_bind]
      exact (iunlockput_only hl h₀ h2 hn2).call fun _ s3 hpost =>
        ⟨hpost.1, .of_eq (hpost.2.2.lh.trans hlh2), fun _ => hpost.2.1⟩
    · rw [wp_bind]
      refine (iunlock_near h2 (mem_singleton_self _) hn2).call ?_
      rintro _ s3 ⟨h3, hn3, hstill3⟩
      rw [erase_singleton] at h3
      rw [wp_bind]
      refine (iput_hold hl h3 (notMem_empty _) (hn3.toTaken.le hcwd)).call
        fun _ s4 hdrop => ?_
      rw [wp_pure]
      refine ⟨hdrop.hold, ⟨_, _, hdrop.spends.after (hstill3.lh.trans hlh2), by simp⟩, nofun⟩

end Create

end Xv6
