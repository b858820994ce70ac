import Mathlib.Data.List.TakeWhile
import Xv6.Fs.Dir
import Xv6.Fs.Table

/-!
# Directory entries

What `dirlookup` and `dirlink` do, in terms of the entries a directory has (`Vol.dirent`).
-/

namespace Xv6

open Prog Vol List

/-! ### Names and entries as bytes -/

theorem length_strncpy (n : Nat) (t : List UInt8) : (strncpy n t).length = n := by
  induction n generalizing t with
  | zero => rfl
  | succ n ih =>
    unfold strncpy
    split
    · exact length_replicate
    · exact congrArg Nat.succ (ih t.tail)

theorem takeWhile_head (t : List UInt8) :
    t.headD 0 = 0 ∧ t.takeWhile (· ≠ 0) = [] ∨
      t.headD 0 ≠ 0 ∧ t.takeWhile (· ≠ 0) = t.headD 0 :: t.tail.takeWhile (· ≠ 0) := by
  cases t with
  | nil => exact .inl ⟨rfl, rfl⟩
  | cons a t =>
    by_cases ha : a = 0
    · exact .inl ⟨ha, by simp [ha]⟩
    · exact .inr ⟨ha, by simp [ha]⟩

theorem strncmp_eq_zero {n : Nat} {s t : List UInt8} :
    strncmp n s t = 0 ↔ (s.takeWhile (· ≠ 0)).take n = (t.takeWhile (· ≠ 0)).take n := by
  induction n generalizing s t with
  | zero => simp [strncmp]
  | succ n ih =>
    unfold strncmp
    have hsub (a b : UInt8) : (a.toNat : Int) - b.toNat = 0 ↔ a = b := by
      rw [← UInt8.toNat_inj]
      omega
    rcases takeWhile_head s with ⟨hs, hs'⟩ | ⟨hs, hs'⟩
    · rw [if_neg fun h => h.1 hs, hsub, hs, hs']
      rcases takeWhile_head t with ⟨ht, ht'⟩ | ⟨ht, ht'⟩
      · rw [ht, ht']
        simp
      · rw [ht']
        simpa using ht.symm
    · rw [hs']
      rcases takeWhile_head t with ⟨ht, ht'⟩ | ⟨ht, ht'⟩
      · rw [if_neg fun h => h.1 (h.2.trans ht), hsub, ht, ht']
        simpa using hs
      · rw [ht']
        by_cases heq : s.headD 0 = t.headD 0
        · rw [if_pos ⟨hs, heq⟩, ih, heq, take_succ_cons, take_succ_cons]
          simp
        · rw [if_neg fun h => heq h.2, hsub, take_succ_cons, take_succ_cons]
          exact iff_of_false heq fun h => heq (List.cons.inj h).1

theorem takeWhile_strncpy (n : Nat) (t : List UInt8) :
    (strncpy n t).takeWhile (· ≠ 0) = (t.takeWhile (· ≠ 0)).take n := by
  induction n generalizing t with
  | zero => rfl
  | succ n ih =>
    unfold strncpy
    rcases takeWhile_head t with ⟨ht, ht'⟩ | ⟨ht, ht'⟩
    · rw [if_pos ht, ht']
      simp [replicate_succ]
    · rw [if_neg ht, ht', take_succ_cons, ← ih, takeWhile_cons_of_pos (by simpa using ht)]

/-- Names are compared, and stored, up to `DIRSIZ` bytes. -/
theorem strncmp_strncpy {n : Nat} {s t : List UInt8} (hs : (0 : UInt8) ∉ s) (ht : (0 : UInt8) ∉ t) :
    strncmp n s (strncpy n t) = 0 ↔ s.take n = t.take n := by
  have hall {u : List UInt8} (hu : (0 : UInt8) ∉ u) : u.takeWhile (· ≠ 0) = u :=
    takeWhile_eq_self_iff.mpr fun c hc => decide_eq_true fun h => hu (h ▸ hc)
  rw [strncmp_eq_zero, takeWhile_strncpy, hall hs, hall ht, take_take, min_self]

variable {de : Dirent}

theorem Dirent.length_bytes (h : de.name.length = DIRSIZ) : de.bytes.length = DESIZE := by
  unfold Dirent.bytes
  rw [length_cons, length_cons, h]
  rfl

theorem Dirent.ofBytes_bytes (de : Dirent) : Dirent.ofBytes de.bytes = de := by
  have hlt : de.inum.toNat < 2 ^ 16 := de.inum.toNat_lt
  have hlow : (UInt8.ofNat de.inum.toNat).toNat = de.inum.toNat % 256 := by simp
  have hhigh : (UInt8.ofNat (de.inum.toNat / 256)).toNat = de.inum.toNat / 256 := by
    rw [UInt8.toNat_ofNat_of_lt']
    show _ < 256
    omega
  have hinum : UInt16.ofNat ((UInt8.ofNat de.inum.toNat).toNat
      + 256 * (UInt8.ofNat (de.inum.toNat / 256)).toNat) = de.inum := by
    rw [hlow, hhigh, Nat.mod_add_div, UInt16.ofNat_toNat]
  unfold Dirent.ofBytes Dirent.bytes
  simp only [getD_cons_zero, getD_cons_succ, drop_succ_cons, drop_zero, hinum]

/-- The entry at byte `off` of directory `i`. -/
def Vol.dirent (v : Vol) (i off : Nat) : Dirent :=
  Dirent.ofBytes ((List.range DESIZE).map fun j => v.fileByte i (off + j))

def Vol.Dirs (sb : Superblock) (v : Vol) : Prop :=
  ∀ i, v.Alloc sb i → (v.ino i).type = T_DIR → ∀ e, (e + 1) * DESIZE ≤ v.size i →
    (v.dirent i (e * DESIZE)).inum.toNat < sb.ninodes

theorem dirent_congr {v v' : Vol} {i off : Nat}
    (h : ∀ o, off ≤ o → o < off + DESIZE → v'.fileByte i o = v.fileByte i o) :
    v'.dirent i off = v.dirent i off := by
  unfold Vol.dirent
  congr 1
  refine map_congr_left fun j hj => h _ (Nat.le_add_right ..) ?_
  have := mem_range.mp hj
  omega

theorem fileByte_of_same {v v' : Vol} {j : Nat} (hino : v'.ino j = v.ino j)
    (hdata : v'.data = v.data) (o : Nat) : v'.fileByte j o = v.fileByte j o := by
  unfold Vol.fileByte Vol.blk
  rw [addr_of_same hino hdata, hdata]

/-! ### Reading entries -/

section Read

variable {sb : Superblock} {s : Fs} {dp : Fin NINODE}

theorem readDirent_spec (h : s.Good sb) (hr : 0 < (s.itable dp).ref)
    (hv : (s.itable dp).valid = true) {off : Nat} (hoff : off < 2 ^ 32) (e : FsPanic) :
    wp (fun e' => e' = e ∧ (s.vol sb).size (s.itable dp).inum < off + DESIZE)
      (readDirent sb dp off e) (fun de s' => s' = s ∧
      off + DESIZE ≤ (s.vol sb).size (s.itable dp).inum ∧
      de = (s.vol sb).dirent (s.itable dp).inum off) s := by
  have hspec := readi_spec (h.work hr hv) (by
    rw [h.volAt hr hv]
    exact h.wf.covered _ (h.alloc hr hv)) (fun _ => true) (UInt32.ofNat off) (UInt32.ofNat DESIZE)
  rw [h.volAt hr hv] at hspec
  have hoff' : (UInt32.ofNat off).toNat = off := UInt32.toNat_ofNat_of_lt' hoff
  have hsize' : (UInt32.ofNat DESIZE).toNat = DESIZE := rfl
  rw [hoff', hsize'] at hspec
  unfold readDirent
  rw [wp_bind]
  refine (hspec.mono (fun r s' hpost => ?_) fun _ => False.elim)
  obtain ⟨rfl, m, -, hbytes, -, hres⟩ := hpost
  -- the bytes that are there can all be stored
  obtain ⟨hlen, rfl⟩ : r.1 = _ ∧ m = _ := hres.resolve_right fun ⟨_, _, hdst⟩ => by cases hdst
  rw [wp_ite]
  refine ⟨fun hfull => ?_, fun hpart => ⟨rfl, ?_⟩⟩
  swap
  · by_contra hin
    have hlt : (s'.vol sb).size (s'.itable dp).inum < 2 ^ 32 := UInt32.toNat_lt _
    refine hpart (hlen.trans ?_)
    rw [readLen, if_neg (by omega), min_eq_left (by omega)]
  rw [wp_pure]
  have hread : readLen ((s'.vol sb).size (s'.itable dp).inum) off DESIZE = DESIZE := by
    exact_mod_cast hlen.symm.trans hfull
  refine ⟨rfl, ?_, ?_⟩
  · unfold readLen at hread
    split at hread
    · exact absurd hread (by decide)
    · omega
  · rw [hbytes, hread]
    rfl

def Vol.Matches (v : Vol) (i : Nat) (name : List UInt8) (off : Nat) : Prop :=
  (v.dirent i off).inum ≠ 0 ∧ namecmp name (v.dirent i off).name = 0

/-- The result of a lookup: the inode number and offset of a matching entry, if there is one. -/
def LookupResult (v : Vol) (i : Nat) (name : List UInt8) (offs : List Nat) :
    Option (Nat × Nat) → Prop
  | some (inum, off) => off ∈ offs ∧ off + DESIZE ≤ v.size i ∧ v.Matches i name off ∧
      inum = (v.dirent i off).inum.toNat
  | none => ∀ off ∈ offs, off + DESIZE ≤ v.size i ∧ ¬ v.Matches i name off

theorem dirlookupFrom_spec (h : s.Good sb) (hr : 0 < (s.itable dp).ref)
    (hv : (s.itable dp).valid = true) (name : List UInt8) {offs : List Nat}
    (hoffs : ∀ off ∈ offs, off < 2 ^ 32) :
    wp (fun e => e = .dirlookupRead) (dirlookupFrom sb dp name offs) (fun r s' => s' = s ∧
      LookupResult (s.vol sb) (s.itable dp).inum name offs r) s := by
  induction offs with
  | nil => exact ⟨rfl, fun off hoff => by cases hoff⟩
  | cons off rest ih =>
    -- an entry that does not match
    have hskip : off + DESIZE ≤ (s.vol sb).size (s.itable dp).inum →
        ¬ (s.vol sb).Matches (s.itable dp).inum name off →
        wp (fun e => e = .dirlookupRead) (dirlookupFrom sb dp name rest) (fun r s' => s' = s ∧
          LookupResult (s.vol sb) (s.itable dp).inum name (off :: rest) r) s := by
      intro hin hno
      refine (ih fun o ho => hoffs o (mem_cons_of_mem _ ho)).call ?_
      rintro r s' ⟨hs', hres⟩
      refine ⟨hs', ?_⟩
      cases r with
      | none =>
        intro o ho
        rcases mem_cons.mp ho with rfl | ho
        · exact ⟨hin, hno⟩
        · exact hres o ho
      | some r => exact ⟨mem_cons_of_mem _ hres.1, hres.2⟩
    unfold dirlookupFrom
    rw [wp_bind]
    refine (readDirent_spec h hr hv (hoffs off (mem_cons_self ..)) _).mono
      (fun de s' hpost => ?_) fun _ => And.left
    obtain ⟨rfl, hin, rfl⟩ := hpost
    rw [wp_ite]
    refine ⟨fun hzero => hskip hin fun hm => hm.1 hzero, fun hne => ?_⟩
    rw [wp_ite]
    refine ⟨fun hname => ?_, fun hname => hskip hin fun hm => hname hm.2⟩
    exact ⟨rfl, mem_cons_self .., hin, ⟨hne, hname⟩, rfl⟩

theorem mem_direntOffs {start size off : Nat} (h : off ∈ direntOffs start size) :
    ∃ e, off = start + e * DESIZE ∧ off < size := by
  obtain ⟨e, he, rfl⟩ := mem_map.mp h
  refine ⟨e, rfl, ?_⟩
  have he' := mem_range.mp he
  unfold DESIZE DIRSIZ at he' ⊢
  omega

/-- `dirlookup` finds the entry and takes a reference to its inode. -/
inductive Dirlookup (sb : Superblock) (s : Fs) (dp : Fin NINODE) (name : List UInt8) :
    Option (Fin NINODE × Nat) → Fs → Prop where
  | found {k : Fin NINODE} {e : Nat} {t : Fin NINODE → Inode}
    (hin : (e + 1) * DESIZE ≤ (s.vol sb).size (s.itable dp).inum)
    (hm : (s.vol sb).Matches (s.itable dp).inum name (e * DESIZE))
    (hget : Iget s.itable ((s.vol sb).dirent (s.itable dp).inum (e * DESIZE)).inum.toNat k t) :
    Dirlookup sb s dp name (some (k, e * DESIZE)) { s with itable := t }
  | none (hno : ∀ off ∈ direntOffs 0 ((s.vol sb).size (s.itable dp).inum),
      off + DESIZE ≤ (s.vol sb).size (s.itable dp).inum ∧
        ¬ (s.vol sb).Matches (s.itable dp).inum name off) :
    Dirlookup sb s dp name none s

def lookupPanics : List FsPanic := [.notDir, .dirlookupRead, .tableFull]

theorem Fs.Good.din (h : s.Good sb) (hr : 0 < (s.itable dp).ref) (hv : (s.itable dp).valid = true) :
    (s.itable dp).din = (s.vol sb).ino (s.itable dp).inum :=
  ((h.table.entry dp).copy hr hv).1.symm

theorem dirlookup_spec (h : s.Good sb) (hr : 0 < (s.itable dp).ref)
    (hv : (s.itable dp).valid = true) (name : List UInt8) :
    wp (· ∈ lookupPanics) (dirlookup sb dp name)
      (fun r s' => ((s.vol sb).ino (s.itable dp).inum).type = T_DIR ∧
        Dirlookup sb s dp name r s') s := by
  have hdev := (h.table.entry dp).dev hr
  have hdin := h.din hr hv
  unfold dirlookup
  rw [wp_bind, wp_getInode, wp_ite]
  refine ⟨fun htype => ?_, fun _ => mem_cons_self ..⟩
  rw [hdin] at htype ⊢
  have hoffs : ∀ off ∈ direntOffs 0 ((s.vol sb).ino (s.itable dp).inum).size.toNat,
      off < 2 ^ 32 := by
    intro off hoff
    obtain ⟨_, -, hlt⟩ := mem_direntOffs hoff
    exact hlt.trans (UInt32.toNat_lt _)
  rw [wp_bind]
  refine (dirlookupFrom_spec h hr hv name hoffs).mono (fun r s' hpost => ?_) ?_
  swap
  · rintro e rfl
    exact .tail _ (.head _)
  obtain ⟨rfl, hres⟩ := hpost
  cases r with
  | none => exact ⟨htype, .none hres⟩
  | some r =>
    obtain ⟨inum, off⟩ := r
    obtain ⟨hmem, hin, hm, rfl⟩ := hres
    obtain ⟨e, rfl, -⟩ := mem_direntOffs hmem
    rw [Nat.zero_add] at hin hm ⊢
    dsimp only
    rw [hdev, wp_bind]
    refine (iget_spec h _).mono (fun k s1 hpost => ?_) ?_
    · obtain ⟨t, rfl, hget⟩ := hpost
      refine ⟨htype, .found ?_ hm hget⟩
      rwa [Nat.add_one_mul]
    · rintro e rfl
      exact .tail _ (.tail _ (.head _))

theorem Dirlookup.good {name : List UInt8} {r : Option (Fin NINODE × Nat)} {s' : Fs}
    (hlook : Dirlookup sb s dp name r s') (h : s.Good sb) (hdirs : (s.vol sb).Dirs sb)
    (hr : 0 < (s.itable dp).ref) (hv : (s.itable dp).valid = true)
    (htype : ((s.vol sb).ino (s.itable dp).inum).type = T_DIR) : s'.Good sb := by
  cases hlook with
  | found hin _ hget => exact hget.good h (hdirs _ (h.alloc hr hv) htype _ hin)
  | none => exact h

end Read

/-! ### Writing entries -/

section Write

variable {sb : Superblock} {s s' : Fs} {dp : Fin NINODE}

theorem writeDirent_work (hl : sb.Layout) (h : Work sb s dp)
    (hcov : (s.volAt sb dp).Covered (s.itable dp).inum) {off : Nat} (hoff : off < 2 ^ 32)
    (hde : de.name.length = DIRSIZ) (e : FsPanic) :
    wp (fun e' => e' = .outOfBlocks ∧ (s.volAt sb dp).nfree sb < 2 * spans off DESIZE ∨
        e' = e ∧ ¬ WriteFits ((s.volAt sb dp).size (s.itable dp).inum) off DESIZE)
      (writeDirent sb dp off de e) (fun _ s' =>
        off ≤ (s.volAt sb dp).size (s.itable dp).inum ∧
        Written sb s dp off DESIZE (fun j => de.bytes[j]?) DESIZE s') s := by
  have hoff' : (UInt32.ofNat off).toNat = off := UInt32.toNat_ofNat_of_lt' hoff
  have hsize' : (UInt32.ofNat DESIZE).toNat = DESIZE := rfl
  have hsrc : ∀ j, j < DESIZE → de.bytes[j]? ≠ none := by
    intro j hj
    rw [← Dirent.length_bytes hde] at hj
    rw [List.getElem?_eq_getElem hj]
    exact Option.some_ne_none _
  have hspec := writei_spec hl h hcov (UInt32.ofNat off) (UInt32.ofNat DESIZE) (.inl hsrc)
  rw [hoff', hsize'] at hspec
  unfold writeDirent
  rw [wp_bind]
  refine hspec.mono (fun r s' hpost => ?_) fun e he => .inl he
  rw [wp_ite]
  rcases hpost with ⟨hbad, rfl, -⟩ | ⟨hfits, w, rfl, hw⟩
  · exact ⟨fun hfull => absurd hfull (by decide), fun _ => .inr ⟨rfl, hbad⟩⟩
  · obtain rfl : w = DESIZE := hw.short.resolve_right fun ⟨j, hj, hnone⟩ => hsrc j hj hnone
    exact ⟨fun _ => ⟨hfits.1, hw⟩, fun hne => absurd rfl hne⟩

theorem writeDirent_spec (hl : sb.Layout) (h : s.Good sb) (hr : 0 < (s.itable dp).ref)
    (hv : (s.itable dp).valid = true) {off : Nat} (hoff : off < 2 ^ 32)
    (hde : de.name.length = DIRSIZ) (e : FsPanic) :
    wp (fun e' => e' = .outOfBlocks ∧ (s.vol sb).nfree sb < 2 * spans off DESIZE ∨
        e' = e ∧ ¬ WriteFits ((s.vol sb).size (s.itable dp).inum) off DESIZE)
      (writeDirent sb dp off de e) (fun _ s' =>
        off ≤ (s.vol sb).size (s.itable dp).inum ∧
        Written sb s dp off DESIZE (fun j => de.bytes[j]?) DESIZE s') s := by
  have hspec := writeDirent_work hl (h.work hr hv) (by
    rw [h.volAt hr hv]
    exact h.wf.covered _ (h.alloc hr hv)) hoff hde e
  rwa [h.volAt hr hv] at hspec

structure DirWrite (sb : Superblock) (s : Fs) (dp : Fin NINODE) (e : Nat) (de : Dirent) (s' : Fs) :
    Prop where
  le : e * DESIZE ≤ (s.vol sb).size (s.itable dp).inum
  good : s'.Good sb
  only : Only s s' dp
  ino : ∀ j, j ≠ (s.itable dp).inum → (s'.vol sb).ino j = (s.vol sb).ino j
  self : ∃ a z, (s'.vol sb).ino (s.itable dp).inum
    = { (s.vol sb).ino (s.itable dp).inum with addrs := a, size := z }
  size : (s'.vol sb).size (s.itable dp).inum
    = max ((s.vol sb).size (s.itable dp).inum) ((e + 1) * DESIZE)
  new : (s'.vol sb).dirent (s.itable dp).inum (e * DESIZE) = de
  same : ∀ e', e' ≠ e → (s'.vol sb).dirent (s.itable dp).inum (e' * DESIZE)
    = (s.vol sb).dirent (s.itable dp).inum (e' * DESIZE)
  other : ∀ j, (s.vol sb).Alloc sb j → j ≠ (s.itable dp).inum → ∀ o,
    (s'.vol sb).fileByte j o = (s.vol sb).fileByte j o
  -- The block with the entry, and the indirect block.
  spends : s.Spends sb s' {(s.itable dp).inum} 2
  nfree : (s.vol sb).nfree sb ≤ (s'.vol sb).nfree sb + 2

theorem spans_dirent (e : Nat) : spans (e * DESIZE) DESIZE = 1 := by
  unfold spans BSIZE DESIZE DIRSIZ
  omega

theorem Written.dirWrite (h : s.Good sb) (hr : 0 < (s.itable dp).ref)
    (hv : (s.itable dp).valid = true) {e : Nat} (hde : de.name.length = DIRSIZ)
    (hle : e * DESIZE ≤ (s.vol sb).size (s.itable dp).inum)
    (hw : Written sb s dp (e * DESIZE) DESIZE (fun j => de.bytes[j]?) DESIZE s') :
    DirWrite sb s dp e de s' := by
  have hvol := h.volAt hr hv
  have hdin := h.din hr hv
  refine ⟨hle, hw.good h hr hv, hw.only, fun j hj => by rw [hw.ino j hj, hvol], ?_, ?_, ?_,
    fun e' he => dirent_congr fun o hlo hhi => ?_, fun j hj hne o => ?_, ?_, ?_⟩
  · rw [← hdin]
    exact hw.self
  · rw [hw.size, hvol, Nat.add_one_mul]
  · rw [Vol.dirent]
    have hbytes : (List.range DESIZE).map
        (fun j => (s'.vol sb).fileByte (s.itable dp).inum (e * DESIZE + j)) = de.bytes := by
      apply ext_getElem
      · rw [length_map, length_range, Dirent.length_bytes hde]
      · intro j hj hj'
        have hlt : j < DESIZE := by simpa using hj
        rw [getElem_map, getElem_range, hw.done _ (Nat.le_add_right ..) (by omega),
          Nat.add_sub_cancel_left, List.getElem?_eq_getElem hj']
        rfl
    rw [hbytes, Dirent.ofBytes_bytes]
  · rw [hw.rest o, hvol]
    -- entries do not overlap
    rcases Nat.lt_or_gt_of_ne he with hlt | hgt
    · have := Nat.mul_le_mul_right DESIZE (Nat.succ_le_of_lt hlt)
      rw [Nat.succ_mul] at this
      omega
    · have := Nat.mul_le_mul_right DESIZE (Nat.succ_le_of_lt hgt)
      rw [Nat.succ_mul] at this
      omega
  · have hblk := hw.blk j (o / BSIZE)
    rw [hvol] at hblk
    unfold Vol.fileByte
    rw [hblk hj hne]
  · have hspends := hw.spends
    rwa [spans_dirent] at hspends
  · have hnfree := hw.nfree
    rwa [spans_dirent, hvol] at hnfree

end Write

end Xv6
