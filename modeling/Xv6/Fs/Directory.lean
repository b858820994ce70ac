import Xv6.Lib.Slots
import Xv6.Fs.Entries
import Xv6.Fs.Mkfs

/-!
# Directories as maps

A directory is a finite map from names to inode numbers, kept in slots (`Vol.slots`): a slot holds
an entry when its `inum` is not zero, and names count up to `DIRSIZ` bytes or a NUL (`nameKey`).
`dirlookup`, `dirlink` and the clearing of an entry in `sys_unlink` are the operations of
`Slots` on it.
-/

namespace Xv6

open Prog Vol Function List

/-- What `namecmp` looks at of a name. -/
def nameKey (name : List UInt8) : List UInt8 := (name.takeWhile (· ≠ 0)).take DIRSIZ

theorem namecmp_eq_zero {s t : List UInt8} : namecmp s t = 0 ↔ nameKey s = nameKey t :=
  strncmp_eq_zero

theorem nameKey_strncpy (name : List UInt8) : nameKey (strncpy DIRSIZ name) = nameKey name := by
  rw [nameKey, takeWhile_strncpy, take_take, min_self, nameKey]

/-- What is in a slot: nothing, or a name and its inode number. -/
def Dirent.entry (de : Dirent) : Option (List UInt8 × Nat) :=
  if de.inum = 0 then none else some (nameKey de.name, de.inum.toNat)

def Vol.slots (v : Vol) (i : Nat) : List (Option (List UInt8 × Nat)) :=
  (List.range (v.size i / DESIZE)).map fun e => (v.dirent i (e * DESIZE)).entry

/-- Inode `i` is a directory, and its size a number of entries. -/
structure Vol.Directory (v : Vol) (i : Nat) : Prop where
  type : (v.ino i).type = T_DIR
  whole : DESIZE ∣ v.size i

section Slots

variable {v v' : Vol} {i : Nat}

theorem Vol.length_slots (v : Vol) (i : Nat) : (v.slots i).length = v.size i / DESIZE := by
  rw [Vol.slots, length_map, length_range]

theorem Vol.Directory.size (h : v.Directory i) : (v.slots i).length * DESIZE = v.size i := by
  rw [Vol.length_slots]
  exact Nat.div_mul_cancel h.whole

theorem Vol.getElem?_slots {e : Nat} (he : e < (v.slots i).length) :
    (v.slots i)[e]? = some (v.dirent i (e * DESIZE)).entry := by
  rw [Vol.length_slots] at he
  rw [Vol.slots, List.getElem?_map, List.getElem?_range he, Option.map_some]

theorem Vol.slots_congr (hino : v'.ino i = v.ino i) (hdata : v'.data = v.data) :
    v'.slots i = v.slots i := by
  have hdirent (off : Nat) : v'.dirent i off = v.dirent i off :=
    dirent_congr fun o _ _ => fileByte_of_same hino hdata o
  unfold Vol.slots Vol.size
  simp only [hino, hdirent]

theorem Vol.Directory.offs (h : v.Directory i) :
    direntOffs 0 (v.size i) = (List.range (v.slots i).length).map (· * DESIZE) := by
  have hcount : (v.size i - 0 + DESIZE - 1) / DESIZE = (v.slots i).length := by
    rw [← h.size, Nat.sub_zero]
    unfold DESIZE DIRSIZ
    omega
  unfold direntOffs
  rw [hcount]
  simp only [Nat.zero_add]

theorem Vol.Directory.offs_entries (h : v.Directory i) :
    (direntOffs 0 (v.size i)).map (fun off => (v.dirent i off).entry) = v.slots i := by
  rw [h.offs, map_map, Vol.length_slots]
  rfl

theorem Vol.Directory.offs_getD (h : v.Directory i) {e : Nat} (he : e < (v.slots i).length)
    (last : Nat) : (direntOffs 0 (v.size i)).getD e last = e * DESIZE := by
  rw [h.offs, getD_eq_getElem?_getD, List.getElem?_map, List.getElem?_range he]
  rfl

theorem Vol.Directory.mem_offs (h : v.Directory i) {off : Nat} (hoff : off ∈ direntOffs 0 (v.size i)) :
    off + DESIZE ≤ v.size i := by
  rw [h.offs] at hoff
  obtain ⟨e, he, rfl⟩ := mem_map.mp hoff
  have he' := mem_range.mp he
  rw [← h.size, ← Nat.succ_mul]
  exact Nat.mul_le_mul_right _ he'

end Slots

/-! ### Looking a name up -/

section Read

variable {sb : Superblock} {s : Fs} {dp : Fin NINODE}

section Loops

variable (h : s.Good sb) (hr : 0 < (s.itable dp).ref) (hv : (s.itable dp).valid = true)
  {offs : List Nat} (hoffs : ∀ off ∈ offs, off + DESIZE ≤ (s.vol sb).size (s.itable dp).inum)

include h hr hv hoffs

variable {E : FsPanic → Prop}

theorem readDirent_in {off : Nat} (hoff : off ∈ offs) (e : FsPanic) :
    wp E (readDirent sb dp off e) (fun de s' => s' = s ∧
      de = (s.vol sb).dirent (s.itable dp).inum off) s := by
  have hin := hoffs off hoff
  have hlt : (s.vol sb).size (s.itable dp).inum < 2 ^ 32 := UInt32.toNat_lt _
  have hpos : 0 < DESIZE := by decide
  refine (readDirent_spec h hr hv (by omega) e).mono (fun de s' hpost => ⟨hpost.1, hpost.2.2⟩) ?_
  rintro e' ⟨-, hout⟩
  omega

theorem dirlookupFrom_find (name : List UInt8) :
    wp E (dirlookupFrom sb dp name offs) (fun r s' => s' = s ∧
      r = (Slots.find (nameKey name) (offs.map fun off =>
          ((s.vol sb).dirent (s.itable dp).inum off).entry)).map
        fun x => (x.2, offs.getD x.1 0)) s := by
  induction offs with
  | nil => exact ⟨rfl, rfl⟩
  | cons off rest ih =>
    unfold dirlookupFrom
    rw [wp_bind]
    refine (readDirent_in h hr hv hoffs (mem_cons_self ..) _).call fun de s' hpost => ?_
    obtain ⟨rfl, rfl⟩ := hpost
    set de := (s'.vol sb).dirent (s'.itable dp).inum off with hde
    -- an entry that does not match
    have hskip (hno : ∀ inum, de.entry ≠ some (nameKey name, inum)) :
        wp E (dirlookupFrom sb dp name rest) (fun r s1 => s1 = s' ∧
          r = (Slots.find (nameKey name) ((off :: rest).map fun off =>
              ((s'.vol sb).dirent (s'.itable dp).inum off).entry)).map
            fun x => (x.2, (off :: rest).getD x.1 0)) s' := by
      refine (ih fun o ho => hoffs o (mem_cons_of_mem _ ho)).call fun r s1 hpost => ?_
      refine ⟨hpost.1, hpost.2.trans ?_⟩
      rw [map_cons, ← hde, Slots.find_cons_of_ne hno, Option.map_map]
      rfl
    have hentry : de.entry = if de.inum = 0 then none else some (nameKey de.name, de.inum.toNat) := rfl
    rw [wp_ite]
    refine ⟨fun hzero => hskip fun inum => ?_, fun hne => ?_⟩
    · rw [hentry, if_pos hzero]
      exact (Option.some_ne_none _).symm
    rw [if_neg hne] at hentry
    rw [wp_ite, namecmp_eq_zero]
    refine ⟨fun hname => ?_, fun hname => hskip fun inum heq => ?_⟩
    · rw [wp_pure]
      refine ⟨rfl, ?_⟩
      rw [map_cons, ← hde, hentry, hname, Slots.find_cons_self]
      rfl
    · rw [hentry] at heq
      exact hname (Prod.mk.inj (Option.some.inj heq)).1.symm

theorem emptyFrom_free (last : Nat) :
    wp E (emptyFrom sb dp last offs) (fun off s' => s' = s ∧
      off = offs.getD (Slots.free (offs.map fun off =>
        ((s.vol sb).dirent (s.itable dp).inum off).entry)) last) s := by
  induction offs with
  | nil => exact ⟨rfl, rfl⟩
  | cons off rest ih =>
    unfold emptyFrom
    rw [wp_bind]
    refine (readDirent_in h hr hv hoffs (mem_cons_self ..) _).call fun de s' hpost => ?_
    obtain ⟨rfl, rfl⟩ := hpost
    set de := (s'.vol sb).dirent (s'.itable dp).inum off with hde
    have hentry : de.entry = if de.inum = 0 then none else some (nameKey de.name, de.inum.toNat) := rfl
    rw [wp_ite]
    refine ⟨fun hzero => ?_, fun hne => ?_⟩
    · rw [wp_pure, map_cons, ← hde, hentry, if_pos hzero]
      exact ⟨rfl, rfl⟩
    · refine (ih fun o ho => hoffs o (mem_cons_of_mem _ ho)).call fun r s1 hpost => ?_
      rw [map_cons, ← hde, hentry, if_neg hne, Slots.free_cons_some]
      exact hpost

end Loops

/-- `dirlookup` finds the slot of the name and takes a reference to the inode in it. -/
inductive Lookup (sb : Superblock) (s : Fs) (dp : Fin NINODE) (name : List UInt8) :
    Option (Fin NINODE × Nat) → Fs → Prop where
  | found {e inum : Nat} {k : Fin NINODE} {t : Fin NINODE → Inode}
    (hfind : Slots.find (nameKey name) ((s.vol sb).slots (s.itable dp).inum) = some (e, inum))
    (hget : Iget s.itable inum k t) :
    Lookup sb s dp name (some (k, e * DESIZE)) { s with itable := t }
  | none (hfind : Slots.find (nameKey name) ((s.vol sb).slots (s.itable dp).inum) = none) :
    Lookup sb s dp name none s

theorem dirlookup_find (h : s.Good sb) (hr : 0 < (s.itable dp).ref)
    (hv : (s.itable dp).valid = true) (hdir : (s.vol sb).Directory (s.itable dp).inum)
    (name : List UInt8) :
    wp (fun e => e = .tableFull ∧ ∀ j, (s.itable j).ref ≠ 0) (dirlookup sb dp name)
      (Lookup sb s dp name) s := by
  have hdin := h.din hr hv
  have hsize : (s.itable dp).din.size.toNat = (s.vol sb).size (s.itable dp).inum := by
    rw [hdin]
    rfl
  unfold dirlookup
  rw [wp_bind, wp_getInode, if_pos (hdin ▸ hdir.type), hsize, wp_bind]
  refine (dirlookupFrom_find h hr hv (fun off => hdir.mem_offs) name).call ?_
  rintro r s' ⟨rfl, rfl⟩
  rw [hdir.offs_entries]
  cases hfind : Slots.find (nameKey name) ((s'.vol sb).slots (s'.itable dp).inum) with
  | none => exact .none hfind
  | some x =>
    obtain ⟨e, inum⟩ := x
    rw [Option.map_some, hdir.offs_getD (Slots.find_lt hfind)]
    dsimp only
    rw [(h.table.entry dp).dev hr, wp_bind]
    refine (iget_entries (fun j hj => (h.table.entry j).dev hj) inum).call ?_
    rintro k s1 ⟨t, rfl, hget⟩
    exact .found hfind hget

end Read

/-! ### A reference taken and dropped -/

def SameInUse (t t' : Fin NINODE → Inode) : Prop :=
  ∀ j, (t' j).ref = (t j).ref ∧ (t' j).lock = (t j).lock ∧ (0 < (t j).ref → t' j = t j)

section Drop

variable {sb : Superblock} {s s' : Fs} {k dp : Fin NINODE}

variable {t : Fin NINODE → Inode}

theorem SameInUse.good (hsame : SameInUse s.itable t) (h : s.Good sb) :
    Fs.Good sb { s with itable := t } := by
  refine ⟨h.wf, h.tidy, fun j => ?_, fun i j hi hj heq => ?_⟩
  · obtain ⟨href, hlock, hin⟩ := hsame j
    have hentry := h.table.entry j
    by_cases hr : 0 < (s.itable j).ref
    · show InodeOk sb _ (t j)
      rw [hin hr]
      exact hentry
    · show InodeOk sb _ (t j)
      have hno : ¬ 0 < (t j).ref := by rwa [href]
      exact ⟨fun h => absurd h hno, fun h => absurd h hno, fun h => absurd h hno, fun h =>
        absurd (hentry.held (hlock ▸ h)).1 hr⟩
  · change 0 < (t i).ref at hi
    change 0 < (t j).ref at hj
    change (t i).inum = (t j).inum at heq
    rw [(hsame i).1] at hi
    rw [(hsame j).1] at hj
    rw [(hsame i).2.2 hi, (hsame j).2.2 hj] at heq
    exact h.table.uniq i j hi hj heq

/-- The table once the reference to entry `k` is dropped. -/
def dropRef (t : Fin NINODE → Inode) (k : Fin NINODE) : Fin NINODE → Inode :=
  update t k { t k with ref := (t k).ref - 1 }

theorem iput_live (hlive : ¬ (s.itable k).Dead) {E : FsPanic → Prop} :
    wp E (iput sb k) (fun _ s' => s' = { s with itable := dropRef s.itable k }) s := by
  unfold iput
  rw [wp_bind, wp_getInode]
  dsimp only
  rw [wp_ite]
  exact ⟨fun hdead => absurd hdead hlive, fun _ => rfl⟩

variable {t' : Fin NINODE → Inode}

theorem Iget.live {inum : Nat} (hget : Iget t inum k t') {ip : Inode} (href : ip.ref = (t' k).ref)
    (hvalid : ip.valid = (t' k).valid) : ¬ ip.Dead := by
  rintro ⟨hone, htrue, -⟩
  cases hget with
  | found hr =>
    rw [href, update_self] at hone
    change (t k).ref + 1 = 1 at hone
    omega
  | new =>
    rw [hvalid, update_self] at htrue
    cases htrue

theorem Iget.kept {inum : Nat} (hget : Iget t inum k t') {j : Fin NINODE} (hr : 0 < (t j).ref) :
    (t' j).inum = (t j).inum ∧ (t' j).din = (t j).din ∧ (t' j).valid = (t j).valid := by
  rw [hget.keep hr]
  split
  · exact ⟨rfl, rfl, rfl⟩
  · exact ⟨rfl, rfl, rfl⟩

theorem Iget.dropped {inum : Nat} (hget : Iget t inum k t') : SameInUse t (dropRef t' k) := by
  intro j
  unfold dropRef
  by_cases hj : j = k
  · subst hj
    rw [update_self]
    cases hget with
    | found hr =>
      rw [update_self]
      exact ⟨rfl, rfl, fun _ => rfl⟩
    | new hr =>
      rw [update_self]
      exact ⟨hr.symm, rfl, fun hpos => absurd hr hpos.ne'⟩
  · rw [update_of_ne hj]
    cases hget with
    | found | new =>
      rw [update_of_ne hj]
      exact ⟨rfl, rfl, fun _ => rfl⟩

theorem volAt_retable (ht : (t dp).inum = (s.itable dp).inum ∧ (t dp).din = (s.itable dp).din) :
    Fs.volAt sb { s with itable := t } dp = s.volAt sb dp := by
  show (s.vol sb).setIno (t dp).inum (t dp).din = _
  rw [ht.1, ht.2]
  rfl

theorem Work.retable (h : Work sb s dp)
    (ht : (t dp).inum = (s.itable dp).inum ∧ (t dp).din = (s.itable dp).din) :
    Work sb { s with itable := t } dp where
  inum := ht.1 ▸ h.inum
  type := ht.2 ▸ h.type
  blocks := (volAt_retable ht).symm ▸ h.blocks
  tidy := (volAt_retable ht).symm ▸ h.tidy

/-- What `writei` has done does not depend on the other entries of the table. -/
theorem Written.retable {off n w : Nat} {src : Nat → Option UInt8}
    (hw : Written sb s dp off n src w s')
    (ht : (t dp).inum = (s.itable dp).inum ∧ (t dp).din = (s.itable dp).din)
    (ht' : (t' dp).inum = (s'.itable dp).inum ∧ (t' dp).din = (s'.itable dp).din)
    (honly : Only { s with itable := t } { s' with itable := t' } dp) :
    Written sb { s with itable := t } dp off n src w { s' with itable := t' } := by
  have hvol : Fs.volAt sb { s with itable := t } dp = s.volAt sb dp := volAt_retable ht
  have hvol' : Fs.volAt sb { s' with itable := t' } dp = s'.volAt sb dp := volAt_retable ht'
  have hinum : (Fs.itable { s with itable := t } dp).inum = (s.itable dp).inum := ht.1
  have hdin : (Fs.itable { s with itable := t } dp).din = (s.itable dp).din := ht.2
  exact {
    synced := by
      rw [hvol']
      exact hw.synced
    only := honly
    blocks := hw.blocks
    tidy := hw.tidy
    ino := by
      rw [hvol, hinum]
      exact hw.ino
    self := by
      rw [hinum, hdin]
      exact hw.self
    size := by
      rw [hvol, hinum]
      exact hw.size
    addr := by
      rw [hvol, hinum]
      exact hw.addr
    blk := by
      rw [hvol, hinum]
      exact hw.blk
    done := by
      rw [hinum]
      exact hw.done
    rest := by
      rw [hvol, hinum]
      exact hw.rest
    covered := by
      rw [hinum]
      exact hw.covered
    nfree := by
      rw [hvol]
      exact hw.nfree
    le := hw.le
    short := hw.short
    logs := by
      rw [hinum]
      exact hw.logs }

end Drop

/-! ### Entries written -/

section Write

variable {sb : Superblock} {s s' : Fs} {dp : Fin NINODE} {e : Nat} {de : Dirent}

theorem DirWrite.directory (hw : DirWrite sb s dp e de s')
    (hdir : (s.vol sb).Directory (s.itable dp).inum) :
    (s'.vol sb).Directory (s.itable dp).inum where
  type := by
    obtain ⟨a, z, hself⟩ := hw.self
    rw [hself]
    exact hdir.type
  whole := by
    rw [hw.size]
    rcases max_choice ((s.vol sb).size (s.itable dp).inum) ((e + 1) * DESIZE) with h | h
    · rw [h]
      exact hdir.whole
    · rw [h]
      exact Nat.dvd_mul_left ..

/-- The slot is the only one that changes; it may be the one after the last. -/
theorem DirWrite.slots (hw : DirWrite sb s dp e de s')
    (hdir : (s.vol sb).Directory (s.itable dp).inum) :
    (s'.vol sb).slots (s.itable dp).inum
      = if e < ((s.vol sb).slots (s.itable dp).inum).length then
          ((s.vol sb).slots (s.itable dp).inum).set e de.entry
        else (s.vol sb).slots (s.itable dp).inum ++ [de.entry] := by
  set l := (s.vol sb).slots (s.itable dp).inum with hl
  have hsize := hw.size
  rw [← (hw.directory hdir).size, ← hdir.size, ← hl, Nat.mul_max_mul_right] at hsize
  have hlen : ((s'.vol sb).slots (s.itable dp).inum).length = max l.length (e + 1) :=
    Nat.eq_of_mul_eq_mul_right (by decide) hsize
  have hle : e ≤ l.length := by
    have := hw.le
    rw [← hdir.size] at this
    exact Nat.le_of_mul_le_mul_right this (by decide)
  have hslot (j : Nat) (hj : j < max l.length (e + 1)) (hne : j ≠ e) :
      ((s'.vol sb).slots (s.itable dp).inum)[j]? = l[j]? := by
    rw [Vol.getElem?_slots (hlen ▸ hj), hw.same j hne, hl, Vol.getElem?_slots]
    rcases lt_max_iff.mp hj with hlt | hlt
    · exact hlt
    · exact (Nat.lt_of_le_of_ne (Nat.le_of_lt_succ hlt) hne).trans_le hle
  have hself : ((s'.vol sb).slots (s.itable dp).inum)[e]? = some de.entry := by
    rw [Vol.getElem?_slots (by rw [hlen]; omega), hw.new]
  refine ext_getElem? fun j => ?_
  by_cases hj : j < max l.length (e + 1)
  swap
  · rw [List.getElem?_eq_none (by omega), List.getElem?_eq_none]
    split
    · rw [length_set]
      omega
    · rw [length_append, length_singleton]
      omega
  by_cases hne : j = e
  · rw [hne, hself]
    split
    · rename_i hlt
      rw [List.getElem?_set_self hlt]
    · rename_i hge
      rw [show e = l.length by omega, List.getElem?_concat_length]
  · rw [hslot j hj hne]
    split
    · rw [List.getElem?_set_ne (Ne.symm hne)]
    · rw [List.getElem?_append_left (by omega)]

/-- `dirlink` finds the name in use, or writes an entry into the first empty slot. -/
inductive Link (sb : Superblock) (s : Fs) (dp : Fin NINODE) (name : List UInt8) (inum : Nat) :
    Int → Fs → Prop where
  | used {t : Fin NINODE → Inode}
    (hfind : Slots.find (nameKey name) ((s.vol sb).slots (s.itable dp).inum) ≠ none)
    (hsame : SameInUse s.itable t) : Link sb s dp name inum (-1) { s with itable := t }
  | new {s' : Fs}
    (hfind : Slots.find (nameKey name) ((s.vol sb).slots (s.itable dp).inum) = none)
    (hwrite : DirWrite sb s dp (Slots.free ((s.vol sb).slots (s.itable dp).inum))
      ⟨UInt16.ofNat inum, strncpy DIRSIZ name⟩ s') : Link sb s dp name inum 0 s'

/-- The panics of `dirlink`: no entry of the table is left for the inode of an entry with the name,
no block for a new entry, or no place for it in the largest file. -/
inductive LinkPanic (sb : Superblock) (s : Fs) (dp : Fin NINODE) (name : List UInt8) :
    FsPanic → Prop where
  | tableFull (hfull : ∀ j, (s.itable j).ref ≠ 0) : LinkPanic sb s dp name .tableFull
  | outOfBlocks (hfew : (s.vol sb).nfree sb < 2) : LinkPanic sb s dp name .outOfBlocks
  | dirlink (hfind : Slots.find (nameKey name) ((s.vol sb).slots (s.itable dp).inum) = none)
    (hbig : MAXFILE * BSIZE
      < (Slots.free ((s.vol sb).slots (s.itable dp).inum) + 1) * DESIZE) :
    LinkPanic sb s dp name .dirlink

theorem dirlink_slots (hl : sb.Layout) (h : s.Good sb) (hr : 0 < (s.itable dp).ref)
    (hv : (s.itable dp).valid = true) (hdir : (s.vol sb).Directory (s.itable dp).inum)
    (name : List UInt8) (inum : Nat) :
    wp (LinkPanic sb s dp name) (dirlink sb dp name inum) (Link sb s dp name inum) s := by
  unfold dirlink
  rw [wp_bind]
  refine (dirlookup_find h hr hv hdir name).mono (fun r s1 hlook => ?_) ?_
  swap
  · rintro e ⟨rfl, hfull⟩
    exact .tableFull hfull
  cases hlook with
  | found hfind hget =>
    dsimp only
    rw [wp_bind]
    refine (iput_live (hget.live rfl rfl)).call fun _ s2 hput => ?_
    subst hput
    rw [wp_pure]
    exact .used (by rw [hfind]; exact Option.some_ne_none _) hget.dropped
  | none hfind =>
    have hsize : (s.itable dp).din.size.toNat = (s.vol sb).size (s.itable dp).inum := by
      rw [h.din hr hv]
      rfl
    have hlast : (direntOffs 0 ((s.vol sb).size (s.itable dp).inum)).length
        = ((s.vol sb).slots (s.itable dp).inum).length := by
      rw [hdir.offs, length_map, length_range]
    dsimp only
    rw [wp_bind, wp_getInode, hsize, wp_bind, hlast]
    refine (emptyFrom_free h hr hv (fun off => hdir.mem_offs) _).call fun off s2 hpost => ?_
    obtain ⟨rfl, rfl⟩ := hpost
    rw [hdir.offs_entries]
    set l := (s2.vol sb).slots (s2.itable dp).inum with hl'
    have hfree : Slots.free l ≤ l.length := Slots.free_le
    have hoff : (direntOffs 0 ((s2.vol sb).size (s2.itable dp).inum)).getD (Slots.free l)
        (l.length * DESIZE) = Slots.free l * DESIZE := by
      rcases hfree.lt_or_eq with hlt | heq
      · exact hdir.offs_getD hlt _
      · rw [getD_eq_getElem?_getD, List.getElem?_eq_none (by rw [hlast, heq]), heq]
        rfl
    have hle : Slots.free l * DESIZE ≤ (s2.vol sb).size (s2.itable dp).inum := by
      rw [← hdir.size]
      exact Nat.mul_le_mul_right _ hfree
    have hname : (Dirent.mk (UInt16.ofNat inum) (strncpy DIRSIZ name)).name.length = DIRSIZ :=
      length_strncpy ..
    rw [hoff, wp_bind]
    refine (writeDirent_spec hl h hr hv (hle.trans_lt (UInt32.toNat_lt _)) hname _).mono
      (fun _ s' hpost => ?_) ?_
    · rw [wp_pure]
      exact .new hfind (hpost.2.dirWrite h hr hv hname hle)
    · rintro e (⟨rfl, hfew⟩ | ⟨rfl, hbad⟩)
      · rw [spans_dirent] at hfew
        exact .outOfBlocks hfew
      · refine .dirlink hfind (Nat.not_le.mp fun hfits => hbad ?_)
        rw [← hl', Nat.succ_mul] at hfits
        exact writeFits_of_le hle hfits

end Write

/-! ## Sequences of operations -/

inductive DirOp where
  -- `dirlink(dp, name, inum)`
  | link (name : List UInt8) (inum : Nat)
  -- `dirlookup(dp, name, &off)`
  | lookup (name : List UInt8)
  -- The entry found by `dirlookup(dp, name, &off)` is cleared.
  | clear (name : List UInt8)

inductive DirRes where
  | ret (r : Int)
  -- The number of the inode found and `off`.
  | entry (x : Option (Nat × Nat))
  deriving DecidableEq

section Ops

variable (sb : Superblock)

/-- `dirlookup`, and the reference dropped. -/
def lookupEntry (dp : Fin NINODE) (name : List UInt8) : FsM (Option (Nat × Nat)) := do
  match ← dirlookup sb dp name with
  | none => return none
  | some (ip, off) =>
    let d ← getInode ip
    iput sb ip
    return some (d.inum, off)

/-- What `sys_unlink` does to the directory: the entry is overwritten while there is a reference to
its inode. -/
def clearEntry (dp : Fin NINODE) (name : List UInt8) : FsM Int := do
  match ← dirlookup sb dp name with
  | none => return -1
  | some (ip, off) =>
    writeDirent sb dp off Dirent.zero .unlinkWritei
    iput sb ip
    return 0

def DirOp.run (dp : Fin NINODE) : DirOp → FsM DirRes
  | .link name inum => do return .ret (← dirlink sb dp name inum)
  | .lookup name => do return .entry (← lookupEntry sb dp name)
  | .clear name => do return .ret (← clearEntry sb dp name)

def dirOps (dp : Fin NINODE) : List DirOp → FsM (List DirRes)
  | [] => return []
  | op :: ops => do
    let r ← op.run sb dp
    let rs ← dirOps dp ops
    return r :: rs

end Ops

def DirOp.InRange : DirOp → Prop
  | .link _ inum => 0 < inum ∧ inum < 2 ^ 16
  | _ => True

/-- How many blocks the operation may have to allocate: one for the entry, and the indirect block. -/
def DirOp.needs : DirOp → Nat
  | .lookup _ => 0
  | .link _ _ | .clear _ => 2

def DirOp.slots (l : List (Option (List UInt8 × Nat))) : DirOp → List (Option (List UInt8 × Nat))
  | .link name inum => if Slots.find (nameKey name) l = none then Slots.add (nameKey name) inum l else l
  | .lookup _ => l
  | .clear name =>
    match Slots.find (nameKey name) l with
    | some (e, _) => l.set e none
    | none => l

def DirOp.Fits : List (Option (List UInt8 × Nat)) → List DirOp → Prop
  | _, [] => True
  | l, op :: ops => (op.slots l).length * DESIZE ≤ MAXFILE * BSIZE ∧ Fits (op.slots l) ops

/-- What the operation does to the map that directory `i` is. -/
def DirOp.Does (v : Vol) (i : Nat) : DirOp → DirRes → Vol → Prop
  -- the inode number and the offset of the slot
  | .lookup name, r, v' => v' = v ∧
      r = .entry ((Slots.find (nameKey name) (v.slots i)).map fun x => (x.2, x.1 * DESIZE))
  -- nothing when the name is there, or exactly one pair more, in the first empty slot or a new one
  | .link name inum, r, v' =>
      Slots.get (nameKey name) (v.slots i) ≠ none ∧ r = .ret (-1) ∧ v' = v ∨
      Slots.get (nameKey name) (v.slots i) = none ∧ r = .ret 0 ∧
        v'.slots i = Slots.add (nameKey name) inum (v.slots i) ∧
        ∀ key, Slots.get key (v'.slots i)
          = if key = nameKey name then some inum else Slots.get key (v.slots i)
  -- exactly the name is gone
  | .clear name, r, v' =>
      Slots.get (nameKey name) (v.slots i) = none ∧ r = .ret (-1) ∧ v' = v ∨
      ∃ e inum, Slots.find (nameKey name) (v.slots i) = some (e, inum) ∧ r = .ret 0 ∧
        v'.slots i = (v.slots i).set e none ∧
        ∀ key, Slots.get key (v'.slots i)
          = if key = nameKey name then none else Slots.get key (v.slots i)

/-- The operations on the map, one after the other; names are unique all along. -/
inductive DirRun (i : Nat) : Vol → List DirOp → List DirRes → Vol → Prop where
  | nil {v : Vol} (huniq : Slots.Unique (v.slots i)) : DirRun i v [] [] v
  | cons {v v₁ v' : Vol} {op : DirOp} {r : DirRes} {ops : List DirOp} {rs : List DirRes}
    (huniq : Slots.Unique (v.slots i)) (hdoes : op.Does v i r v₁) (hrest : DirRun i v₁ ops rs v') :
    DirRun i v (op :: ops) (r :: rs) v'

/-- Entry `dp` holds directory `i`, in which no name is twice. -/
structure DirHeld (sb : Superblock) (s : Fs) (dp : Fin NINODE) (i : Nat) : Prop where
  good : s.Good sb
  ref : 0 < (s.itable dp).ref
  valid : (s.itable dp).valid = true
  inum : (s.itable dp).inum = i
  dir : (s.vol sb).Directory i
  unique : Slots.Unique ((s.vol sb).slots i)

section Run

variable {sb : Superblock} {s : Fs} {dp : Fin NINODE} {i : Nat}

theorem DirHeld.same (h : DirHeld sb s dp i) {t : Fin NINODE → Inode}
    (hsame : SameInUse s.itable t) : DirHeld sb { s with itable := t } dp i := by
  obtain ⟨href, -, hin⟩ := hsame dp
  have hdp := hin h.ref
  refine ⟨hsame.good h.good, ?_, ?_, ?_, h.dir, h.unique⟩
  · show 0 < (t dp).ref
    rw [href]
    exact h.ref
  · show (t dp).valid = true
    rw [hdp]
    exact h.valid
  · show (t dp).inum = i
    rw [hdp]
    exact h.inum

theorem DirHeld.write (h : DirHeld sb s dp i) {e : Nat} {de : Dirent} {s' : Fs}
    (hw : DirWrite sb s dp e de s') (hunique : Slots.Unique ((s'.vol sb).slots i)) :
    DirHeld sb s' dp i := by
  have hdp := hw.only.self
  refine ⟨hw.good, ?_, ?_, ?_, h.inum ▸ hw.directory (h.inum.symm ▸ h.dir), hunique⟩
  · rw [hdp]
    exact h.ref
  · rw [hdp]
    exact h.valid
  · rw [hdp]
    exact h.inum

/-- The panics of the operations on directories that stay small enough, if they need `n` blocks at
most: these are not free, or every entry of the inode table is in use. -/
def DirPanic (sb : Superblock) (s : Fs) (n : Nat) (e : FsPanic) : Prop :=
  e = .outOfBlocks ∧ (s.vol sb).nfree sb < n ∨ e = .tableFull ∧ ∀ j, (s.itable j).ref ≠ 0

/-- What an operation has done: to the directory what `DirOp.Does` says, with the blocks it may
need, and nothing to the references. -/
structure DirOp.Post (sb : Superblock) (dp : Fin NINODE) (i : Nat) (s : Fs) (op : DirOp) (r : DirRes)
    (s' : Fs) : Prop where
  held : DirHeld sb s' dp i
  refs : ∀ j, (s'.itable j).ref = (s.itable j).ref
  nfree : (s.vol sb).nfree sb ≤ (s'.vol sb).nfree sb + op.needs
  does : op.Does (s.vol sb) i r (s'.vol sb)

theorem DirWrite.refs {e : Nat} {de : Dirent} {s' : Fs} (hw : DirWrite sb s dp e de s')
    (j : Fin NINODE) : (s'.itable j).ref = (s.itable j).ref := by
  obtain ⟨d, hd⟩ := hw.only
  rw [hd]
  by_cases hj : j = dp
  · rw [hj, update_self]
  · rw [update_of_ne hj]

theorem dirlink_does (hl : sb.Layout) (h : DirHeld sb s dp i) {name : List UInt8} {inum : Nat}
    (hinum : DirOp.InRange (.link name inum))
    (hfits : ((DirOp.link name inum).slots ((s.vol sb).slots i)).length * DESIZE ≤ MAXFILE * BSIZE) :
    wp (DirPanic sb s 2) (dirlink sb dp name inum)
      (fun r => (DirOp.link name inum).Post sb dp i s (.ret r)) s := by
  have hdir := h.dir
  have hunique := h.unique
  have hi := h.inum
  subst hi
  set l := (s.vol sb).slots (s.itable dp).inum with hl'
  refine (dirlink_slots hl h.good h.ref h.valid hdir name inum).mono (fun r s' hlink => ?_)
    fun e he => ?_
  · cases hlink with
    | used hfind hsame =>
      refine ⟨h.same hsame, fun j => (hsame j).1, Nat.le_add_right .., .inl ⟨?_, rfl, rfl⟩⟩
      exact fun hnone => hfind (Option.map_eq_none_iff.mp hnone)
    | new hfind hwrite =>
      have hentry : (Dirent.mk (UInt16.ofNat inum) (strncpy DIRSIZ name)).entry
          = some (nameKey name, inum) := by
        have hto : (UInt16.ofNat inum).toNat = inum := UInt16.toNat_ofNat_of_lt' hinum.2
        have hne : UInt16.ofNat inum ≠ 0 := fun hzero => by
          rw [hzero] at hto
          exact hinum.1.ne hto
        rw [Dirent.entry, if_neg hne, nameKey_strncpy, hto]
      have hslots : (s'.vol sb).slots (s.itable dp).inum = Slots.add (nameKey name) inum l := by
        rw [hwrite.slots hdir, hentry]
        rfl
      refine ⟨h.write hwrite (hslots ▸ hunique.added hfind inum), hwrite.refs, hwrite.nfree,
        .inr ⟨Option.map_eq_none_iff.mpr hfind, rfl, hslots, fun key => ?_⟩⟩
      rw [hslots]
      exact hunique.get_add hfind inum key
  · cases he with
    | tableFull hfull => exact .inr ⟨rfl, hfull⟩
    | outOfBlocks hfew => exact .inl ⟨rfl, hfew⟩
    | dirlink hfind hbig =>
      rw [DirOp.slots, if_pos hfind] at hfits
      exact absurd (hfits.trans_lt hbig) (Nat.not_lt.mpr (Nat.mul_le_mul_right _ Slots.free_lt_add))

theorem lookupEntry_does (h : DirHeld sb s dp i) (name : List UInt8) :
    wp (DirPanic sb s 0) (lookupEntry sb dp name)
      (fun r => (DirOp.lookup name).Post sb dp i s (.entry r)) s := by
  have hi := h.inum
  subst hi
  unfold lookupEntry
  rw [wp_bind]
  refine (dirlookup_find h.good h.ref h.valid h.dir name).mono (fun r s' hlook => ?_) fun _ => .inr
  cases hlook with
  | none hfind => exact ⟨h, fun _ => rfl, le_rfl, rfl, by rw [hfind]; rfl⟩
  | found hfind hget =>
    dsimp only
    rw [wp_bind, wp_getInode, wp_bind]
    refine (iput_live (hget.live rfl rfl)).call fun _ s2 hput => ?_
    subst hput
    rw [wp_pure]
    refine ⟨h.same hget.dropped, fun j => (hget.dropped j).1, le_rfl, rfl, ?_⟩
    rw [hfind, (hget.self h.good).2.1]
    rfl

/-- What `writei` did while there was one more reference, once that is dropped. -/
theorem Written.dropped {off n w : Nat} {src : Nat → Option UInt8} {k : Fin NINODE}
    {t : Fin NINODE → Inode} {s2 : Fs} (hw : Written sb { s with itable := t } dp off n src w s2) :
    Written sb { s with itable := dropRef t k } dp off n src w
      { s2 with itable := dropRef s2.itable k } := by
  obtain ⟨d, hd⟩ := hw.only
  change s2.itable = update t dp { t dp with din := d } at hd
  have hself : s2.itable dp = { t dp with din := d } := by rw [hd, update_self]
  refine hw.retable ?_ ?_ ⟨d, ?_⟩
  · unfold dropRef
    by_cases hk : dp = k
    · rw [hk, update_self]
      exact ⟨rfl, rfl⟩
    · rw [update_of_ne hk]
      exact ⟨rfl, rfl⟩
  · unfold dropRef
    by_cases hk : dp = k
    · rw [hk, update_self]
      exact ⟨rfl, rfl⟩
    · rw [update_of_ne hk]
      exact ⟨rfl, rfl⟩
  · show dropRef s2.itable k = update (dropRef t k) dp { dropRef t k dp with din := d }
    unfold dropRef
    rw [hd]
    by_cases hk : dp = k
    · subst hk
      simp only [update_self, update_idem]
    · rw [update_of_ne (Ne.symm hk), update_of_ne hk, update_comm hk]

/-- When `dirlookup` has taken a reference to the inode of an entry, the entry can be cleared. -/
theorem writeZero_spec (hl : sb.Layout) (h : DirHeld sb s dp i) {e inum : Nat} {k : Fin NINODE}
    {t : Fin NINODE → Inode} (he : e < ((s.vol sb).slots i).length) (hget : Iget s.itable inum k t) :
    wp (DirPanic sb s 2) (writeDirent sb dp (e * DESIZE) .zero .unlinkWritei)
      (fun _ s' => Written sb { s with itable := t } dp (e * DESIZE) DESIZE
        (fun j => Dirent.zero.bytes[j]?) DESIZE s') { s with itable := t } := by
  -- `writei` needs its own entry only
  obtain ⟨hinum, hdin, -⟩ := hget.kept h.ref
  have hvol : Fs.volAt sb { s with itable := t } dp = s.vol sb :=
    (volAt_retable ⟨hinum, hdin⟩).trans (h.good.volAt h.ref h.valid)
  replace hinum : (t dp).inum = i := hinum.trans h.inum
  have hcov : (s.vol sb).Covered i := h.good.wf.covered _ (h.inum ▸ h.good.alloc h.ref h.valid)
  have hend : e * DESIZE + DESIZE ≤ (s.vol sb).size i := by
    rw [← h.dir.size, ← Nat.succ_mul]
    exact Nat.mul_le_mul_right _ he
  have hle : e * DESIZE ≤ (s.vol sb).size i := (Nat.le_add_right ..).trans hend
  refine (writeDirent_work hl ((h.good.work h.ref h.valid).retable ⟨hinum.trans h.inum.symm, hdin⟩)
    (by rw [hvol]; exact hinum ▸ hcov) (hle.trans_lt (UInt32.toNat_lt _)) rfl _).mono
    (fun _ _ hpost => hpost.2) ?_
  rw [hvol]
  rintro e' (⟨rfl, hfew⟩ | ⟨-, hbad⟩)
  · rw [spans_dirent] at hfew
    exact .inl ⟨rfl, hfew⟩
  · change ¬ WriteFits ((s.vol sb).size (t dp).inum) _ _ at hbad
    rw [hinum] at hbad
    exact absurd (writeFits_of_le hle (hend.trans hcov.1)) hbad

theorem clearEntry_does (hl : sb.Layout) (h : DirHeld sb s dp i) (name : List UInt8) :
    wp (DirPanic sb s 2) (clearEntry sb dp name)
      (fun r => (DirOp.clear name).Post sb dp i s (.ret r)) s := by
  have hdir := h.dir
  have hunique := h.unique
  have hi := h.inum
  subst hi
  unfold clearEntry
  rw [wp_bind]
  refine (dirlookup_find h.good h.ref h.valid hdir name).mono (fun r s' hlook => ?_) fun _ => .inr
  cases hlook with
  | none hfind =>
    exact ⟨h, fun _ => rfl, Nat.le_add_right .., .inl ⟨Option.map_eq_none_iff.mpr hfind, rfl, rfl⟩⟩
  | @found e inum k t hfind hget =>
    dsimp only
    have hlt := Slots.find_lt hfind
    rw [wp_bind]
    refine (writeZero_spec hl h hlt hget).mono (fun _ s2 hw => ?_) fun _ => id
    obtain ⟨d, hd⟩ := hw.only
    change s2.itable = update t dp { t dp with din := d } at hd
    have hlive : ¬ (s2.itable k).Dead := by
      rw [hd]
      by_cases hk : k = dp
      · subst hk
        rw [update_self]
        exact hget.live rfl rfl
      · rw [update_of_ne hk]
        exact hget.live rfl rfl
    rw [wp_bind]
    refine (iput_live hlive).call fun _ s3 hput => ?_
    subst hput
    rw [wp_pure]
    have hheld := h.same hget.dropped
    have hwrite' := hw.dropped.dirWrite hheld.good hheld.ref hheld.valid rfl (by
      rw [hheld.inum, ← hheld.dir.size]
      exact Nat.mul_le_mul_right _ hlt.le)
    have hslots := hwrite'.slots (by
      rw [hheld.inum]
      exact hdir)
    rw [hheld.inum] at hslots
    replace hslots : (s2.vol sb).slots (s.itable dp).inum
        = ((s.vol sb).slots (s.itable dp).inum).set e none := hslots.trans (if_pos hlt)
    exact ⟨hheld.write hwrite' (hslots ▸ hunique.cleared e),
      fun j => (hwrite'.refs j).trans (hget.dropped j).1, hwrite'.nfree,
      .inr ⟨e, inum, hfind, rfl, hslots, fun key =>
        (congrArg (Slots.get key) hslots).trans (hunique.get_clear hfind key)⟩⟩

theorem DirOp.run_does (hl : sb.Layout) (h : DirHeld sb s dp i) {op : DirOp} (hrange : op.InRange)
    (hfits : (op.slots ((s.vol sb).slots i)).length * DESIZE ≤ MAXFILE * BSIZE) :
    wp (DirPanic sb s op.needs) (op.run sb dp) (op.Post sb dp i s) s := by
  cases op with
  | link name inum =>
    show wp _ (dirlink sb dp name inum >>= fun r => pure (DirRes.ret r)) _ s
    rw [wp_bind]
    exact dirlink_does hl h hrange hfits
  | lookup name =>
    show wp _ (lookupEntry sb dp name >>= fun r => pure (DirRes.entry r)) _ s
    rw [wp_bind]
    exact lookupEntry_does h name
  | clear name =>
    show wp _ (clearEntry sb dp name >>= fun r => pure (DirRes.ret r)) _ s
    rw [wp_bind]
    exact clearEntry_does hl h name

theorem DirOp.Does.slots {op : DirOp} {v v' : Vol} {r : DirRes} (h : op.Does v i r v') :
    v'.slots i = op.slots (v.slots i) := by
  cases op with
  | link name inum =>
    rcases h with ⟨hused, -, rfl⟩ | ⟨hnew, -, hslots, -⟩
    · exact (if_neg fun hnone => hused (Option.map_eq_none_iff.mpr hnone)).symm
    · exact hslots.trans (if_pos (Option.map_eq_none_iff.mp hnew)).symm
  | lookup name => rw [h.1, DirOp.slots]
  | clear name =>
    rcases h with ⟨hnone, -, rfl⟩ | ⟨e, inum, hfind, -, hslots, -⟩
    · rw [DirOp.slots, Option.map_eq_none_iff.mp hnone]
    · rw [hslots, DirOp.slots, hfind]

end Run

/-- Every sequence of `dirlink`, `dirlookup` and the clearing of entries works on the map that the
directory is, as long as it does not outgrow the largest file, unless the operations need more blocks
than are free or the inode table is full. -/
theorem directory_is_map {sb : Superblock} (hl : sb.Layout) {s : Fs} {dp : Fin NINODE} {i : Nat}
    (h : DirHeld sb s dp i) {ops : List DirOp} (hrange : ∀ op ∈ ops, op.InRange)
    (hfits : DirOp.Fits ((s.vol sb).slots i) ops) :
    wp (DirPanic sb s (ops.map DirOp.needs).sum) (dirOps sb dp ops) (fun rs s' => DirHeld sb s' dp i ∧
      DirRun i (s.vol sb) ops rs (s'.vol sb)) s := by
  induction ops generalizing s with
  | nil => exact ⟨h, .nil h.unique⟩
  | cons op ops ih =>
    unfold dirOps
    rw [wp_bind, map_cons, sum_cons]
    refine (op.run_does hl h (hrange op (mem_cons_self ..)) hfits.1).mono (fun r s1 hpost => ?_) ?_
    swap
    · rintro e (⟨rfl, hfew⟩ | hfull)
      · exact .inl ⟨rfl, by omega⟩
      · exact .inr hfull
    have hnfree := hpost.nfree
    rw [wp_bind]
    refine (ih hpost.held (fun o ho => hrange o (mem_cons_of_mem _ ho))
      (hpost.does.slots ▸ hfits.2)).mono (fun rs s' hrest => ?_) ?_
    · rw [wp_pure]
      exact ⟨hrest.1, .cons h.unique hpost.does hrest.2⟩
    · rintro e (⟨rfl, hfew⟩ | ⟨rfl, hfull⟩)
      · exact .inl ⟨rfl, by omega⟩
      · refine .inr ⟨rfl, fun j => ?_⟩
        rw [← hpost.refs j]
        exact hfull j

theorem Mkfs.rootHeld_dir : DirHeld Mkfs.sb Mkfs.rootHeld Mkfs.entry0 ROOTINO where
  good := Mkfs.rootHeld_good
  ref := Nat.one_pos
  valid := rfl
  inum := rfl
  dir := by
    have hino : (Mkfs.rootHeld.vol Mkfs.sb).ino ROOTINO = Mkfs.rootInode :=
      (Mkfs.vol_ino ROOTINO).trans (if_pos rfl)
    refine ⟨by rw [hino]; rfl, ?_⟩
    rw [Vol.size, hino]
    decide
  unique := Slots.unique_of_nodup (by decide +kernel)

/-- A name of `DIRSIZ` bytes is made, looked up and removed. -/
def fourteen : List DirOp :=
  [.link (List.replicate DIRSIZ 97) 65535, .lookup (List.replicate DIRSIZ 97),
    .clear (List.replicate DIRSIZ 97)]

theorem directory_is_map_root : ∃ s',
    (dirOps Mkfs.sb Mkfs.entry0 fourteen).run Mkfs.rootHeld
        = .ok ([.ret 0, .entry (some (65535, 2 * DESIZE)), .ret 0], s') ∧
      DirRun ROOTINO (Mkfs.rootHeld.vol Mkfs.sb) fourteen
        [.ret 0, .entry (some (65535, 2 * DESIZE)), .ret 0] (s'.vol Mkfs.sb) := by
  have hrange : ∀ op ∈ fourteen, op.InRange := by
    simp [fourteen, DirOp.InRange]
  have hfits : DirOp.Fits ((Mkfs.rootHeld.vol Mkfs.sb).slots ROOTINO) fourteen := by
    refine ⟨?_, ?_, ?_, trivial⟩
    · decide +kernel
    · decide +kernel
    · decide +kernel
  obtain ⟨s', hrun⟩ : ∃ s', (dirOps Mkfs.sb Mkfs.entry0 fourteen).run Mkfs.rootHeld
      = .ok ([.ret 0, .entry (some (65535, 2 * DESIZE)), .ret 0], s') :=
    ok_of_map_fst (by decide +kernel)
  -- with the state a variable, so that the run is not unfolded again
  have hmap {s : Fs} (h : DirHeld Mkfs.sb s Mkfs.entry0 ROOTINO)
      (hfits : DirOp.Fits ((s.vol Mkfs.sb).slots ROOTINO) fourteen) :=
    wp_iff.mp (directory_is_map Mkfs.layout h hrange hfits)
  exact ⟨s', hrun, ((hmap Mkfs.rootHeld_dir hfits).1 _ _ hrun).2⟩

end Xv6
