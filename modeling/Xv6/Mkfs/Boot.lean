import Xv6.Fs.Contents
import Xv6.Fs.Lookup
import Xv6.Mkfs.Main

/-!
# The kernel on an image of `mkfs`

The kernel finds on the image what `mkfs` has put there: the superblock, a file for every argument,
under its name and with its bytes, and no other files (`mkfs_image_agrees`). The lemmas follow
`dirlookup` in the root directory and then `readi`.
-/

namespace Xv6

open Prog Vol List

/-! ## Reading files -/

def readsb (b : Block) : Superblock where
  size := b.word 1
  nblocks := b.word 2
  ninodes := b.word 3
  nlog := b.word 4
  logstart := b.word 5
  inodestart := b.word 6
  bmapstart := b.word 7

/-- `fsinit`; without result if it panics with "invalid file system". -/
def fsinit (data : Nat → Block) : Option Superblock :=
  if (data 1).word 0 = Mkfs.magic then some (readsb (data 1)) else none

/-- What the kernel does to read from the file `name` of the root directory. -/
def readFile (sb : Superblock) (name : List UInt8) (off n : UInt32) :
    FsM (Option (Int × List UInt8)) := do
  let dp ← iget ROOTDEV ROOTINO
  ilock sb dp
  match ← dirlookup sb dp name with
  | none =>
    iunlockput sb dp
    return none
  | some (ip, _) =>
    iunlockput sb dp
    ilock sb ip
    let r ← readi sb ip (fun _ => true) off n
    iunlockput sb ip
    return some r

namespace Mkfs

def boot (img : Image) : Fs where
  data := img.data
  logged := img.data
  itable _ := noInode

theorem fsinit_superblock {data : Nat → Block} (h : data 1 = superblock) : fsinit data = some sb := by
  have hmagic : superblock.word 0 = magic := by
    unfold superblock
    simp (disch := decide) [List.zipIdx, Block.word_setWord_ne, Block.word_setWord]
  have hsb : readsb superblock = sb := by
    unfold readsb superblock
    simp (disch := decide) [List.zipIdx, Block.word_setWord_ne, Block.word_setWord]
  rw [fsinit, h, if_pos hmagic, hsb]

/-! ### The entries of the root directory -/

/-- The names in the root directory, in the order of their entries. -/
def allNames (files : List HostFile) : List (List UInt8) := [dot] :: [dot, dot] :: files.map HostFile.name

theorem length_allNames (files : List HostFile) : (allNames files).length = files.length + 2 := by
  unfold allNames
  rw [length_cons, length_cons, length_map]

/-- Entry `e` of the root directory, which has name `name`. -/
def rootEntry (e : Nat) (name : List UInt8) : Dirent :=
  ⟨UInt16.ofNat (max ROOTINO e), strncpy DIRSIZ name⟩

def entryBytes (k : Nat) (names : List (List UInt8)) : List UInt8 :=
  (names.zipIdx k).flatMap fun x => (rootEntry x.2 x.1).bytes

theorem entries_eq (files : List HostFile) :
    rootEntries ++ entriesOf files = entryBytes 0 (allNames files) := by
  have hrest : entriesOf files = entryBytes 2 (files.map HostFile.name) := by
    unfold entriesOf entryBytes
    rw [zipIdx_eq_map_add (i := 2), zipIdx_map, map_map, flatMap_map]
    refine flatMap_congr fun x _ => ?_
    show direntOf (x.2 + 2) x.1.name = (rootEntry (2 + x.2) x.1.name).bytes
    have hmax : max ROOTINO (2 + x.2) = x.2 + 2 := by
      simp only [ROOTINO]
      omega
    unfold direntOf rootEntry
    rw [hmax]
  rw [hrest]
  rfl

theorem slice_entryBytes (k : Nat) (names : List (List UInt8)) (e : Nat) :
    (List.range DESIZE).map (fun j => (entryBytes k names).getD (e * DESIZE + j) 0)
      = ((names[e]?.map (rootEntry (k + e))).getD Dirent.zero).bytes := by
  induction names generalizing k e with
  | nil =>
    show (List.range DESIZE).map (fun j => ([] : List UInt8).getD (e * DESIZE + j) 0) = _
    simp only [getD_nil, List.getElem?_nil]
    show (List.range DESIZE).map (fun _ => (0 : UInt8)) = Dirent.zero.bytes
    decide
  | cons name rest ih =>
    have hlen : (rootEntry k name).bytes.length = DESIZE := Dirent.length_bytes (length_strncpy ..)
    have hcons : entryBytes k (name :: rest) = (rootEntry k name).bytes ++ entryBytes (k + 1) rest := rfl
    rw [hcons]
    cases e with
    | zero =>
      show _ = (rootEntry k name).bytes
      refine ext_getElem (by simp [hlen]) fun j hj hj' => ?_
      simp [List.getElem?_append_left hj', List.getElem?_eq_getElem hj']
    | succ e =>
      rw [List.getElem?_cons_succ, show k + (e + 1) = k + 1 + e by omega, ← ih]
      refine map_congr_left fun j _ => ?_
      rw [getD_eq_getElem?_getD, List.getElem?_append_right (by rw [hlen]; nlinarith), hlen,
        getD_eq_getElem?_getD]
      congr 2
      rw [Nat.add_one_mul]
      omega

section Root

variable {files : List HostFile} {img : Image}

theorem Finished.dirent (h : Finished files img) (e : Nat) :
    (volOf sb img.data).dirent ROOTINO (e * DESIZE)
      = ((allNames files)[e]?.map (rootEntry e)).getD Dirent.zero := by
  have hslice := slice_entryBytes 0 (allNames files) e
  rw [Nat.zero_add, ← entries_eq] at hslice
  unfold Vol.dirent
  rw [map_congr_left fun j _ => h.rootBytes (e * DESIZE + j), hslice, Dirent.ofBytes_bytes]

theorem zero_notMem_name (f : HostFile) : (0 : UInt8) ∉ f.name := by
  have hshort : (0 : UInt8) ∉ f.shortname := by
    unfold HostFile.shortname
    split
    · exact fun hmem => f.noNul (mem_of_mem_drop hmem)
    · exact f.noNul
  unfold HostFile.name
  split
  · exact fun hmem => hshort (mem_of_mem_tail hmem)
  · exact hshort

theorem zero_notMem_allNames {nm : List UInt8} (h : nm ∈ allNames files) : (0 : UInt8) ∉ nm := by
  rcases mem_cons.mp h with rfl | h
  · decide
  · rcases mem_cons.mp h with rfl | h
    · decide
    · obtain ⟨f, -, rfl⟩ := mem_map.mp h
      exact zero_notMem_name f

variable {name : List UInt8}

theorem Finished.matches_iff (h : Finished files img) (hinodes : files.length + 1 < sb.ninodes)
    (hname : (0 : UInt8) ∉ name) (e : Nat) :
    (volOf sb img.data).Matches ROOTINO name (e * DESIZE) ↔
      ∃ nm, (allNames files)[e]? = some nm ∧ name.take DIRSIZ = nm.take DIRSIZ := by
  unfold Vol.Matches
  rw [h.dirent]
  cases hnm : (allNames files)[e]? with
  | none => exact ⟨fun hm => absurd rfl hm.1, fun ⟨_, hnone, _⟩ => by cases hnone⟩
  | some nm =>
    have hlt : e < files.length + 2 := by
      obtain ⟨hlt, -⟩ := List.getElem?_eq_some_iff.mp hnm
      rwa [length_allNames] at hlt
    have hmax : max ROOTINO e < 2 ^ 16 := by
      have hn : sb.ninodes = 200 := rfl
      simp only [ROOTINO]
      omega
    have hinum : (rootEntry e nm).inum ≠ 0 := by
      intro hzero
      have hval := congrArg UInt16.toNat hzero
      rw [rootEntry, UInt16.toNat_ofNat_of_lt' hmax] at hval
      exact absurd hval (Nat.ne_of_gt (Nat.lt_of_lt_of_le Nat.one_pos (Nat.le_max_left ..)))
    have hcmp := strncmp_strncpy (n := DIRSIZ) hname
      (zero_notMem_allNames (mem_of_getElem? hnm))
    show (rootEntry e nm).inum ≠ 0 ∧ strncmp DIRSIZ name (strncpy DIRSIZ nm) = 0 ↔ _
    rw [hcmp]
    refine ⟨fun hm => ⟨nm, rfl, hm.2⟩, ?_⟩
    rintro ⟨nm', hnm', htake⟩
    cases hnm'
    exact ⟨hinum, htake⟩

/-! ### Looking a name up -/

theorem Finished.rootAlloc (h : Finished files img) : (volOf sb img.data).Alloc sb ROOTINO :=
  ⟨by decide, by rw [h.rootType]; decide⟩

/-- The root directory is in entry `dp`, locked. -/
def rootOpen (img : Image) (dp : Fin NINODE) : Fs :=
  (boot img).setEntry dp ⟨ROOTDEV, ROOTINO, 1, true, true, (volOf sb img.data).ino ROOTINO⟩

theorem openRoot_spec (h : Finished files img) {E : FsPanic → Prop} :
    wp E (iget ROOTDEV ROOTINO) (fun dp => wp E (ilock sb dp) fun _ s => s = rootOpen img dp)
      (boot img) := by
  have hnone : ∀ j, ¬ 0 < ((boot img).itable j).ref := fun j => Nat.lt_irrefl 0
  refine (iget_new (k := entry0) (fun j hr => absurd hr (hnone j)) (fun j hr => absurd hr (hnone j))
    rfl).call ?_
  rintro dp s ⟨-, hs⟩
  have hip : s.itable dp = { noInode with dev := ROOTDEV, inum := ROOTINO, ref := 1, valid := false } := by
    rw [hs]
    exact Fs.itable_setEntry _
  have hvol : s.vol sb = volOf sb img.data := by
    rw [hs]
    rfl
  refine (ilock_new (i := ROOTINO) (by rw [hip]; rfl) (hvol ▸ h.rootAlloc)).call fun _ s' hs' => ?_
  rw [hs', hvol, hs]
  unfold rootOpen Fs.setEntry
  rw [Function.update_idem]

theorem rootOpen_work (h : Finished files img) (dp : Fin NINODE) :
    (rootOpen img dp).volAt sb dp = volOf sb img.data ∧ Work sb (rootOpen img dp) dp := by
  refine work_of_copy ?_ ?_ h.rootAlloc h.blocks rfl
  · exact congrArg Inode.inum (Fs.itable_setEntry _)
  · exact congrArg Inode.din (Fs.itable_setEntry _)

theorem direntOffs_split {e : Nat} (size : Nat) (h : (e + 1) * DESIZE ≤ size) : ∃ post,
    direntOffs 0 size = (List.range e).map (· * DESIZE) ++ e * DESIZE :: post := by
  obtain ⟨r, hr⟩ : ∃ r, (size - 0 + DESIZE - 1) / DESIZE = e + (r + 1) := by
    refine ⟨(size - 0 + DESIZE - 1) / DESIZE - (e + 1), ?_⟩
    rw [show DESIZE = 16 from rfl] at h ⊢
    omega
  refine ⟨((List.range r).map Nat.succ).map fun i => (e + i) * DESIZE, ?_⟩
  unfold direntOffs
  rw [hr, range_add, range_succ_eq_map (n := r)]
  simp only [map_append, map_map, map_cons, Nat.zero_add]
  rfl

theorem Finished.offs (h : Finished files img) {o : Nat}
    (ho : o ∈ direntOffs 0 ((volOf sb img.data).ino ROOTINO).size.toNat) :
    ∃ e, o = e * DESIZE ∧ o % DESIZE = 0 ∧ o + DESIZE ≤ (volOf sb img.data).size ROOTINO := by
  obtain ⟨e, rfl, hlt⟩ := mem_direntOffs ho
  replace hlt : 0 + e * DESIZE < (volOf sb img.data).size ROOTINO := hlt
  have hdesize : DESIZE = 16 := rfl
  rw [h.rootSize] at hlt ⊢
  refine ⟨e, Nat.zero_add _, ?_, ?_⟩
  · rw [Nat.zero_add, Nat.mul_mod_left]
  · rw [hdesize] at hlt ⊢
    simp only [rounded, BSIZE] at hlt ⊢
    omega

theorem Finished.rootBlock (h : Finished files img) {o : Nat} (ho : o < (files.length + 2) * DESIZE) :
    (volOf sb img.data).addr ROOTINO (place (o / BSIZE)) ≠ 0 :=
  (h.rootFills.block _).mpr ((Nat.div_mul_le_self ..).trans_lt ho)

theorem lookup_found (h : Finished files img) (hinodes : files.length + 1 < sb.ninodes) {j : Nat}
    {f : HostFile} (hj : files[j]? = some f)
    (hfirst : ∀ e nm, e < j + 2 → (allNames files)[e]? = some nm →
      f.name.take DIRSIZ ≠ nm.take DIRSIZ) (dp : Fin NINODE) {E : FsPanic → Prop} :
    wp E (dirlookup sb dp f.name) (fun r s => ∃ ip, ip ≠ dp ∧ r = some (ip, (j + 2) * DESIZE) ∧
      s = (rootOpen img dp).setEntry ip ⟨ROOTDEV, j + 2, 1, false, false, Dinode.zero⟩)
      (rootOpen img dp) := by
  obtain ⟨hvol, hwork⟩ := rootOpen_work h dp
  have hself : (rootOpen img dp).itable dp
      = ⟨ROOTDEV, ROOTINO, 1, true, true, (volOf sb img.data).ino ROOTINO⟩ := Fs.itable_setEntry _
  have hother : ∀ k, k ≠ dp → (rootOpen img dp).itable k = noInode := fun k hk =>
    Fs.itable_setEntry_ne hk _
  have hjlt : j < files.length := (List.getElem?_eq_some_iff.mp hj).1
  have hentry : (allNames files)[j + 2]? = some f.name := by
    show (files.map HostFile.name)[j]? = _
    rw [List.getElem?_map, hj]
    rfl
  obtain ⟨post, hoffs⟩ := direntOffs_split (e := j + 2) ((volOf sb img.data).ino ROOTINO).size.toNat (by
      show _ ≤ (volOf sb img.data).size ROOTINO
      have hle : (j + 2 + 1) * DESIZE ≤ (files.length + 2) * DESIZE := Nat.mul_le_mul_right _ (by omega)
      exact hle.trans (h.rootSize ▸ (Nat.lt_div_mul_add (by decide)).le.trans (Nat.add_one_mul ..).ge))
  have hfound := dirlookupFrom_found (E := E) hwork f.name ((List.range (j + 2)).map (· * DESIZE))
    ((j + 2) * DESIZE) post
  rw [hvol, hself] at hfound
  unfold dirlookup
  rw [wp_bind, wp_getInode, hself, wp_ite]
  refine ⟨fun _ => ?_, fun htype => absurd h.rootType htype⟩
  rw [wp_bind, hoffs]
  refine (hfound ?_ (fun o ho => ?_) (fun o ho => ?_) ?_).call fun r s hpost => ?_
  · show (volOf sb img.data).size ROOTINO ≤ _
    rw [h.rootSize]
    exact (rounded_le hinodes).trans (by decide)
  · have hmem : o ∈ direntOffs 0 ((volOf sb img.data).ino ROOTINO).size.toNat := by
      rw [hoffs]
      refine mem_append.mpr ((mem_append.mp ho).imp_right fun hlast => ?_)
      rw [mem_singleton.mp hlast]
      exact mem_cons_self ..
    obtain ⟨-, -, hmod, hin⟩ := h.offs hmem
    refine ⟨hmod, hin, h.rootBlock ?_⟩
    rcases mem_append.mp ho with hpre | hlast
    · obtain ⟨e, he, rfl⟩ := mem_map.mp hpre
      have he' := mem_range.mp he
      exact Nat.mul_lt_mul_of_pos_right (by omega) (by decide)
    · rw [mem_singleton.mp hlast]
      exact Nat.mul_lt_mul_of_pos_right (by omega) (by decide)
  · obtain ⟨e, he, rfl⟩ := mem_map.mp ho
    rw [h.matches_iff hinodes (zero_notMem_name f)]
    rintro ⟨nm, hnm, heq⟩
    exact hfirst e nm (mem_range.mp he) hnm heq
  · rw [h.matches_iff hinodes (zero_notMem_name f)]
    exact ⟨f.name, hentry, rfl⟩
  · obtain ⟨rfl, rfl⟩ := hpost
    have hinum : ((volOf sb img.data).dirent ROOTINO ((j + 2) * DESIZE)).inum.toNat = j + 2 := by
      rw [h.dirent, hentry]
      have hn : sb.ninodes = 200 := rfl
      have hmax : max ROOTINO (j + 2) = j + 2 := by
        simp only [ROOTINO]
        omega
      show (UInt16.ofNat (max ROOTINO (j + 2))).toNat = _
      rw [hmax]
      exact UInt16.toNat_ofNat_of_lt' (by show j + 2 < 2 ^ 16; omega)
    dsimp only
    rw [hinum, wp_bind]
    obtain ⟨k, hk⟩ : ∃ k : Fin NINODE, k ≠ dp := exists_ne (α := Fin 50) dp
    -- the only entry in use is that of the root directory
    have huse : ∀ k, 0 < ((rootOpen img dp).itable k).ref → k = dp := by
      intro k hr
      by_contra hne
      rw [hother k hne] at hr
      exact absurd hr (Nat.lt_irrefl 0)
    refine (iget_new (k := k) (fun k hr => ?_) (fun k hr => ?_) ?_).call fun ip s hpost => ?_
    · rw [huse k hr, hself]
    · rw [huse k hr, hself]
      show ROOTINO ≠ j + 2
      simp only [ROOTINO]
      omega
    · rw [hother k hk]
      rfl
    · obtain ⟨hfree, rfl⟩ := hpost
      have hne : ip ≠ dp := by
        rintro rfl
        rw [hself] at hfree
        cases hfree
      rw [wp_pure]
      refine ⟨ip, hne, rfl, ?_⟩
      rw [hother ip hne]
      rfl

/-- A lookup cannot allocate the missing block of the root directory. -/
def Full (files : List HostFile) : Prop :=
  total (planOf files) = FSSIZE ∧ (files.length + 2) * DESIZE % BSIZE = 0

theorem Finished.full (h : Finished files img) (hnone : (volOf sb img.data).nfree sb = 0)
    (hhole : (volOf sb img.data).addr ROOTINO (place ((files.length + 2) * DESIZE / BSIZE)) = 0) :
    Full files := by
  constructor
  · rw [← h.freeblock]
    refine le_antisymm h.free (Nat.le_of_not_lt fun hlt => ?_)
    have hmem : img.freeblock ∈ (Finset.range sb.size).filter
        fun b => (volOf sb img.data).used b = false := by
      refine Finset.mem_filter.mpr ⟨Finset.mem_range.mpr hlt, ?_⟩
      rw [h.used _ hlt]
      exact decide_eq_false (Nat.lt_irrefl _)
    exact absurd (Finset.card_eq_zero.mp hnone) (Finset.ne_empty_of_mem hmem)
  · have hge := (h.rootFills.block _).not.mp (not_not_intro hhole)
    have hdiv := Nat.div_add_mod' ((files.length + 2) * DESIZE) BSIZE
    omega

theorem lookup_missing (h : Finished files img) (hinodes : files.length + 1 < sb.ninodes)
    (hname : (0 : UInt8) ∉ name) (hno : ∀ nm ∈ allNames files, name.take DIRSIZ ≠ nm.take DIRSIZ)
    (dp : Fin NINODE) :
    wp (fun e => e = .outOfBlocks ∧ Full files) (dirlookup sb dp name) (fun r s => r = none ∧
      (s.itable dp).ref = 1 ∧ (s.itable dp).lock = true ∧ (s.itable dp).din.nlink ≠ 0)
      (rootOpen img dp) := by
  obtain ⟨hvol, hwork⟩ := rootOpen_work h dp
  have hself : (rootOpen img dp).itable dp
      = ⟨ROOTDEV, ROOTINO, 1, true, true, (volOf sb img.data).ino ROOTINO⟩ := Fs.itable_setEntry _
  have hlink : ((volOf sb img.data).ino ROOTINO).nlink ≠ 0 := by
    rw [h.rootLink]
    decide
  have hsize : ((volOf sb img.data).ino ROOTINO).size.toNat = _ := h.rootSize
  have hloop := fun hmax hcov hoffs => dirlookupFrom_missing (m := (files.length + 2) * DESIZE / BSIZE)
    layout hwork hmax hcov name (direntOffs 0 ((volOf sb img.data).ino ROOTINO).size.toNat) hoffs
    (.inl rfl)
  rw [hvol, hself] at hloop
  unfold dirlookup
  rw [wp_bind, wp_getInode, hself, wp_ite]
  refine ⟨fun _ => ?_, fun htype => absurd h.rootType htype⟩
  rw [wp_bind]
  refine (hloop ?_ (fun n hn hne => ?_) fun o ho => ?_).mono (fun r s hpost => ?_)
    fun e he => ⟨he.1, h.full he.2.1 he.2.2⟩
  · rw [hsize]
    exact (rounded_le hinodes).trans (by decide)
  · rw [hsize] at hn
    refine (h.rootFills.block n).mpr ?_
    generalize (files.length + 2) * DESIZE = size at hn hne
    simp only [rounded, BSIZE] at hn hne ⊢
    omega
  · obtain ⟨e, rfl, hmod, hin⟩ := h.offs ho
    refine ⟨hmod, hin, ?_⟩
    rw [h.matches_iff hinodes hname]
    rintro ⟨nm, hnm, heq⟩
    exact hno nm (mem_of_getElem? hnm) heq
  · obtain ⟨rfl, hs⟩ := hpost
    refine ⟨rfl, ?_⟩
    rcases hs with rfl | hfilled
    · rw [hself]
      exact ⟨rfl, rfl, hlink⟩
    · have honly := hfilled.only.self
      rw [hself] at honly
      refine ⟨by rw [honly], by rw [honly], ?_⟩
      obtain ⟨a, ha⟩ := hfilled.grows.same
      rw [hvol, ← hfilled.only.inum, Fs.volAt_ino, hfilled.only.inum, hself] at ha
      rw [ha]
      exact hlink

/-! ### The files of the image -/

theorem readFile_missing (h : Finished files img) (hinodes : files.length + 1 < sb.ninodes)
    (hname : (0 : UInt8) ∉ name) (hno : ∀ nm ∈ allNames files, name.take DIRSIZ ≠ nm.take DIRSIZ)
    (off n : UInt32) :
    wp (fun e => e = .outOfBlocks ∧ Full files) (readFile sb name off n) (fun r _ => r = none)
      (boot img) := by
  unfold readFile
  rw [wp_bind]
  refine (openRoot_spec h).call fun dp s1 hopen => ?_
  rw [wp_bind]
  refine hopen.call fun _ s2 hs2 => ?_
  rw [hs2, wp_bind]
  refine (lookup_missing h hinodes hname hno dp).call ?_
  rintro r s3 ⟨rfl, hr, hlock, hlink⟩
  dsimp only
  rw [wp_bind]
  exact (iunlockput_live hr hlock hlink).call fun _ s4 _ => rfl

theorem NodeAt.content {v : Vol} {i : Nat} {x : Node} (h : NodeAt v i x) : v.content i = x.content := by
  unfold Vol.content
  rw [h.size]
  refine ext_getElem (by simp) fun o ho ho' => ?_
  simp [h.bytes, ho']

theorem readFile_found (h : Finished files img) (hinodes : files.length + 1 < sb.ninodes) {j : Nat}
    {f : HostFile} (hj : files[j]? = some f)
    (hfirst : ∀ e nm, e < j + 2 → (allNames files)[e]? = some nm →
      f.name.take DIRSIZ ≠ nm.take DIRSIZ) (off n : UInt32) (hwrap : off.toNat + n.toNat < 2 ^ 32) :
    wp (fun _ => False) (readFile sb f.name off n) (fun r _ =>
      r = some ((((f.bytes.drop off.toNat).take n.toNat).length : Int),
        (f.bytes.drop off.toNat).take n.toNat)) (boot img) := by
  have hnode := h.node j f hj
  have hjlt : j < files.length := (List.getElem?_eq_some_iff.mp hj).1
  have halloc : (volOf sb img.data).Alloc sb (j + 2) := by
    refine ⟨by omega, ?_⟩
    rw [hnode.type]
    exact (fileNode f).type_ne
  have hlink : ((volOf sb img.data).ino (j + 2)).nlink ≠ 0 := by
    rw [hnode.nlink]
    decide
  unfold readFile
  rw [wp_bind]
  refine (openRoot_spec h).call fun dp s1 hopen => ?_
  rw [wp_bind]
  refine hopen.call fun _ s2 hs2 => ?_
  rw [hs2, wp_bind]
  refine (lookup_found h hinodes hj hfirst dp).call ?_
  rintro r s3 ⟨ip, hne, rfl, hs3⟩
  -- the root directory is given back
  have hroot : s3.itable dp = ⟨ROOTDEV, ROOTINO, 1, true, true, (volOf sb img.data).ino ROOTINO⟩ := by
    rw [hs3, Fs.itable_setEntry_ne hne.symm]
    exact Fs.itable_setEntry _
  dsimp only
  rw [wp_bind]
  refine (iunlockput_live ?_ ?_ ?_).call fun _ s4 hs4 => ?_
  · rw [hroot]
  · rw [hroot]
  · rw [hroot, h.rootLink]
    decide
  -- the file is read
  have hip : s4.itable ip = ⟨ROOTDEV, j + 2, 1, false, false, Dinode.zero⟩ := by
    rw [hs4, Fs.itable_setEntry_ne hne, hs3]
    exact Fs.itable_setEntry _
  have hdata : s4.data = img.data ∧ s4.logged = img.data := by
    rw [hs4, hs3]
    exact ⟨rfl, rfl⟩
  have hvol : s4.vol sb = volOf sb img.data := by
    unfold Fs.vol
    rw [hdata.1]
  rw [wp_bind]
  refine (ilock_new (i := j + 2) (by rw [hip]) (by rw [hvol]; exact halloc)).call fun _ s5 hs5 => ?_
  have hself : s5.itable ip = ⟨ROOTDEV, j + 2, 1, true, true, (volOf sb img.data).ino (j + 2)⟩ := by
    rw [hs5, Fs.itable_setEntry, hvol]
  have hdata5 : s5.data = img.data ∧ s5.logged = img.data := by
    rw [hs5]
    exact hdata
  have hvol5 : s5.vol sb = volOf sb img.data := by
    unfold Fs.vol
    rw [hdata5.1]
  obtain ⟨hvolAt, hwork⟩ : s5.volAt sb ip = s5.vol sb ∧ Work sb s5 ip :=
    work_of_copy (i := j + 2) (by rw [hself]) (by rw [hself, hvol5]) (by rw [hvol5]; exact halloc)
      (by rw [hvol5]; exact h.blocks) (hdata5.1.trans hdata5.2.symm)
  have hread := fun hcov => readi_spec hwork hcov (fun _ => true) off n
  rw [hvolAt, hvol5, hself] at hread
  rw [wp_bind]
  refine (hread ?_).call fun r s6 hpost => ?_
  · rw [Vol.Covered, hnode.size]
    exact ⟨hnode.fills.le_max, fun m hm => (hnode.fills.block m).mpr hm⟩
  obtain ⟨rfl, m, -, hbytes, -, hres⟩ := hpost
  obtain ⟨hlen, rfl⟩ | ⟨_, _, hdst⟩ := hres
  case inr => cases hdst
  rw [wp_bind]
  refine (iunlockput_live ?_ ?_ ?_).call fun _ s7 _ => ?_
  · rw [hself]
  · rw [hself]
  · rw [hself]
    exact hlink
  · -- what `readi` returns is a part of the content
    have hslice := content_slice (volOf sb img.data) (j + 2) off.toNat n.toNat
    have hlenEq : readLen ((volOf sb img.data).size (j + 2)) off.toNat n.toNat
        = min n.toNat ((volOf sb img.data).size (j + 2) - off.toNat) := by
      unfold readLen
      split
      · omega
      · rfl
    have hcontent : (volOf sb img.data).content (j + 2) = f.bytes := hnode.content
    rw [hlenEq] at hlen hbytes
    rw [← hslice, hcontent] at hbytes
    rw [wp_pure, ← hbytes]
    refine congrArg some (Prod.ext (hlen.trans ?_) rfl)
    rw [hbytes, ← hcontent, hslice, length_map, length_range]

end Root

theorem slash_notMem_shortname {f : HostFile} (h : slash ∉ f.name) : slash ∉ f.shortname := by
  unfold HostFile.name at h
  split at h
  · rename_i hhead
    cases hshort : f.shortname with
    | nil => exact not_mem_nil
    | cons c rest =>
      rw [hshort] at h hhead
      refine not_mem_cons_of_ne_of_not_mem ?_ h
      rintro rfl
      exact absurd (show slash = underscore from hhead) (by decide)
  · exact h

theorem eq_of_take_eq {name nm : List UInt8} (h : name.take DIRSIZ = nm.take DIRSIZ)
    (hlen : nm.length < DIRSIZ) : name = nm := by
  rw [take_of_length_le hlen.le] at h
  have hle : name.length ≤ DIRSIZ := by
    have := congrArg List.length h
    rw [length_take] at this
    omega
  rwa [take_of_length_le hle] at h

/-- **The kernel reads from the image of `mkfs` the files it was given.** Under its name, cut to
`DIRSIZ` bytes, each of them is found, and `readi` returns its bytes at every offset; no other name
is found. A lookup that runs past the last entry may ask for the block that the rounded size of the
root directory promises, and panic if the disk is full. -/
theorem mkfs_image_agrees (files : List HostFile) (hreads : ∀ f ∈ files, f.reads ≠ none)
    (hname : ∀ f ∈ files, slash ∉ f.name ∧ f.name ≠ [dot] ∧ f.name ≠ [dot, dot])
    (hdistinct : (files.map fun f => f.name.take DIRSIZ).Nodup)
    (hmax : ∀ f ∈ files, f.bytes.length ≤ MAXFILE * BSIZE) (hinodes : files.length + 1 < NINODES)
    (htotal : total (planOf files) ≤ FSSIZE) :
    ∃ img, (main files).run blank = .ok ((), img) ∧ fsinit img.data = some sb ∧
      (∀ f ∈ files, ∀ off n : UInt32, off.toNat + n.toNat < 2 ^ 32 →
        wp (fun _ => False) (readFile sb f.name off n) (fun r _ =>
          r = some ((((f.bytes.drop off.toNat).take n.toNat).length : Int),
            (f.bytes.drop off.toNat).take n.toNat)) (boot img)) ∧
      ∀ name, (0 : UInt8) ∉ name → name ≠ [dot] → name ≠ [dot, dot] →
        (∀ f ∈ files, name.take DIRSIZ ≠ f.name.take DIRSIZ) → ∀ off n : UInt32,
        wp (fun e => e = .outOfBlocks ∧ Full files) (readFile sb name off n) (fun r _ => r = none)
          (boot img) := by
  obtain ⟨img, hrun⟩ := exists_run hinodes (not_fails hinodes hreads
    (fun f hf => slash_notMem_shortname (hname f hf).1) hmax htotal)
  have h := finished_of_run hrun hinodes
  refine ⟨img, hrun, fsinit_superblock h.super, fun f hf off n hwrap => ?_,
    fun name hnul hdot hdotdot hno off n => ?_⟩
  · obtain ⟨j, hj, hjf⟩ := getElem_of_mem hf
    refine readFile_found h hinodes (List.getElem?_eq_some_iff.mpr ⟨hj, hjf⟩) ?_ off n hwrap
    rintro (_ | _ | i) nm he hnm heq
    · cases hnm
      exact (hname f hf).2.1 (eq_of_take_eq heq (by decide))
    · cases hnm
      exact (hname f hf).2.2 (eq_of_take_eq heq (by decide))
    · -- an earlier file
      replace hnm : (files.map HostFile.name)[i]? = some nm := hnm
      have hi : i < files.length := by omega
      rw [List.getElem?_map, List.getElem?_eq_getElem hi] at hnm
      cases hnm
      have hlen := @length_map _ _ files fun f => f.name.take DIRSIZ
      have hinj : (files.map fun f => f.name.take DIRSIZ)[i] = (files.map fun f => f.name.take DIRSIZ)[j]
        ↔ i = j := hdistinct.getElem_inj_iff
      simp only [getElem_map, hjf] at hinj
      have := hinj.mp heq.symm
      omega
  · refine readFile_missing h hinodes hnul (fun nm hnm => ?_) off n
    rcases mem_cons.mp hnm with rfl | hnm
    · exact fun heq => hdot (eq_of_take_eq heq (by decide))
    · rcases mem_cons.mp hnm with rfl | hnm
      · exact fun heq => hdotdot (eq_of_take_eq heq (by decide))
      · obtain ⟨f, hf, rfl⟩ := mem_map.mp hnm
        exact hno f hf

/-- `user/_cat`, read in two pieces. -/
def catFile : HostFile where
  path := userDir ++ [underscore, 99, 97, 116]
  noNul := by decide
  reads := some [⟨[7, 8], by decide, by decide⟩, ⟨[9], by decide, by decide⟩]

theorem mkfs_image_agrees_cat : ∃ img, (main [catFile]).run blank = .ok ((), img) ∧
    wp (fun _ => False) (readFile sb [99, 97, 116] 1 5) (fun r _ => r = some (2, [8, 9]))
      (boot img) := by
  have hname : catFile.name = [99, 97, 116] := by decide
  have hall : ∀ {P : HostFile → Prop}, P catFile → ∀ f ∈ [catFile], P f := by
    intro P hP f hf
    rw [mem_singleton.mp hf]
    exact hP
  obtain ⟨img, hrun, -, hfiles, -⟩ := mkfs_image_agrees [catFile] (hall (by decide)) (hall (by decide))
    (nodup_singleton _) (hall (by decide)) (by decide) (by rw [total_planOf]; decide)
  have hread := hfiles catFile (mem_singleton_self _) 1 5 (by decide)
  rw [hname] at hread
  exact ⟨img, hrun, hread⟩

end Mkfs

end Xv6
