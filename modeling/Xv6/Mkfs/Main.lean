import Xv6.Mkfs.Files

/-!
# The image `mkfs` writes

`main` lays the given files out, rounds the size of the root directory up and writes the bitmap. It
numbers the inodes without looking whether there are so many.
-/

namespace Xv6

open Prog Vol Function List

namespace Mkfs

/-! ### The files -/

def plainNode (content : List UInt8) : Node := ⟨T_FILE, by decide, content⟩

def fileNode (f : HostFile) : Node := plainNode f.bytes

def rootNode (content : List UInt8) : Node := ⟨T_DIR, by decide, content⟩

/-- The entries of the given files; the first gets inode 2. -/
def entriesOf (files : List HostFile) : List UInt8 :=
  files.zipIdx.flatMap fun x => direntOf (x.2 + 2) x.1.name

/-- The files of the image: the root directory with its entries, then the given files. -/
def planOf (files : List HostFile) : List Node :=
  rootNode (rootEntries ++ entriesOf files) :: files.map fileNode

theorem length_planOf (files : List HostFile) : (planOf files).length = files.length + 1 := by
  unfold planOf
  rw [length_cons, length_map]

theorem entriesOf_append (files : List HostFile) (f : HostFile) :
    entriesOf (files ++ [f]) = entriesOf files ++ direntOf (files.length + 2) f.name := by
  unfold entriesOf
  rw [zipIdx_append, flatMap_append]
  simp

theorem length_direntOf (inum : Nat) (name : List UInt8) : (direntOf inum name).length = DESIZE :=
  Dirent.length_bytes (length_strncpy ..)

theorem length_entriesOf (files : List HostFile) :
    (rootEntries ++ entriesOf files).length = (files.length + 2) * DESIZE := by
  have hroot : rootEntries.length = 2 * DESIZE := by decide
  induction files using List.reverseRecOn with
  | nil => exact hroot
  | append_singleton files f ih =>
    rw [entriesOf_append, ← append_assoc, length_append, ih, length_direntOf,
      length_append, length_singleton]
    ring

theorem root_lt {n : Nat} (hn : n + 1 < sb.ninodes) : (n + 2) * DESIZE < 4 * BSIZE := by
  have hninodes : sb.ninodes = 200 := rfl
  rw [show DESIZE = 16 from rfl, BSIZE]
  omega

def Fails (files : List HostFile) : Quit → Prop
  | .noFile => ∃ f ∈ files, f.reads = none
  | .slash => ∃ f ∈ files, slash ∈ f.shortname
  | .read => FSSIZE < total (planOf files)
  | .maxfile => ∃ x ∈ planOf files, MAXFILE * BSIZE < x.content.length
  | .rootino | .used => False

theorem total_planOf (files : List HostFile) :
    total (planOf files) = nmeta + need (rootEntries ++ entriesOf files).length
      + (files.map fun f => need f.bytes.length).sum := by
  unfold total planOf
  rw [map_cons, sum_cons, map_map, Nat.add_assoc]
  rfl

theorem Fails.mono {done rest : List HostFile} {e : Quit} (h : Fails done e) :
    Fails (done ++ rest) e := by
  have hroot : (rootEntries ++ entriesOf done).length
      ≤ (rootEntries ++ entriesOf (done ++ rest)).length := by
    rw [length_entriesOf, length_entriesOf, length_append]
    exact Nat.mul_le_mul_right _ (by omega)
  cases e with
  | noFile =>
    obtain ⟨f, hf, hnone⟩ := h
    exact ⟨f, mem_append_left _ hf, hnone⟩
  | slash =>
    obtain ⟨f, hf, hslash⟩ := h
    exact ⟨f, mem_append_left _ hf, hslash⟩
  | read =>
    have hneed := need_mono hroot
    have hmany : FSSIZE < total (planOf done) := h
    show FSSIZE < total (planOf (done ++ rest))
    rw [total_planOf] at hmany ⊢
    rw [map_append, sum_append]
    omega
  | maxfile =>
    obtain ⟨x, hx, hmax⟩ := h
    rcases mem_cons.mp hx with rfl | hx
    · exact ⟨_, mem_cons_self .., hmax.trans_le hroot⟩
    · refine ⟨x, mem_cons_of_mem _ ?_, hmax⟩
      rw [map_append]
      exact mem_append_left _ hx
  | rootino | used => exact h

/-! ### The loop over the arguments -/

section Files

variable {s : Image}

theorem iappend_last {plan : List Node} {x : Node} (h : Holds s (plan ++ [x])) (p : List UInt8) :
    wp (fun e => e = .read ∧ FSSIZE < total (plan ++ [x.append p]) ∨
        e = .maxfile ∧ MAXFILE * BSIZE < (x.append p).content.length)
      (iappend (plan.length + 1) p) (fun _ s' => Holds s' (plan ++ [x.append p])) s := by
  have hspec := iappend_spec h List.getElem?_concat_length p
  have hset : (plan ++ [x]).set plan.length (x.append p) = plan ++ [x.append p] := by
    rw [set_append_right _ _ le_rfl, Nat.sub_self]
    rfl
  rwa [hset] at hspec

theorem addFile_spec {done : List HostFile} (h : Holds s (planOf done)) (f : HostFile)
    (hroom : done.length + 2 < sb.ninodes) :
    wp (Fails (done ++ [f])) (addFile ROOTINO f) (fun _ s' => Holds s' (planOf (done ++ [f]))) s := by
  have hf : f ∈ done ++ [f] := mem_append_right _ (mem_singleton_self f)
  have hlen := length_planOf done
  unfold addFile
  rw [wp_ite]
  refine ⟨fun hslash => ⟨f, hf, hslash⟩, fun _ => ?_⟩
  cases hreads : f.reads with
  | none => exact ⟨f, hf, hreads⟩
  | some chunks =>
    dsimp only
    rw [wp_bind]
    refine (ialloc_spec h (by omega) (by decide)).call ?_
    rintro inum s1 ⟨rfl, h1⟩
    rw [hlen, wp_bind]
    -- the entry in the root directory
    set base := rootNode (rootEntries ++ entriesOf (done ++ [f])) :: done.map fileNode with hbase
    have hfinal : base ++ [fileNode f] = planOf (done ++ [f]) := by
      rw [hbase, planOf, map_append]
      rfl
    have hbaselen : base.length = done.length + 1 := by rw [hbase, length_cons, length_map]
    -- a part of the file takes no more blocks
    have hpart : ∀ {c : List UInt8}, c.length ≤ f.bytes.length →
        total (base ++ [plainNode c]) ≤ total (planOf (done ++ [f])) := by
      intro c hle
      rw [← hfinal, total_append, total_append]
      exact Nat.add_le_add_left (need_mono hle) _
    have hplan : (planOf done ++ [plainNode []]).set 0 ((rootNode (rootEntries ++ entriesOf done)).append
        (direntOf (done.length + 1 + 1) f.name)) = base ++ [plainNode []] := by
      rw [hbase, entriesOf_append, ← append_assoc]
      rfl
    refine (iappend_spec h1 (j := 0) rfl (direntOf (done.length + 1 + 1) f.name)).mono
      (fun _ s2 h2 => ?_) fun e he => ?_
    · replace h2 : Holds s2 (base ++ [plainNode []]) := hplan ▸ h2
      have hspec := wp.forM (l := chunks) (f := fun c => iappend (done.length + 1 + 1) c.bytes)
        (E := Fails (done ++ [f])) (s := s2)
        (I := fun rest s => ∃ c, c ++ (rest.map Chunk.bytes).flatten = f.bytes ∧
          Holds s (base ++ [plainNode c])) ?_ ⟨[], ?_, h2⟩
      · refine hspec.call ?_
        rintro _ s' ⟨c, hc, hs'⟩
        rw [← hfinal]
        obtain rfl : c = f.bytes := by rw [← hc]; exact (append_nil c).symm
        exact hs'
      · rintro c rest s3 ⟨acc, hacc, hs3⟩
        have hle : (acc ++ c.bytes).length ≤ f.bytes.length := by
          rw [← hacc, map_cons, flatten_cons, ← append_assoc]
          exact (prefix_append ..).length_le
        have hlast := iappend_last hs3 c.bytes
        rw [hbaselen] at hlast
        refine hlast.mono (fun _ s' hs' => ⟨acc ++ c.bytes, ?_, hs'⟩) fun e he => ?_
        · rw [← hacc, append_assoc]
          rfl
        · rcases he with ⟨rfl, hmany⟩ | ⟨rfl, hmax⟩
          · exact hmany.trans_le (hpart hle)
          · refine ⟨fileNode f, ?_, hmax.trans_le hle⟩
            rw [← hfinal]
            exact mem_append_right _ (mem_singleton_self _)
      · unfold HostFile.bytes
        rw [hreads]
        rfl
    · rcases he with ⟨rfl, hmany⟩ | ⟨rfl, hmax⟩
      · replace hmany : FSSIZE < total (base ++ [plainNode []]) := hplan ▸ hmany
        exact hmany.trans_le (hpart (Nat.zero_le _))
      · refine ⟨rootNode (rootEntries ++ entriesOf (done ++ [f])), mem_cons_self .., ?_⟩
        rw [entriesOf_append, ← append_assoc]
        exact hmax

theorem addFiles_spec (files : List HostFile) {done : List HostFile} (h : Holds s (planOf done))
    (hroom : (done ++ files).length + 1 < sb.ninodes) :
    wp (Fails (done ++ files)) (files.forM (addFile ROOTINO))
      (fun _ s' => Holds s' (planOf (done ++ files))) s := by
  induction files generalizing s done with
  | nil =>
    rw [append_nil]
    exact h
  | cons f rest ih =>
    have hsplit : done ++ f :: rest = (done ++ [f]) ++ rest := by
      rw [append_assoc]
      rfl
    show wp _ (addFile ROOTINO f >>= fun _ => rest.forM (addFile ROOTINO)) _ s
    rw [hsplit] at hroom ⊢
    rw [wp_bind]
    have hlen : done.length + 2 < sb.ninodes := by
      simp only [length_append, length_singleton] at hroom
      omega
    exact (addFile_spec h f hlen).mono (fun _ s1 h1 => ih h1 hroom) fun e he => he.mono

end Files

/-! ### Before the first file -/

theorem writeZeroes_spec (n : Nat) {E : Quit → Prop} :
    wp E (writeZeroes n) (fun _ s => s = { blank with len := n }) blank := by
  unfold writeZeroes
  refine (wp.forM (I := fun rest s => ∃ k, k ≤ n ∧ rest = List.range' k (n - k) ∧
    s = { blank with len := k }) ?_ ⟨0, Nat.zero_le _, range_eq_range', rfl⟩).call ?_
  · rintro i rest s ⟨k, hk, hrest, hs⟩
    cases hn : n - k with
    | zero =>
      rw [hn] at hrest
      cases hrest
    | succ m =>
      rw [hn, range'_succ] at hrest
      cases hrest
      rw [wp_wsect]
      refine ⟨i + 1, by omega, by congr 1; omega, ?_⟩
      rw [hs]
      simp [blank]
  · rintro - s ⟨k, hk, hrest, hs⟩
    have hn := congrArg List.length hrest
    rw [length_nil, length_range'] at hn
    obtain rfl : k = n := by omega
    exact hs

theorem holds_nil {s₀ s : Image} (hs0 : s₀ = { blank with len := FSSIZE })
    (hs : s = { s₀ with data := update s₀.data 1 superblock, len := max s₀.len 2 }) :
    Holds s [] := by
  rw [hs0] at hs
  have hdata : ∀ b, b ≠ 1 → s.data b = Block.zero := fun b hb => by
    rw [hs]
    exact update_of_ne hb ..
  have hino : ∀ i, s.vol.ino i = Dinode.zero := by
    intro i
    show (if i < sb.ninodes then (s.data (sb.IBLOCK i)).dinode (i % IPB) else Dinode.zero) = _
    have hge : 32 ≤ sb.IBLOCK i := Nat.le_add_left ..
    rw [hdata _ (by omega), dinode_zero, ite_self]
  have hnone : ∀ i, ¬ s.vol.Alloc sb i := by
    rintro i ⟨-, htype⟩
    rw [hino] at htype
    exact htype rfl
  exact {
    len := by rw [hs]; rfl
    super := by
      rw [hs]
      simp only [update_self]
    free := by rw [hs]; decide
    fresh := fun b hb => hdata b (by
      rw [hs] at hb
      rintro rfl
      exact absurd hb (by decide))
    blocks := {
      data := fun i p hi => absurd hi (hnone i)
      once := fun i p j q hi => absurd hi (hnone i)
      used := fun b _ => by
        rw [show s.vol.used b = decide (b < sb.datastart) by rw [hs]; rfl]
        rw [decide_eq_true_iff]
        refine ⟨.inl, ?_⟩
        rintro (hlt | ⟨-, i, p, hi, -⟩)
        · exact hlt
        · exact absurd hi (hnone i) }
    room := by decide
    node := fun j x hj => by cases hj
    rest := fun i _ => hino i
    freeinode := by rw [hs]; rfl
    freeblock := by rw [hs]; rfl }

/-! ### Behind the last file -/

def rounded (size : Nat) : Nat := (size / BSIZE + 1) * BSIZE

theorem rounded_le {n : Nat} (hn : n + 1 < sb.ninodes) : rounded ((n + 2) * DESIZE) ≤ 4 * BSIZE :=
  Nat.mul_le_mul_right _ (Nat.div_lt_of_lt_mul (Nat.mul_comm 4 BSIZE ▸ root_lt hn))

structure Finished (files : List HostFile) (img : Image) : Prop where
  super : img.data 1 = superblock
  bitmap : img.data sb.bmapstart = bitmap img.freeblock
  free : img.freeblock ≤ FSSIZE
  freeinode : img.freeinode = files.length + 2
  blocks : (volOf sb img.data).Blocks sb ∅
  used : ∀ b, b < sb.size → (volOf sb img.data).used b = decide (b < img.freeblock)
  rootType : ((volOf sb img.data).ino ROOTINO).type = T_DIR
  rootLink : ((volOf sb img.data).ino ROOTINO).nlink = 1
  rootSize : (volOf sb img.data).size ROOTINO = rounded ((files.length + 2) * DESIZE)
  rootFills : (volOf sb img.data).Fills ROOTINO ((files.length + 2) * DESIZE)
  rootBytes : ∀ o, (volOf sb img.data).fileByte ROOTINO o = (rootEntries ++ entriesOf files).getD o 0
  node : ∀ j f, files[j]? = some f → NodeAt (volOf sb img.data) (j + 2) (fileNode f)
  rest : ∀ i, i = 0 ∨ files.length + 1 < i → (volOf sb img.data).ino i = Dinode.zero
  freeblock : img.freeblock = total (planOf files)

theorem volOf_bitmap (data : Nat → Block) (n : Nat) :
    volOf sb (update data sb.bmapstart (bitmap n))
      = { volOf sb data with used := fun b => if b < sb.size then decide (b < n) else true } := by
  unfold volOf
  simp only [Vol.mk.injEq]
  refine ⟨?_, ?_, ?_⟩
  · funext i
    split
    · rename_i hi
      unfold diskInode
      rw [update_of_ne (layout.iblock_lt hi).ne]
    · rfl
  · funext b
    split
    · rename_i hb
      have hBPB : b < BPB := hb.trans (by decide)
      rw [diskBit, Superblock.BBLOCK, Nat.div_eq_of_lt hBPB, Nat.zero_add, update_self,
        Nat.mod_eq_of_lt hBPB, bit_bitmap n hBPB]
    · rfl
  · funext b
    split
    · rename_i hb
      have hlt : sb.bmapstart < sb.datastart := by decide
      rw [update_of_ne (hlt.trans_le hb).ne']
    · rfl

theorem blocks_reused {v : Vol} {F : Set Nat} (h : v.Blocks sb F) {u : Nat → Bool}
    (hused : ∀ b, b < sb.size → u b = v.used b) : Vol.Blocks sb { v with used := u } F where
  __ := h
  used b hb := by
    show u b = true ↔ _
    rw [hused b hb]
    exact h.used b hb

theorem Holds.finish {s img : Image} {files : List HostFile} (h : Holds s (planOf files))
    (hinodes : files.length + 1 < sb.ninodes) {d : Dinode}
    (hd : d = { s.vol.ino ROOTINO with size := UInt32.ofNat (rounded (s.vol.size ROOTINO)) })
    (hdata : img.data = update (s.setInode ROOTINO d).data sb.bmapstart (bitmap s.freeblock))
    (hfreeblock : img.freeblock = s.freeblock) (hfreeinode : img.freeinode = s.freeinode) :
    Finished files img := by
  have hroot : ROOTINO < sb.ninodes := by decide
  have hnode := h.node 0 _ rfl
  have hsize : s.vol.size ROOTINO = (files.length + 2) * DESIZE := by
    rw [← length_entriesOf]
    exact hnode.size
  set v := volOf sb img.data with hv
  have hvol : v = { s.vol.setIno ROOTINO d with
      used := fun b => if b < sb.size then decide (b < s.freeblock) else true } := by
    rw [hv, hdata, volOf_bitmap, ← Image.vol_setInode hroot]
    rfl
  have haddrs : d.addrs = (s.vol.ino ROOTINO).addrs := by rw [hd]
  have htype : d.type = (s.vol.ino ROOTINO).type := by rw [hd]
  have hused : ∀ b, b < sb.size → v.used b = decide (b < s.freeblock) := by
    intro b hb
    rw [hvol]
    exact if_pos hb
  have hself : v.ino ROOTINO = d := by rw [hvol]; exact ino_setIno s.vol ROOTINO d
  have hother : ∀ k, k ≠ ROOTINO → v.ino k = s.vol.ino k := by
    intro k hk
    rw [hvol]
    exact update_of_ne hk ..
  have haddr : ∀ k q, v.addr k q = s.vol.addr k q := by
    intro k q
    rw [hvol]
    exact addr_setIno haddrs k q
  have hbyte : ∀ k o, v.fileByte k o = s.vol.fileByte k o := by
    intro k o
    rw [hvol]
    show ((s.vol.setIno ROOTINO d).blk k (o / BSIZE)).byte (o % BSIZE) = _
    rw [blk_setIno haddrs]
    rfl
  exact {
    super := by
      rw [hdata, update_of_ne (by decide), Image.data_setInode hroot d (.inl rfl)]
      exact h.super
    bitmap := by rw [hdata, update_self, hfreeblock]
    free := hfreeblock ▸ h.free
    freeinode := by rw [hfreeinode, h.freeinode, length_planOf]
    blocks := by
      have hset : (s.vol.setIno ROOTINO d).Blocks sb ∅ := by
        refine h.blocks.congr layout (fun b _ k q => ?_) rfl
        rw [addr_setIno haddrs, alloc_congr (type_setIno htype)]
      show v.Blocks sb ∅
      rw [hvol]
      exact blocks_reused hset fun b hb => if_pos hb
    used := fun b hb => by rw [hused b hb, hfreeblock]
    rootType := by rw [hself, htype]; exact hnode.type
    rootLink := by rw [hself, hd]; exact hnode.nlink
    rootSize := by
      rw [Vol.size, hself, hd, hsize]
      exact UInt32.toNat_ofNat_of_lt' ((rounded_le hinodes).trans_lt (by decide))
    rootFills := by
      have hfills := hnode.fills
      rw [show (rootNode (rootEntries ++ entriesOf files)).content.length
        = (files.length + 2) * DESIZE from length_entriesOf files] at hfills
      exact hfills.congr (haddr _)
    rootBytes := fun o => (hbyte _ o).trans (hnode.bytes o)
    node := fun j f hj => by
      have hmap : (planOf files)[j + 1]? = some (fileNode f) := by
        show (files.map fileNode)[j]? = _
        rw [List.getElem?_map, hj]
        rfl
      have hne : j + 2 ≠ ROOTINO := by simp only [ROOTINO]; omega
      exact (h.node _ _ hmap).congr (hother _ hne) (haddr _) (hbyte _)
    rest := fun i hi => by
      have hne : i ≠ ROOTINO := by simp only [ROOTINO]; omega
      rw [hother i hne]
      exact h.rest i (by rw [length_planOf]; exact hi)
    freeblock := hfreeblock.trans h.freeblock }

theorem roundRoot_spec {s : Image} {files : List HostFile} (h : Holds s (planOf files))
    (hinodes : files.length + 1 < sb.ninodes) {E : Quit → Prop} :
    wp E (roundRoot ROOTINO >>= fun _ => get >>= fun t => balloc t.freeblock)
      (fun _ img => Finished files img) s := by
  have hlen := h.iblock_lt (i := ROOTINO) (by decide)
  unfold roundRoot
  rw [wp_bind, wp_bind, wp_rinode (by decide) hlen, wp_winode hlen, wp_bind, wp_get]
  unfold balloc
  rw [wp_ite]
  refine ⟨fun _ => ?_, fun hmany => absurd (h.free.trans_lt (by decide)) hmany⟩
  rw [wp_wsect]
  exact h.finish hinodes rfl rfl rfl rfl

theorem build_spec (files : List HostFile) (hroom : files.length + 1 < sb.ninodes) {s : Image}
    (h : Holds s []) : wp (Fails files) (build files) (fun _ img => Finished files img) s := by
  -- appending "." or ".." may only fail as it may with the whole root directory
  have hfail : ∀ {p : List UInt8} {e : Quit}, p.length ≤ rootEntries.length →
      e = .read ∧ FSSIZE < total [rootNode p] ∨ e = .maxfile ∧ MAXFILE * BSIZE < p.length →
      Fails files e := by
    intro p e hp he
    have hmono : Fails [] e → Fails files e := Fails.mono
    rcases he with ⟨rfl, hmany⟩ | ⟨rfl, hmax⟩
    · exact hmono (hmany.trans_le (Nat.add_le_add_left (need_mono hp) _))
    · exact hmono ⟨rootNode rootEntries, mem_singleton_self _, hmax.trans_le hp⟩
  unfold build
  rw [wp_bind]
  refine (ialloc_spec h (by decide) (by decide)).call ?_
  rintro i s1 ⟨rfl, h1⟩
  rw [wp_ite]
  refine ⟨fun _ => ?_, fun hne => absurd rfl hne⟩
  rw [wp_bind]
  refine (iappend_last h1 (direntOf ROOTINO [dot])).mono (fun _ s2 h2 => ?_) fun e => hfail (by decide)
  rw [wp_bind]
  refine (iappend_last h2 (direntOf ROOTINO [dot, dot])).mono (fun _ s3 h3 => ?_)
    fun e => hfail (by decide)
  rw [wp_bind]
  have hnone : Holds s3 (planOf []) := h3
  exact (addFiles_spec files hnone hroom).call fun _ s4 h4 => roundRoot_spec h4 hroom

/-- `main` writes the files of the plan, or ends because of one of the arguments. -/
theorem main_spec (files : List HostFile) (hroom : files.length + 1 < sb.ninodes) :
    wp (Fails files) (main files) (fun _ img => Finished files img) blank := by
  unfold main
  rw [wp_bind]
  refine (writeZeroes_spec FSSIZE).call fun _ s hs => ?_
  rw [wp_bind, wp_wsect]
  exact build_spec files hroom (holds_nil hs rfl)

/-! ### The number of inodes

`ialloc` does not compare `freeinode` with `NINODES`. What `main` leaves in it is therefore known
without assuming that there is room: only `ialloc` changes it, and it is called once for each file. -/

section Inodes

theorem rsect_inodes (sec : Nat) : Fixes Image.freeinode (rsect sec) := by
  refine ⟨fun s => ?_⟩
  rw [wp_rsect]
  exact ⟨fun _ => rfl, fun _ => trivial⟩

theorem wsect_inodes (sec : Nat) (buf : Block) : Fixes Image.freeinode (wsect sec buf) :=
  ⟨fun _ => rfl⟩

theorem winode_inodes (inum : Nat) (ip : Dinode) : Fixes Image.freeinode (winode inum ip) :=
  (rsect_inodes _).bind fun _ => wsect_inodes ..

theorem rinode_inodes (inum : Nat) : Fixes Image.freeinode (rinode inum) :=
  (rsect_inodes _).bind fun _ => .pure _

theorem nextBlock_inodes : Fixes Image.freeinode nextBlock := ⟨fun _ => rfl⟩

theorem appendAddr_inodes (din : Dinode) (j : Fin (NDIRECT + 1)) :
    Fixes Image.freeinode (appendAddr din j) :=
  .ite (nextBlock_inodes.bind fun _ => .pure _) (.pure _)

theorem appendBlock_inodes (din : Dinode) (fbn : Nat) :
    Fixes Image.freeinode (appendBlock din fbn) := by
  unfold appendBlock
  split
  · exact (appendAddr_inodes ..).bind fun _ => .pure _
  · refine (appendAddr_inodes ..).bind fun _ => .bind ?_ fun _ => .pure _
    exact (rsect_inodes _).bind fun _ =>
      .ite (nextBlock_inodes.bind fun _ => (wsect_inodes ..).bind fun _ => .pure _) (.pure _)

theorem iappend_inodes (inum : Nat) (p : List UInt8) : Fixes Image.freeinode (iappend inum p) := by
  have hloop : ∀ fuel din off p, Fixes Image.freeinode (iappendLoop fuel din off p) := by
    intro fuel
    induction fuel with
    | zero => exact fun _ _ _ => .pure _
    | succ fuel ih =>
      intro din off p
      refine .ite (.ite ?_ (.throw _)) (.pure _)
      exact (appendBlock_inodes ..).bind fun _ => (rsect_inodes _).bind fun _ =>
        (wsect_inodes ..).bind fun _ => ih ..
  exact (rinode_inodes _).bind fun _ => (hloop ..).bind fun _ => winode_inodes ..

theorem ialloc_inodes (type : Int16) (s : Image) :
    wp (fun _ => True) (ialloc type) (fun _ s' => s'.freeinode = s.freeinode + 1) s := by
  show wp _ (winode s.freeinode _ >>= fun _ => pure s.freeinode) _ { s with freeinode := s.freeinode + 1 }
  rw [wp_bind]
  exact (winode_inodes ..).spec _

theorem addFile_inodes (rootino : Nat) (f : HostFile) (s : Image) :
    wp (fun _ => True) (addFile rootino f) (fun _ s' => s'.freeinode = s.freeinode + 1) s := by
  unfold addFile
  rw [wp_ite]
  refine ⟨fun _ => trivial, fun _ => ?_⟩
  split
  · exact trivial
  · rw [wp_bind]
    refine (ialloc_inodes T_FILE s).call fun inum s1 h1 => ?_
    rw [← h1]
    exact ((iappend_inodes ..).bind fun _ => .forM fun c => iappend_inodes ..).spec s1

theorem main_freeinode (files : List HostFile) :
    wp (fun _ => True) (main files) (fun _ img => img.freeinode = files.length + 2) blank := by
  unfold main
  rw [wp_bind]
  refine (writeZeroes_spec FSSIZE).call fun _ s hs => ?_
  rw [wp_bind, wp_wsect]
  unfold build
  rw [wp_bind]
  refine (ialloc_inodes ..).call fun i s1 h1 => ?_
  replace h1 : s1.freeinode = 2 := by rw [h1, hs]; rfl
  rw [wp_ite]
  refine ⟨fun _ => ?_, fun _ => trivial⟩
  rw [wp_bind]
  refine ((iappend_inodes ..).spec s1).call fun _ s2 h2 => ?_
  rw [wp_bind]
  refine ((iappend_inodes ..).spec s2).call fun _ s3 h3 => ?_
  rw [wp_bind]
  -- each round of the loop takes one number
  refine (wp.forM (I := fun rest s => s.freeinode + rest.length = files.length + 2)
    (fun f rest s h => (addFile_inodes i f s).call fun _ s' h' => ?_) ?_).call fun _ s4 h4 => ?_
  · rw [length_cons] at h
    omega
  · omega
  · rw [← show s4.freeinode = files.length + 2 from h4]
    have hround : Fixes Image.freeinode (roundRoot i) :=
      (rinode_inodes _).bind fun _ => winode_inodes ..
    have hballoc : ∀ used, Fixes Image.freeinode (balloc used) :=
      fun used => .ite (wsect_inodes ..) (.throw _)
    rw [wp_bind]
    refine (hround.spec s4).call fun _ s5 h5 => ?_
    rw [← h5]
    exact (hballoc s5.freeblock).spec s5

end Inodes

/-! ### Well-formedness -/

section WellFormed

variable {files : List HostFile} {img : Image}

theorem Finished.alloc (h : Finished files img) {i : Nat} (hi : (volOf sb img.data).Alloc sb i) :
    i = ROOTINO ∨ ∃ j f, files[j]? = some f ∧ i = j + 2 := by
  have hrange : ¬ (i = 0 ∨ files.length + 1 < i) := fun hout => hi.2 (by rw [h.rest i hout]; rfl)
  rcases Nat.lt_or_ge i 2 with hlt | hge
  · exact .inl (by simp only [ROOTINO]; omega)
  · have hj : i - 2 < files.length := by omega
    exact .inr ⟨i - 2, files[i - 2], List.getElem?_eq_getElem hj, by omega⟩

theorem Finished.wellFormed (h : Finished files img) (hinodes : files.length + 1 < sb.ninodes)
    (hroot : (files.length + 2) * DESIZE % BSIZE ≠ 0) : (volOf sb img.data).WellFormed sb where
  blocks := h.blocks
  covered i hi := by
    rcases h.alloc hi with rfl | ⟨j, f, hj, rfl⟩
    · rw [Vol.Covered, h.rootSize]
      refine ⟨(rounded_le hinodes).trans (by decide), fun n hn => (h.rootFills.block n).mpr ?_⟩
      -- the last block of the root directory is not full, so its end is the size
      generalize (files.length + 2) * DESIZE = size at hn hroot ⊢
      simp only [rounded, BSIZE] at hn hroot ⊢
      omega
    · have hnode := h.node j f hj
      rw [Vol.Covered, hnode.size]
      exact ⟨hnode.fills.le_max, fun n hn => (hnode.fills.block n).mpr hn⟩

theorem Finished.bit (h : Finished files img) {b : Nat} (hb : b < BPB) :
    (img.data sb.bmapstart).bit b = true ↔ b < sb.datastart ∨ (volOf sb img.data).Refd sb b := by
  rw [h.bitmap, bit_bitmap _ hb]
  by_cases hsize : b < sb.size
  · rw [← h.used b hsize, h.blocks.used b hsize]
    simp only [Set.mem_empty_iff_false, not_false_eq_true, true_and]
  · have hfree := h.free
    have hend : FSSIZE ≤ b := Nat.le_of_not_lt hsize
    rw [decide_eq_true_iff]
    refine ⟨fun hlt => absurd hlt (by omega), ?_⟩
    rintro (hmeta | ⟨i, p, hi, rfl⟩)
    · exact absurd (hmeta.trans_le layout.data) hsize
    · have hpos : 0 < FSSIZE := by decide
      exact absurd (h.blocks.data i p hi (by omega)).2 hsize

theorem finished_of_run (hrun : (main files).run blank = .ok ((), img))
    (hinodes : files.length + 1 < sb.ninodes) : Finished files img :=
  (wp_iff.mp (main_spec files hinodes)).1 () img hrun

/-- `mkfs` ends with status 0 unless there is a reason not to. -/
theorem exists_run (hinodes : files.length + 1 < sb.ninodes)
    (hfails : ∀ e, ¬ Fails files e) : ∃ img, (main files).run blank = .ok ((), img) := by
  have hspec := wp_iff.mp (main_spec files hinodes)
  cases hrun : (main files).run blank with
  | error e => exact absurd (hspec.2 e hrun) (hfails e)
  | ok r => exact ⟨r.2, rfl⟩

theorem not_fails (hinodes : files.length + 1 < sb.ninodes) (hreads : ∀ f ∈ files, f.reads ≠ none)
    (hslash : ∀ f ∈ files, slash ∉ f.shortname)
    (hmax : ∀ f ∈ files, f.bytes.length ≤ MAXFILE * BSIZE) (htotal : total (planOf files) ≤ FSSIZE)
    (e : Quit) : ¬ Fails files e := by
  cases e with
  | noFile =>
    rintro ⟨f, hf, hnone⟩
    exact hreads f hf hnone
  | slash =>
    rintro ⟨f, hf, hmem⟩
    exact hslash f hf hmem
  | read => exact htotal.not_gt
  | maxfile =>
    rintro ⟨x, hx, hlt⟩
    rcases mem_cons.mp hx with rfl | hx
    · replace hlt : MAXFILE * BSIZE < (rootEntries ++ entriesOf files).length := hlt
      rw [length_entriesOf] at hlt
      exact (hlt.trans (root_lt hinodes)).not_ge (by decide)
    · obtain ⟨f, hf, rfl⟩ := mem_map.mp hx
      exact (hmax f hf).not_gt hlt
  | rootino | used => exact id

/-- If the entries of the root directory fill its blocks, its size takes one block more than it
has. -/
theorem Finished.not_covered (h : Finished files img)
    (hroot : (files.length + 2) * DESIZE % BSIZE = 0) : ¬ (volOf sb img.data).Covered ROOTINO := by
  rintro ⟨-, hcovered⟩
  have hrounded : (files.length + 2) * DESIZE / BSIZE * BSIZE
      < rounded ((files.length + 2) * DESIZE) :=
    Nat.mul_lt_mul_of_pos_right (Nat.lt_succ_self _) (by decide)
  rw [← h.rootSize] at hrounded
  have hblock := (h.rootFills.block _).mp (hcovered _ hrounded)
  rw [Nat.div_mul_cancel (Nat.dvd_of_mod_eq_zero hroot)] at hblock
  exact absurd hblock (lt_irrefl _)

/-- When `mkfs` ends with status 0, the image is well formed exactly if there are fewer than
`NINODES` inodes and the entries of the root directory do not end at the end of a block. Otherwise
either `freeinode` has passed the end of the inode table, or the root directory is a block longer
than the blocks it has. -/
theorem mkfs_well_formed (hrun : (main files).run blank = .ok ((), img)) :
    (img.freeinode ≤ sb.ninodes ∧ img.freeblock ≤ sb.size ∧ (volOf sb img.data).WellFormed sb ∧
      (∀ b, b < BPB → ((img.data sb.bmapstart).bit b = true ↔
        b < sb.datastart ∨ (volOf sb img.data).Refd sb b)) ∧
      ∀ i, img.freeinode ≤ i → (volOf sb img.data).ino i = Dinode.zero) ↔
    files.length + 1 < NINODES ∧ (files.length + 2) * DESIZE % BSIZE ≠ 0 := by
  have hfreeinode := (wp_iff.mp (main_freeinode files)).1 () img hrun
  constructor
  · rintro ⟨hroom, -, hformed, -⟩
    rw [hfreeinode] at hroom
    have h := finished_of_run hrun hroom
    refine ⟨hroom, fun hroot => h.not_covered hroot (hformed.covered ROOTINO ⟨by decide, ?_⟩)⟩
    rw [h.rootType]
    decide
  · rintro ⟨hinodes, hroot⟩
    have h := finished_of_run hrun hinodes
    refine ⟨hfreeinode.trans_le hinodes, h.free, h.wellFormed hinodes hroot, fun b hb => h.bit hb,
      fun i hi => ?_⟩
    rw [h.freeinode] at hi
    exact h.rest i (.inr (by omega))

def emptyFile : HostFile := ⟨[97], by decide, some []⟩

/-- A file `user/_b`, of which two calls of `read` return five bytes. -/
def textFile : HostFile :=
  ⟨userDir ++ [underscore, 98], by decide,
    some [⟨[104, 101, 108], by decide, by decide⟩, ⟨[108, 111], by decide, by decide⟩]⟩

theorem mkfs_well_formed_two : ∃ img, (main [textFile, emptyFile]).run blank = .ok ((), img) ∧
    img.freeinode = 4 ∧ img.freeblock = nmeta + 2 ∧ (volOf sb img.data).WellFormed sb := by
  obtain ⟨img, hrun⟩ : ∃ img, (main [textFile, emptyFile]).run blank = .ok ((), img) :=
    exists_run (by decide) (not_fails (by decide) (by decide) (by decide) (by decide) (by decide))
  have h := finished_of_run hrun (by decide)
  exact ⟨img, hrun, h.freeinode, h.freeblock, ((mkfs_well_formed hrun).mpr ⟨by decide, by decide⟩).2.2.1⟩

end WellFormed

theorem total_replicate (n : Nat) :
    total (planOf (List.replicate n emptyFile)) = nmeta + need ((n + 2) * DESIZE) := by
  have hneed : need emptyFile.bytes.length = 0 := by decide
  rw [total_planOf, length_entriesOf, map_replicate, sum_replicate, hneed,
    length_replicate, smul_zero]
  rfl

theorem run_replicate (n : Nat) (hn : n + 1 < sb.ninodes) :
    ∃ img, (main (List.replicate n emptyFile)).run blank = .ok ((), img) := by
  have hlen : (List.replicate n emptyFile).length + 1 < sb.ninodes := by
    rw [length_replicate]
    exact hn
  have hall : ∀ {P : HostFile → Prop}, P emptyFile → ∀ f ∈ List.replicate n emptyFile, P f := by
    intro P hP f hf
    rw [eq_of_mem_replicate hf]
    exact hP
  refine exists_run hlen (not_fails hlen (hall ?_) (hall ?_) (hall ?_) ?_)
  · decide
  · decide
  · decide
  · rw [total_replicate]
    have hmono : need ((n + 2) * DESIZE) ≤ need (4 * BSIZE) := need_mono (root_lt hn).le
    exact (Nat.add_le_add_left hmono _).trans (by decide)

/-- With 62 files the root directory has 64 entries, which fill its only block. Its size is then
rounded up to two blocks. -/
theorem root_not_covered : ∃ img, (main (List.replicate 62 emptyFile)).run blank = .ok ((), img) ∧
    1 * BSIZE < (volOf sb img.data).size ROOTINO ∧
    (volOf sb img.data).addr ROOTINO (place 1) = 0 := by
  obtain ⟨img, hrun⟩ := run_replicate 62 (by decide)
  have h := finished_of_run hrun (by decide)
  refine ⟨img, hrun, ?_, ?_⟩
  · rw [h.rootSize]
    decide
  · by_contra hne
    exact absurd ((h.rootFills.block 1).mp hne) (by decide)

end Mkfs

end Xv6
