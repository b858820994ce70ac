import Xv6.Mkfs.Image
import Xv6.Fs.Entries

/-!
# `iappend`

`iappend` extends the content of an inode. It works on its own copy of the inode, which is ahead
of the image's until the end.
-/

namespace Xv6

open Prog Vol Function

/-- Inode `i` has exactly the blocks a file of `size` bytes needs. -/
structure Vol.Fills (v : Vol) (i size : Nat) : Prop where
  block : ∀ n, v.addr i (place n) ≠ 0 ↔ n * BSIZE < size
  indirect : v.addr i NDIRECT ≠ 0 ↔ NDIRECT * BSIZE < size

namespace Vol.Fills

variable {v v' : Vol} {i size : Nat}

theorem same (h : v.Fills i size) (hmod : size % BSIZE ≠ 0) : v.Fills i (size + 1) where
  block n := by
    rw [h.block]
    simp only [BSIZE] at hmod ⊢
    omega
  indirect := by
    rw [h.indirect]
    simp only [BSIZE, NDIRECT] at hmod ⊢
    omega

theorem next (h : v.Fills i size) (hmod : size % BSIZE = 0)
    (hblock : ∀ n, v'.addr i (place n) ≠ 0 ↔ v.addr i (place n) ≠ 0 ∨ n = size / BSIZE)
    (hind : v'.addr i NDIRECT ≠ 0 ↔ v.addr i NDIRECT ≠ 0 ∨ size = NDIRECT * BSIZE) :
    v'.Fills i (size + 1) where
  block n := by
    rw [hblock, h.block]
    simp only [BSIZE] at hmod ⊢
    omega
  indirect := by
    rw [hind, h.indirect]
    simp only [BSIZE, NDIRECT] at hmod ⊢
    omega

theorem within (h : v.Fills i (size + 1)) {n : Nat} (hn : 0 < n)
    (hle : n ≤ (size / BSIZE + 1) * BSIZE - size) : v.Fills i (size + n) where
  block m := by
    rw [h.block]
    simp only [BSIZE] at hle ⊢
    omega
  indirect := by
    rw [h.indirect]
    simp only [BSIZE, NDIRECT] at hle ⊢
    omega

theorem le_max (h : v.Fills i size) : size ≤ MAXFILE * BSIZE := by
  by_contra hlt
  have hne := (h.block MAXFILE).mpr (Nat.lt_of_not_le hlt)
  rw [place_indirect (by decide), addr_indirect (by omega), Nat.add_sub_cancel_left,
    Block.word_of_ge (by decide), ite_self] at hne
  exact hne rfl

theorem congr (h : v.Fills i size) (haddr : ∀ q, v'.addr i q = v.addr i q) : v'.Fills i size where
  block n := by rw [haddr, h.block]
  indirect := by rw [haddr, h.indirect]

end Vol.Fills

namespace Mkfs

/-- The number of blocks that a file of `size` bytes takes, the indirect block included. -/
def need (size : Nat) : Nat :=
  if size ≤ NDIRECT * BSIZE then (size + BSIZE - 1) / BSIZE else (size + BSIZE - 1) / BSIZE + 1

theorem need_mono {a b : Nat} (h : a ≤ b) : need a ≤ need b := by
  have hdiv : (a + BSIZE - 1) / BSIZE ≤ (b + BSIZE - 1) / BSIZE :=
    Nat.div_le_div_right (by omega)
  unfold need
  split <;> split <;> omega

theorem need_succ (off : Nat) : need (off + 1) = need off + (if off % BSIZE = 0 then 1 else 0)
    + (if off = NDIRECT * BSIZE then 1 else 0) := by
  unfold need
  split_ifs <;> simp only [BSIZE, NDIRECT] at * <;> omega

variable {off n : Nat}

theorem need_within (hn : 0 < n) (hle : n ≤ (off / BSIZE + 1) * BSIZE - off) :
    need (off + n) = need (off + 1) := by
  unfold need
  split_ifs <;> simp only [BSIZE, NDIRECT] at * <;> omega

/-! ### The volume -/

/-- The volume on the image; the blocks below `freeblock` are in use. -/
def Image.vol (s : Image) : Vol :=
  { volOf sb s.data with used := fun b => decide (b < s.freeblock) }

variable {s' : Image}

theorem Image.vol_setData {s : Image} {b : Nat} {x : Block} (hb : sb.datastart ≤ b)
    (hdata : s'.data = update s.data b x) (hfree : s'.freeblock = s.freeblock) :
    s'.vol = s.vol.setData b x := by
  unfold Image.vol
  rw [hdata, hfree, volOf_setData layout hb]
  rfl

theorem Image.vol_setDinode {s : Image} {i : Nat} {x : Dinode} (hi : i < sb.ninodes)
    (hdata : s'.data = update s.data (sb.IBLOCK i)
      ((s.data (sb.IBLOCK i)).setDinode (i % IPB) x)) (hfree : s'.freeblock = s.freeblock) :
    s'.vol = s.vol.setIno i x := by
  unfold Image.vol
  rw [hdata, hfree, volOf_setDinode layout hi]
  rfl

/-- What holds of the image while `iappend` works on inode `i` with copy `d`. -/
structure Laid (s : Image) (i : Nat) (d : Dinode) : Prop where
  len : s.len = FSSIZE
  super : s.data 1 = superblock
  free : s.freeblock ≤ FSSIZE
  fresh : ∀ b, s.freeblock ≤ b → s.data b = Block.zero
  inum : i < sb.ninodes
  type : d.type ≠ 0
  blocks : (s.vol.setIno i d).Blocks sb ∅

section Rules

variable {E : Quit → Prop} {s : Image}

theorem wp_get {Q : Image → Image → Prop} : wp E (get : MkM Image) Q s ↔ Q s s := Iff.rfl

theorem wp_wsect {sec : Nat} {buf : Block} {Q : Unit → Image → Prop} :
    wp E (wsect sec buf) Q s ↔ Q () { s with
      data := update s.data sec buf
      len := max s.len (sec + 1) } := Iff.rfl

theorem wp_nextBlock {Q : Nat → Image → Prop} :
    wp E nextBlock Q s ↔ Q s.freeblock { s with freeblock := s.freeblock + 1 } := Iff.rfl

theorem wp_rsect {sec : Nat} {Q : Block → Image → Prop} :
    wp E (rsect sec) Q s ↔ (sec < s.len → Q (s.data sec) s) ∧ (¬ sec < s.len → E .read) := by
  show wp E (if sec < s.len then pure (s.data sec) else throw .read) Q s ↔ _
  rw [wp_ite, wp_pure, wp_throw]

end Rules

section Blocks

variable {s : Image} {i : Nat} {d : Dinode}

theorem Laid.alloc (h : Laid s i d) : (s.vol.setIno i d).Alloc sb i :=
  ⟨h.inum, by
    show (update s.vol.ino i d i).type ≠ 0
    rw [update_self]
    exact h.type⟩

theorem ino_setIno (v : Vol) (i : Nat) (d : Dinode) : (v.setIno i d).ino i = d :=
  update_self ..

theorem Laid.used_lt (h : Laid s i d) {p : Nat} (hp : (s.vol.setIno i d).addr i p ≠ 0) :
    (s.vol.setIno i d).addr i p < s.freeblock :=
  of_decide_eq_true (h.blocks.used_of_addr h.alloc hp (Set.notMem_empty _))

/-- More blocks for inode `i`. -/
structure Extended (s : Image) (i : Nat) (d : Dinode) (s' : Image) (d' : Dinode) : Prop where
  laid : Laid s' i d'
  grows : Grows sb (s.vol.setIno i d) (s'.vol.setIno i d') i
  ino : s'.vol.ino = s.vol.ino
  freeinode : s'.freeinode = s.freeinode

theorem Extended.refl (h : Laid s i d) : Extended s i d s d := ⟨h, .refl .., rfl, rfl⟩

variable {d' : Dinode}

theorem Extended.trans {s'' : Image} {d'' : Dinode} (h : Extended s i d s' d')
    (h' : Extended s' i d' s'' d'') : Extended s i d s'' d'' where
  laid := h'.laid
  grows := h.grows.trans h'.grows
  ino := h'.ino.trans h.ino
  freeinode := h'.freeinode.trans h.freeinode

/-- Place `p` of the inode after it has been filled if it was empty, with its block `x`. -/
inductive Placed (s : Image) (i : Nat) (d : Dinode) (p : Nat) : Nat → Image → Dinode → Prop where
  | there (hne : (s.vol.setIno i d).addr i p ≠ 0) :
    Placed s i d p ((s.vol.setIno i d).addr i p) s d
  | new {s' : Image} {d' : Dinode} (hempty : (s.vol.setIno i d).addr i p = 0)
    (hfree : s.freeblock < FSSIZE) (hext : Extended s i d s' d')
    (hnext : s'.freeblock = s.freeblock + 1)
    (haddr : ∀ j q, (s.vol.setIno i d).Alloc sb j → (s'.vol.setIno i d').addr j q
      = if j = i ∧ q = p then s.freeblock else (s.vol.setIno i d).addr j q) :
    Placed s i d p s.freeblock s' d'
  -- There is no block left, and the block cannot be read.
  | full {s' : Image} {d' : Dinode} {x : Nat} (hempty : (s.vol.setIno i d).addr i p = 0)
    (hfull : s.freeblock = FSSIZE) (hx : s'.len ≤ x) : Placed s i d p x s' d'

theorem setIno_setIno (v : Vol) (i : Nat) (d d' : Dinode) :
    (v.setIno i d).setIno i d' = v.setIno i d' := by
  unfold Vol.setIno
  rw [update_idem]

theorem unused_freeblock : (s.vol.setIno i d).used s.freeblock = false :=
  decide_eq_false (Nat.lt_irrefl _)

theorem Laid.takeBlock (h : Laid s i d) :
    ({ s with freeblock := s.freeblock + 1 } : Image).vol.setIno i d
      = (s.vol.setIno i d).takeBlock s.freeblock := by
  have hused : (fun b => decide (b < s.freeblock + 1))
      = update (fun b => decide (b < s.freeblock)) s.freeblock true := by
    funext b
    by_cases hb : b = s.freeblock
    · rw [hb, update_self]
      simp
    · rw [update_of_ne hb, decide_eq_decide]
      omega
  have hdata : (volOf sb s.data).data
      = update (volOf sb s.data).data s.freeblock Block.zero := by
    refine (update_eq_iff.mpr ⟨?_, fun _ _ => rfl⟩).symm
    show Block.zero = if _ then _ else _
    rw [h.fresh _ le_rfl, ite_self]
  unfold Image.vol Vol.setIno Vol.takeBlock
  simp only [Vol.mk.injEq, true_and]
  exact ⟨hused, hdata⟩

theorem Laid.placed (h : Laid s i d) {p : Nat} (hempty : (s.vol.setIno i d).addr i p = 0)
    (hfree : s.freeblock < FSSIZE) (hlen : s'.len = s.len)
    (hdata : ∀ b, b = 1 ∨ s.freeblock < b → s'.data b = s.data b)
    (hinode : s'.freeinode = s.freeinode) (hnext : s'.freeblock = s.freeblock + 1)
    (hino : s'.vol.ino = s.vol.ino) (htype : d'.type = d.type)
    (hblocks : (s'.vol.setIno i d').Blocks sb ∅)
    (hgrows : Grows sb (s.vol.setIno i d) (s'.vol.setIno i d') i)
    (haddr : ∀ j q, (s.vol.setIno i d).Alloc sb j → (s'.vol.setIno i d').addr j q
      = if j = i ∧ q = p then s.freeblock else (s.vol.setIno i d).addr j q) :
    Placed s i d p s.freeblock s' d' := by
  refine .new hempty hfree ⟨?_, hgrows, hino, hinode⟩ hnext haddr
  exact {
    len := hlen.trans h.len
    super := (hdata 1 (.inl rfl)).trans h.super
    free := by rw [hnext]; exact hfree
    fresh := fun b hb => by
      rw [hnext] at hb
      rw [hdata b (.inr hb)]
      exact h.fresh b (Nat.le_of_succ_le hb)
    inum := h.inum
    type := by rw [htype]; exact h.type
    blocks := hblocks }

theorem appendAddr_spec (h : Laid s i d) (j : Fin (NDIRECT + 1)) {E : Quit → Prop} :
    wp E (appendAddr d j) (fun d' s' => Placed s i d j (d'.addrs j).toNat s' d') s := by
  have haddr : (s.vol.setIno i d).addr i j = (d.addrs j).toNat := by
    rw [addr_direct j.isLt, ino_setIno]
  unfold appendAddr
  rw [wp_ite]
  refine ⟨fun hzero => ?_, fun hne => ?_⟩
  · have hempty : (s.vol.setIno i d).addr i j = 0 := by
      rw [haddr, hzero]
      rfl
    rw [wp_bind, wp_nextBlock, wp_pure]
    have hnum : ((d.setAddr j s.freeblock).addrs j).toNat = s.freeblock := by
      have := h.free
      show (update d.addrs j _ j).toNat = _
      rw [update_self, UInt32.toNat_ofNat']
      unfold FSSIZE at this
      omega
    rw [hnum]
    by_cases hfree : s.freeblock < FSSIZE
    · obtain ⟨hblocks, hgrows, hplace⟩ :=
        takeAddr layout h.blocks h.alloc hfree unused_freeblock j hempty
      rw [ino_setIno, ← h.takeBlock, setIno_setIno] at hblocks hgrows hplace
      exact h.placed hempty hfree rfl (fun _ _ => rfl) rfl rfl rfl rfl hblocks hgrows hplace
    · have hfull : s.freeblock = FSSIZE := Nat.le_antisymm h.free (Nat.le_of_not_lt hfree)
      exact .full hempty hfull (by rw [hfull]; exact h.len.le)
  · rw [wp_pure, ← haddr]
    refine .there ?_
    rw [haddr]
    exact fun h0 => hne (UInt32.toNat_inj.mp h0)

theorem appendEntry_spec (h : Laid s i d) {m : Nat} (hm : m < NINDIRECT)
    (hind : (s.vol.setIno i d).addr i NDIRECT ≠ 0) {E : Quit → Prop} :
    wp E (appendEntry ((s.vol.setIno i d).addr i NDIRECT) m)
      (fun x s' => Placed s i d (NDIRECT + 1 + m) x s' d) s := by
  set ind := (s.vol.setIno i d).addr i NDIRECT with hindeq
  have hisData := h.blocks.data _ _ h.alloc hind
  have hread : ind < s.len := by
    rw [h.len]
    exact hisData.2
  have hdata : (s.vol.setIno i d).data ind = s.data ind := if_pos hisData.1
  have haddr : (s.vol.setIno i d).addr i (NDIRECT + 1 + m) = (s.data ind).word m := by
    rw [addr_indirect (by omega), ← hindeq, if_neg hind, hdata, Nat.add_sub_cancel_left]
  have hm' : 4 * m + 4 ≤ BSIZE := by
    simp only [NINDIRECT, BSIZE] at hm ⊢
    omega
  unfold appendEntry
  rw [wp_bind, wp_rsect]
  refine ⟨fun _ => ?_, fun hout => absurd hread hout⟩
  rw [wp_ite]
  refine ⟨fun hzero => ?_, fun hne => ?_⟩
  · have hempty := haddr.trans hzero
    rw [wp_bind, wp_nextBlock, wp_bind, wp_wsect, wp_pure]
    have hword : ((s.data ind).setWord m s.freeblock).word m = s.freeblock := by
      refine Block.word_setWord hm' ?_
      have := h.free
      unfold FSSIZE at this
      omega
    rw [hword]
    have hlen : max s.len (ind + 1) = s.len := max_eq_left hread
    by_cases hfree : s.freeblock < FSSIZE
    · obtain ⟨hblocks, hgrows, hplace⟩ :=
        takeEntry layout h.blocks h.alloc hfree unused_freeblock hm hind hempty
      -- the indirect block as it is written
      have hvol : ∀ x, Image.vol { s with
          freeblock := s.freeblock + 1
          data := update s.data ind x
          len := max s.len (ind + 1) }
          = (Image.vol { s with freeblock := s.freeblock + 1 }).setData ind x :=
        fun x => Image.vol_setData hisData.1 rfl rfl
      have htake : ∀ x, (Image.vol { s with
          freeblock := s.freeblock + 1
          data := update s.data ind x
          len := max s.len (ind + 1) }).setIno i d
          = ((s.vol.setIno i d).takeBlock s.freeblock).setData ind x := by
        intro x
        rw [← h.takeBlock, hvol]
        rfl
      rw [hdata, ← htake] at hblocks hgrows hplace
      refine h.placed hempty hfree hlen (fun b hb => ?_) rfl rfl ?_ rfl hblocks hgrows hplace
      · have hused : ind < s.freeblock := h.used_lt hind
        have hmeta : 1 < ind := (show 1 < sb.datastart by decide).trans_le hisData.1
        exact update_of_ne (by omega) ..
      · exact (congrArg Vol.ino (hvol ((s.data ind).setWord m s.freeblock))).trans rfl
    · have hfull : s.freeblock = FSSIZE := Nat.le_antisymm h.free (Nat.le_of_not_lt hfree)
      refine .full hempty hfull ?_
      show max s.len (ind + 1) ≤ s.freeblock
      rw [hlen, hfull]
      exact h.len.le
  · rw [wp_pure, ← haddr]
    exact .there (by rwa [haddr])

theorem Laid.filled_iff (h : Laid s i d) (hfree : s.freeblock < FSSIZE) {p : Nat} {v' : Vol}
    (haddr : ∀ j q, (s.vol.setIno i d).Alloc sb j → v'.addr j q
      = if j = i ∧ q = p then s.freeblock else (s.vol.setIno i d).addr j q) (q : Nat) :
    v'.addr i q ≠ 0 ↔ (s.vol.setIno i d).addr i q ≠ 0 ∨ q = p := by
  have hb0 : s.freeblock ≠ 0 :=
    (h.blocks.of_unused hfree unused_freeblock).1.ne_zero layout
  rw [haddr i q h.alloc]
  by_cases hq : q = p
  · rw [if_pos ⟨rfl, hq⟩]
    exact ⟨fun _ => .inr hq, fun _ => hb0⟩
  · rw [if_neg fun hand => hq hand.2]
    exact ⟨.inl, fun hor => hor.resolve_right hq⟩

/-- Block `fbn` of the file is there, and has been added if the file ended before it. -/
structure Ready (s : Image) (i : Nat) (d : Dinode) (off x : Nat) (s' : Image) (d' : Dinode) :
    Prop where
  ext : Extended s i d s' d'
  addr : (s'.vol.setIno i d').addr i (place (off / BSIZE)) = x
  fills : (s'.vol.setIno i d').Fills i (off + 1)
  freeblock : s'.freeblock + need off = s.freeblock + need (off + 1)

theorem Ready.ne_zero {x : Nat} (h : Ready s i d off x s' d') :
    (s'.vol.setIno i d').addr i (place (off / BSIZE)) ≠ 0 := by
  rw [h.fills.block]
  exact Nat.lt_succ_of_le (Nat.div_mul_le_self ..)

theorem filled_iff_mod {v : Vol} (h : v.Fills i off) :
    v.addr i (place (off / BSIZE)) ≠ 0 ↔ off % BSIZE ≠ 0 := by
  rw [h.block]
  simp only [BSIZE]
  omega

theorem Placed.ready {x : Nat} (h : Laid s i d) (hfills : (s.vol.setIno i d).Fills i off)
    (hfar : off ≠ NDIRECT * BSIZE) (hp : Placed s i d (place (off / BSIZE)) x s' d') :
    Ready s i d off x s' d' ∨ s'.len ≤ x ∧ FSSIZE + need off < s.freeblock + need (off + 1) := by
  have hneed := need_succ off
  have hmod := filled_iff_mod hfills
  rw [if_neg hfar] at hneed
  cases hp with
  | there hne =>
    rw [if_neg (hmod.mp hne)] at hneed
    exact .inl ⟨.refl h, rfl, hfills.same (hmod.mp hne), by omega⟩
  | new hempty hfree hext hnext haddr =>
    have hend := not_not.mp (hmod.not.mp (not_not.mpr hempty))
    have hfilled := h.filled_iff hfree haddr
    rw [if_pos hend] at hneed
    refine .inl ⟨hext, ?_, hfills.next hend (fun n => ?_) ?_, by omega⟩
    · rw [haddr _ _ h.alloc, if_pos ⟨rfl, rfl⟩]
    · rw [hfilled]
      exact or_congr_right ⟨fun heq => place_inj heq, fun heq => by rw [heq]⟩
    · rw [hfilled]
      exact or_congr_right ⟨fun heq => absurd heq.symm (place_ne_indirect _),
        fun heq => absurd heq hfar⟩
  | full hempty hfull hlen =>
    have hend := not_not.mp (hmod.not.mp (not_not.mpr hempty))
    rw [if_pos hend] at hneed
    exact .inr ⟨hlen, by omega⟩

theorem appendBlock_spec (h : Laid s i d) (hfills : (s.vol.setIno i d).Fills i off)
    (hmax : off / BSIZE < MAXFILE) :
    wp (fun e => e = .read ∧ FSSIZE + need off < s.freeblock + need (off + 1))
      (appendBlock d (off / BSIZE)) (fun r s' => Ready s i d off r.2 s' r.1 ∨
        s'.len ≤ r.2 ∧ FSSIZE + need off < s.freeblock + need (off + 1)) s := by
  unfold appendBlock
  by_cases hdirect : off / BSIZE < NDIRECT
  · have hplace : place (off / BSIZE) = off / BSIZE := if_pos hdirect
    have hfar : off ≠ NDIRECT * BSIZE := by
      simp only [NDIRECT, BSIZE] at hdirect ⊢
      omega
    rw [dif_pos hdirect, wp_bind]
    refine (appendAddr_spec h ⟨off / BSIZE, by omega⟩).call fun d' s' hplaced => ?_
    rw [wp_pure]
    exact Placed.ready h hfills hfar (hplace.symm ▸ hplaced)
  · have hm : off / BSIZE - NDIRECT < NINDIRECT := by
      unfold MAXFILE at hmax
      omega
    -- the first block behind the direct ones takes two
    have hfirst : (s.vol.setIno i d).addr i NDIRECT = 0 →
        off = NDIRECT * BSIZE ∧ off % BSIZE = 0 ∧ need (off + 1) = need off + 2 := by
      intro hempty
      have hoff : off = NDIRECT * BSIZE := by
        have hle := hfills.indirect.not.mp (not_not.mpr hempty)
        simp only [NDIRECT, BSIZE] at hle hdirect ⊢
        omega
      have hend : off % BSIZE = 0 := by
        rw [hoff]
        exact Nat.mul_mod_left ..
      have hneed := need_succ off
      rw [if_pos hend, if_pos hoff] at hneed
      exact ⟨hoff, hend, hneed⟩
    rw [dif_neg hdirect, wp_bind]
    refine (appendAddr_spec h (Fin.last NDIRECT)).call fun d1 s1 hplaced => ?_
    rw [wp_bind]
    generalize (d1.addrs (Fin.last NDIRECT)).toNat = x at hplaced ⊢
    cases hplaced with
    | there hne =>
      have hfar := (hfills.indirect.mp hne).ne'
      refine (appendEntry_spec h hm hne).call fun y s' hplaced => ?_
      rw [wp_pure]
      exact Placed.ready h hfills hfar (place_indirect hdirect ▸ hplaced)
    | new hempty hfree hext hnext haddr =>
      obtain ⟨hoff, hend, hneed⟩ := hfirst hempty
      have hlast : (s1.vol.setIno i d1).addr i NDIRECT = s.freeblock := by
        rw [haddr _ _ h.alloc, if_pos ⟨rfl, rfl⟩]
      have hfilled := h.filled_iff hfree haddr
      have hind : (s1.vol.setIno i d1).addr i NDIRECT ≠ 0 := (hfilled _).mpr (.inr rfl)
      have hspec := appendEntry_spec (E := fun e => e = .read ∧
        FSSIZE + need off < s.freeblock + need (off + 1)) hext.laid hm hind
      rw [hlast, ← place_indirect hdirect] at hspec
      refine hspec.call fun y s' hplaced => ?_
      rw [wp_pure]
      cases hplaced with
      | there hne =>
        rcases (hfilled _).mp hne with hne | heq
        · exact absurd hend ((filled_iff_mod hfills).mp hne)
        · exact absurd heq (place_ne_indirect _)
      | new hempty' hfree' hext' hnext' haddr' =>
        have hfilled' := hext.laid.filled_iff hfree' haddr'
        refine .inl ⟨hext.trans hext', ?_, hfills.next hend (fun n => ?_) ?_, by omega⟩
        · rw [haddr' _ _ hext.laid.alloc, if_pos ⟨rfl, rfl⟩]
        · rw [hfilled', hfilled]
          constructor
          · rintro ((hne | heq) | heq)
            · exact .inl hne
            · exact absurd heq (place_ne_indirect _)
            · exact .inr (place_inj heq)
          · rintro (hne | rfl)
            · exact .inl (.inl hne)
            · exact .inr rfl
        · rw [hfilled', hfilled]
          exact ⟨fun _ => .inr hoff, fun _ => .inl (.inr rfl)⟩
      | full hempty' hfull hlen => exact .inr ⟨hlen, by omega⟩
    | full hempty hfull hlen =>
      -- the indirect block itself cannot be read
      obtain ⟨-, -, hneed⟩ := hfirst hempty
      unfold appendEntry
      rw [wp_bind, wp_rsect]
      exact ⟨fun hlt => absurd hlt (Nat.not_lt_of_le hlen), fun _ => ⟨rfl, by omega⟩⟩

theorem Laid.write (h : Laid s i d) (hne : (s.vol.setIno i d).addr i (place n) ≠ 0) (buf : Block)
    (hs' : s' = { s with
      data := update s.data ((s.vol.setIno i d).addr i (place n)) buf
      len := max s.len ((s.vol.setIno i d).addr i (place n) + 1) }) :
    Laid s' i d ∧ s'.vol.setIno i d
        = (s.vol.setIno i d).setData ((s.vol.setIno i d).addr i (place n)) buf ∧
      s'.vol.ino = s.vol.ino := by
  have hisData := h.blocks.data _ _ h.alloc hne
  have hlt := h.used_lt hne
  have hvol : s'.vol = s.vol.setData ((s.vol.setIno i d).addr i (place n)) buf :=
    Image.vol_setData hisData.1 (by rw [hs']) (by rw [hs'])
  have hsame : ∀ b, b = 1 ∨ s.freeblock ≤ b → s'.data b = s.data b := by
    intro b hb
    have hmeta : 1 < (s.vol.setIno i d).addr i (place n) :=
      (show 1 < sb.datastart by decide).trans_le hisData.1
    rw [hs']
    exact update_of_ne (by omega) ..
  refine ⟨?_, by rw [hvol]; rfl, by rw [hvol]; rfl⟩
  exact {
    len := by
      have hin : (s.vol.setIno i d).addr i (place n) < s.len := by
        rw [h.len]
        exact hisData.2
      rw [hs']
      exact (max_eq_left hin).trans h.len
    super := (hsame 1 (.inl rfl)).trans h.super
    free := by
      rw [hs']
      exact h.free
    fresh := fun b hb => by
      rw [hs'] at hb
      rw [hsame b (.inr hb)]
      exact h.fresh b hb
    inum := h.inum
    type := h.type
    blocks := by
      rw [hvol]
      exact h.blocks.setData h.alloc hne }

/-- The first `n` bytes of `src` have been added at the end. -/
structure Added (s : Image) (i : Nat) (d : Dinode) (off n : Nat) (src : Nat → UInt8) (s' : Image)
    (d' : Dinode) : Prop where
  laid : Laid s' i d'
  wrote : Wrote sb (s.vol.setIno i d) (s'.vol.setIno i d') i off n n src
  fills : (s'.vol.setIno i d').Fills i (off + n)
  ino : s'.vol.ino = s.vol.ino
  freeinode : s'.freeinode = s.freeinode
  freeblock : s'.freeblock + need off = s.freeblock + need (off + n)

theorem Ready.lt_len {x : Nat} (h : Ready s i d off x s' d') : x < s'.len := by
  have hdata := h.ext.laid.blocks.data _ _ h.ext.laid.alloc h.ne_zero
  rw [h.addr] at hdata
  rw [h.ext.laid.len]
  exact hdata.2

theorem Added.nothing (h : Laid s i d) (hfills : (s.vol.setIno i d).Fills i off)
    (src : Nat → UInt8) : Added s i d off 0 src s d where
  laid := h
  wrote := .nothing ..
  fills := hfills
  ino := rfl
  freeinode := rfl
  freeblock := rfl

theorem Ready.added {x : Nat} {s1 : Image} {d1 : Dinode} (h : Ready s i d off x s1 d1)
    (hs : Laid s i d) (hpos : 0 < n) (hle : n ≤ (off / BSIZE + 1) * BSIZE - off)
    (src : Nat → UInt8) :
    Added s i d off n src { s1 with
      data := update s1.data x (Block.ofFn
        (Bytes.blit (s1.data x).byte (off - off / BSIZE * BSIZE) n src))
      len := max s1.len (x + 1) } d1 := by
  have h1 := h.ext.laid
  have hne := h.ne_zero
  have hstart : off - off / BSIZE * BSIZE = off % BSIZE := by
    simp only [BSIZE]
    omega
  have hblk : s1.data x = (s1.vol.setIno i d1).blk i (off / BSIZE) := by
    rw [Vol.blk, if_neg hne, h.addr]
    exact (if_pos (h.addr ▸ (h1.blocks.data _ _ h1.alloc hne).1)).symm
  rw [hstart, hblk]
  have hroom : n ≤ BSIZE - off % BSIZE := by
    simp only [BSIZE] at hle ⊢
    omega
  have hpiece := Wrote.piece h.ext.grows h1.blocks hs.alloc hne hroom src
  obtain ⟨hlaid, hvol, hino⟩ := h1.write hne (Block.ofFn
    (Bytes.blit ((s1.vol.setIno i d1).blk i (off / BSIZE)).byte (off % BSIZE) n src)) rfl
  rw [← hvol] at hpiece
  rw [h.addr] at hlaid hvol hino hpiece
  exact {
    laid := hlaid
    wrote := hpiece
    fills := by
      refine (h.fills.within hpos hle).congr fun q => ?_
      rw [hvol, ← h.addr]
      exact h1.blocks.addr_setData h1.alloc hne h1.alloc q
    ino := hino.trans h.ext.ino
    freeinode := h.ext.freeinode
    freeblock := by
      rw [need_within hpos hle]
      exact h.freeblock }

theorem Added.append {m : Nat} {src src' : Nat → UInt8} {s1 : Image} {d1 : Dinode}
    (h : Added s i d off n src s1 d1) (h' : Added s1 i d1 (off + n) m src' s' d')
    (hsrc : ∀ j, src' j = src (n + j)) : Added s i d off (n + m) src s' d' := by
  have hfree := h.freeblock
  have hfree' := h'.freeblock
  have hfills := h'.fills
  rw [Nat.add_assoc] at hfills hfree'
  exact ⟨h'.laid, h.wrote.append h'.wrote hsrc, hfills, h'.ino.trans h.ino,
    h'.freeinode.trans h.freeinode, by omega⟩

/-- Why bytes cannot be added: the image or the file would be too large. -/
def Refuses (s : Image) (off n : Nat) (e : Quit) : Prop :=
  e = .read ∧ FSSIZE + need off < s.freeblock + need (off + n) ∨
    e = .maxfile ∧ MAXFILE * BSIZE < off + n

theorem iappendLoop_spec (fuel : Nat) (h : Laid s i d) (p : List UInt8)
    (hfills : (s.vol.setIno i d).Fills i off) (hfuel : p.length ≤ fuel) :
    wp (Refuses s off p.length) (iappendLoop fuel d off p)
      (fun r s' => r.2 = off + p.length ∧
        Added s i d off p.length (fun j => p.getD j 0) s' r.1) s := by
  induction fuel generalizing s d off p with
  | zero =>
    obtain rfl : p = [] := List.length_eq_zero_iff.mp (Nat.le_zero.mp hfuel)
    exact ⟨rfl, .nothing h hfills _⟩
  | succ fuel ih =>
    unfold iappendLoop
    rw [wp_ite]
    refine ⟨fun hpos => ?_, fun hend => ?_⟩
    · rw [wp_ite]
      refine ⟨fun hmax => ?_, fun hmax => ?_⟩
      · rw [wp_bind]
        have hone : need (off + 1) ≤ need (off + p.length) := need_mono (by omega)
        refine (appendBlock_spec h hfills hmax).mono (fun r s1 hpost => ?_) fun e he => ?_
        · obtain ⟨d1, x⟩ := r
          dsimp only
          rw [wp_bind, wp_rsect]
          rcases hpost with hready | ⟨hlen, hmany⟩
          swap
          · exact ⟨fun hlt => absurd hlt (Nat.not_lt_of_le hlen), fun _ => .inl ⟨rfl, by omega⟩⟩
          refine ⟨fun _ => ?_, fun hout => absurd hready.lt_len hout⟩
          rw [wp_bind, wp_wsect]
          have hroom : 0 < (off / BSIZE + 1) * BSIZE - off := by
            simp only [BSIZE]
            omega
          generalize hn : min p.length ((off / BSIZE + 1) * BSIZE - off) = n
          have hstep := hready.added h (n := n) (by omega) (by omega) fun j => p.getD j 0
          have hdrop : p.length = n + (p.drop n).length := by
            rw [List.length_drop]
            omega
          have hfree := hstep.freeblock
          refine (ih hstep.laid (p.drop n) hstep.fills (by omega)).mono (fun r s' hpost => ?_)
            fun e he => ?_
          · rw [hdrop, ← Nat.add_assoc]
            refine ⟨hpost.1, hstep.append hpost.2 fun j => ?_⟩
            rw [List.getD_eq_getElem?_getD, List.getElem?_drop, List.getD_eq_getElem?_getD]
          · unfold Refuses at he ⊢
            rw [hdrop, ← Nat.add_assoc]
            exact he.imp (fun h => ⟨h.1, by omega⟩) id
        · exact .inl ⟨he.1, by omega⟩
      · rw [wp_throw]
        refine .inr ⟨rfl, ?_⟩
        calc MAXFILE * BSIZE ≤ off / BSIZE * BSIZE :=
              Nat.mul_le_mul_right _ (Nat.le_of_not_lt hmax)
          _ ≤ off := Nat.div_mul_le_self ..
          _ < off + p.length := Nat.lt_add_of_pos_right hpos
    · obtain rfl : p = [] := List.length_eq_zero_iff.mp (Nat.le_zero.mp (Nat.le_of_not_lt hend))
      exact ⟨rfl, .nothing h hfills _⟩

end Blocks

end Mkfs

end Xv6
