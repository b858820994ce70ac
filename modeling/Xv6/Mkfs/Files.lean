import Xv6.Mkfs.Append

/-!
# The files of an image

What `mkfs` builds, as a list of files: `Node`s with a type and a content, the one at position `j`
being inode `j + 1`. `ialloc` adds an empty file and `iappend` extends one (`ialloc_spec`,
`iappend_spec`).
-/

namespace Xv6

open Prog Vol Function List

namespace Mkfs

structure Node where
  type : Int16
  type_ne : type ≠ 0
  content : List UInt8

def Node.append (x : Node) (p : List UInt8) : Node := { x with content := x.content ++ p }

structure NodeAt (v : Vol) (i : Nat) (x : Node) : Prop where
  type : (v.ino i).type = x.type
  nlink : (v.ino i).nlink = 1
  size : v.size i = x.content.length
  fills : v.Fills i x.content.length
  -- Behind the end there are zeroes.
  bytes : ∀ o, v.fileByte i o = x.content.getD o 0

/-- The number of blocks an image with these files takes. -/
def total (plan : List Node) : Nat := nmeta + (plan.map fun x => need x.content.length).sum

structure Holds (s : Image) (plan : List Node) : Prop where
  len : s.len = FSSIZE
  super : s.data 1 = superblock
  free : s.freeblock ≤ FSSIZE
  fresh : ∀ b, s.freeblock ≤ b → s.data b = Block.zero
  blocks : s.vol.Blocks sb ∅
  room : plan.length < sb.ninodes
  node : ∀ j x, plan[j]? = some x → NodeAt s.vol (j + 1) x
  rest : ∀ i, i = 0 ∨ plan.length < i → s.vol.ino i = Dinode.zero
  freeinode : s.freeinode = plan.length + 1
  freeblock : s.freeblock = total plan

/-! ### The number of blocks -/

theorem total_append (plan : List Node) (x : Node) :
    total (plan ++ [x]) = total plan + need x.content.length := by
  unfold total
  rw [map_append, sum_append, map_singleton, sum_singleton, Nat.add_assoc]

variable {x : Node} {j : Nat}

theorem total_set {plan : List Node} (hj : plan[j]? = some x) (y : Node) :
    total (plan.set j y) + need x.content.length = total plan + need y.content.length := by
  unfold total
  induction plan generalizing j with
  | nil => cases hj
  | cons z rest ih =>
    cases j with
    | zero =>
      cases hj
      simp only [set_cons_zero, map_cons, sum_cons]
      omega
    | succ j =>
      have h := ih hj
      simp only [set_cons_succ, map_cons, sum_cons]
      omega

section Inodes

variable {E : Quit → Prop} {s : Image} {plan : List Node}

variable {i : Nat}

theorem Holds.iblock_lt (h : Holds s plan) (hi : i < sb.ninodes) : sb.IBLOCK i < s.len := by
  rw [h.len]
  exact (layout.iblock_lt_datastart hi).trans_le layout.data

theorem setIno_self (v : Vol) (i : Nat) : v.setIno i (v.ino i) = v := by
  unfold Vol.setIno
  rw [update_eq_self]

theorem Holds.laid (h : Holds s plan) (hj : plan[j]? = some x) :
    Laid s (j + 1) (s.vol.ino (j + 1)) where
  __ := h
  inum := by
    obtain ⟨hlt, -⟩ := List.getElem?_eq_some_iff.mp hj
    exact (Nat.succ_le_of_lt hlt).trans_lt h.room
  type := by
    rw [(h.node j x hj).type]
    exact x.type_ne
  blocks := by
    rw [setIno_self]
    exact h.blocks

theorem wp_rinode (hi : i < sb.ninodes) (hlen : sb.IBLOCK i < s.len) {Q : Dinode → Image → Prop} :
    wp E (rinode i) Q s ↔ Q (s.vol.ino i) s := by
  have hino : (s.data (sb.IBLOCK i)).dinode (i % IPB) = s.vol.ino i := (if_pos hi).symm
  unfold rinode
  rw [wp_bind, wp_rsect]
  simp only [hlen, wp_pure, hino, true_imp_iff, not_true_eq_false, false_imp_iff, and_true]

def Image.setInode (s : Image) (i : Nat) (d : Dinode) : Image :=
  { s with
    data := update s.data (sb.IBLOCK i) ((s.data (sb.IBLOCK i)).setDinode (i % IPB) d)
    len := max s.len (sb.IBLOCK i + 1) }

theorem wp_winode {d : Dinode} (hlen : sb.IBLOCK i < s.len) {Q : Unit → Image → Prop} :
    wp E (winode i d) Q s ↔ Q () (s.setInode i d) := by
  unfold winode
  rw [wp_bind, wp_rsect]
  simp only [hlen, wp_wsect, true_imp_iff, not_true_eq_false, false_imp_iff, and_true]
  exact Iff.rfl

theorem Image.vol_setInode (hi : i < sb.ninodes) (d : Dinode) :
    (s.setInode i d).vol = s.vol.setIno i d := Image.vol_setDinode hi rfl rfl

theorem Image.data_setInode {b : Nat} (hi : i < sb.ninodes) (d : Dinode)
    (hb : b = 1 ∨ sb.datastart ≤ b) : (s.setInode i d).data b = s.data b := by
  have hlt := layout.iblock_lt_datastart hi
  have hge : sb.inodestart ≤ sb.IBLOCK i := Nat.le_add_left ..
  have h32 : sb.inodestart = 32 := rfl
  exact update_of_ne (by omega) ..

theorem Image.len_setInode (d : Dinode) (hlen : sb.IBLOCK i < s.len) :
    (s.setInode i d).len = s.len := max_eq_left hlen

/-! ### `iappend` -/

theorem NodeAt.congr {v v' : Vol} (h : NodeAt v i x) (hino : v'.ino i = v.ino i)
    (haddr : ∀ q, v'.addr i q = v.addr i q) (hbyte : ∀ o, v'.fileByte i o = v.fileByte i o) :
    NodeAt v' i x where
  type := by rw [hino]; exact h.type
  nlink := by rw [hino]; exact h.nlink
  size := by
    unfold Vol.size
    rw [hino]
    exact h.size
  fills := h.fills.congr haddr
  bytes := fun o => (hbyte o).trans (h.bytes o)

theorem getD_append (l p : List UInt8) (o : Nat) :
    (l ++ p).getD o 0 = if l.length ≤ o ∧ o < l.length + p.length then p.getD (o - l.length) 0
      else l.getD o 0 := by
  simp only [getD_eq_getElem?_getD, List.getElem?_append]
  by_cases hlt : o < l.length
  · rw [if_pos hlt, if_neg (by omega)]
  · rw [if_neg hlt]
    by_cases hend : o < l.length + p.length
    · rw [if_pos ⟨Nat.le_of_not_lt hlt, hend⟩]
    · rw [if_neg (by omega), List.getElem?_eq_none (by omega), List.getElem?_eq_none (by omega)]

theorem NodeAt.append {v v' : Vol} {p : List UInt8} (h : NodeAt v i x) (hself : ∃ a, v'.ino i
      = { v.ino i with addrs := a, size := UInt32.ofNat (x.content.length + p.length) })
    (hfills : v'.Fills i (x.content.length + p.length))
    (hdone : ∀ o, x.content.length ≤ o → o < x.content.length + p.length →
      v'.fileByte i o = p.getD (o - x.content.length) 0)
    (hrest : ∀ o, o < x.content.length ∨ x.content.length + p.length ≤ o →
      v'.fileByte i o = v.fileByte i o) : NodeAt v' i (x.append p) := by
  obtain ⟨a, ha⟩ := hself
  have hlen : (x.append p).content.length = x.content.length + p.length := length_append
  refine ⟨?_, ?_, ?_, hlen ▸ hfills, fun o => ?_⟩
  · rw [ha]
    exact h.type
  · rw [ha]
    exact h.nlink
  · have hmax := hfills.le_max
    rw [Vol.size, ha, hlen]
    refine UInt32.toNat_ofNat_of_lt' (hmax.trans_lt ?_)
    decide
  · show _ = (x.content ++ p).getD o 0
    rw [getD_append]
    split
    · rename_i ho
      exact hdone o ho.1 ho.2
    · rw [hrest o (by omega)]
      exact h.bytes o

theorem nmeta_le_total (plan : List Node) : sb.datastart ≤ total plan := Nat.le_add_right ..

theorem Holds.added (h : Holds s plan) (hj : plan[j]? = some x) {p : List UInt8} {s1 : Image}
    {d : Dinode} (hadd : Added s (j + 1) (s.vol.ino (j + 1)) x.content.length p.length
      (fun k => p.getD k 0) s1 d) :
    Holds (s1.setInode (j + 1) { d with size := UInt32.ofNat (x.content.length + p.length) })
      (plan.set j (x.append p)) := by
  have h1 := hadd.laid
  have hi := h1.inum
  have hwrote := hadd.wrote
  rw [setIno_self] at hwrote
  set v₁ := s1.vol.setIno (j + 1) d with hv1
  have hd : v₁.ino (j + 1) = d := ino_setIno ..
  set d' : Dinode := { d with size := UInt32.ofNat (x.content.length + p.length) } with hd'
  -- the volume with the inode written is that of the loop, with the size changed
  have hvol : (s1.setInode (j + 1) d').vol = v₁.setIno (j + 1) d' := by
    rw [Image.vol_setInode hi, hv1, setIno_setIno]
  have haddrs : d'.addrs = (v₁.ino (j + 1)).addrs := by rw [hd]
  have htype : d'.type = (v₁.ino (j + 1)).type := by rw [hd]
  have hiblock : sb.IBLOCK (j + 1) < s1.len := by
    rw [h1.len, ← h.len]
    exact h.iblock_lt hi
  have htotal := total_set hj (x.append p)
  have hlen : (x.append p).content.length = x.content.length + p.length := length_append
  have hfree : s1.freeblock = total (plan.set j (x.append p)) := by
    have := hadd.freeblock
    have := h.freeblock
    rw [hlen] at htotal
    omega
  have hdata := fun b hb => Image.data_setInode (s := s1) (b := b) hi d' hb
  have hbyte : ∀ k o, (s1.setInode (j + 1) d').vol.fileByte k o = v₁.fileByte k o := by
    intro k o
    unfold Vol.fileByte
    rw [hvol, blk_setIno haddrs]
  have hother : ∀ k, k ≠ j + 1 → (s1.setInode (j + 1) d').vol.ino k = s.vol.ino k := by
    intro k hk
    rw [hvol, ← hadd.ino]
    exact (update_of_ne hk ..).trans (update_of_ne hk ..)
  exact {
    len := (Image.len_setInode d' hiblock).trans h1.len
    super := (hdata 1 (.inl rfl)).trans h1.super
    free := h1.free
    fresh := fun b hb => by
      have hmeta : sb.datastart ≤ b := by
        have := nmeta_le_total (plan.set j (x.append p))
        rw [← hfree] at this
        exact this.trans hb
      exact (hdata b (.inr hmeta)).trans (h1.fresh b hb)
    blocks := by
      rw [hvol]
      refine h1.blocks.congr layout (fun b _ k q => ?_) rfl
      rw [addr_setIno haddrs, alloc_congr (type_setIno htype)]
    room := by
      rw [length_set]
      exact h.room
    node := fun k y hk => by
      by_cases hkj : k = j
      · subst hkj
        obtain rfl : x.append p = y := by
          rw [List.getElem?_set_self'] at hk
          rw [hj] at hk
          exact Option.some.inj hk
        refine (h.node k x hj).append ?_ ?_ (fun o ho hend => ?_) fun o ho => ?_
        · obtain ⟨a, ha⟩ := hwrote.same
          refine ⟨a, ?_⟩
          rw [hvol, ino_setIno, hd', ← hd, ha]
        · refine hadd.fills.congr fun q => ?_
          rw [hvol, addr_setIno haddrs]
        · rw [hbyte]
          exact hwrote.done o ho hend
        · rw [hbyte]
          exact hwrote.rest o ho
      · rw [List.getElem?_set_ne (Ne.symm hkj)] at hk
        have hnode := h.node k y hk
        have hlt : k + 1 < sb.ninodes := by
          obtain ⟨hlt, -⟩ := List.getElem?_eq_some_iff.mp hk
          exact (Nat.succ_le_of_lt hlt).trans_lt h.room
        have hk1 : k + 1 ≠ j + 1 := by omega
        have halloc : s.vol.Alloc sb (k + 1) := ⟨hlt, by rw [hnode.type]; exact y.type_ne⟩
        refine hnode.congr (hother _ hk1) (fun q => ?_) fun o => ?_
        · rw [hvol, addr_setIno haddrs]
          exact hwrote.addr _ q halloc (.inl hk1)
        · rw [hbyte]
          unfold Vol.fileByte
          rw [hwrote.blk _ _ halloc hk1]
    rest := fun k hk => by
      obtain ⟨hlt, -⟩ := List.getElem?_eq_some_iff.mp hj
      rw [length_set] at hk
      rw [hother k (by omega)]
      exact h.rest k hk
    freeinode := by
      rw [length_set, ← h.freeinode]
      exact hadd.freeinode
    freeblock := hfree }

theorem iappend_spec (h : Holds s plan) (hj : plan[j]? = some x) (p : List UInt8) :
    wp (fun e => e = .read ∧ FSSIZE < total (plan.set j (x.append p)) ∨
        e = .maxfile ∧ MAXFILE * BSIZE < (x.append p).content.length)
      (iappend (j + 1) p) (fun _ s' => Holds s' (plan.set j (x.append p))) s := by
  have hlaid := h.laid hj
  have hnode := h.node j x hj
  have hi := hlaid.inum
  have hoff : (s.vol.ino (j + 1)).size.toNat = x.content.length := hnode.size
  have hlen : (x.append p).content.length = x.content.length + p.length := length_append
  have htotal := total_set hj (x.append p)
  have hfree := h.freeblock
  rw [hlen] at htotal ⊢
  unfold iappend
  rw [wp_bind, wp_rinode hi (h.iblock_lt hi), hoff, wp_bind]
  refine (iappendLoop_spec p.length hlaid p (by rw [setIno_self]; exact hnode.fills) le_rfl).mono
    (fun r s1 hpost => ?_) fun e he => he.imp (fun he => ⟨he.1, by omega⟩) id
  obtain ⟨d', off⟩ := r
  obtain ⟨rfl, hadd⟩ := hpost
  have hiblock : sb.IBLOCK (j + 1) < s1.len := by
    rw [hadd.laid.len, ← h.len]
    exact h.iblock_lt hi
  dsimp only
  rw [wp_winode hiblock]
  exact h.added hj hadd

/-! ### `ialloc` -/

theorem addr_of_zero {v : Vol} (h : (v.ino i).addrs = fun _ => 0) (q : Nat) : v.addr i q = 0 := by
  have hdirect : ∀ q, q < NDIRECT + 1 → v.addr i q = 0 := by
    intro q hq
    rw [addr_direct hq, h]
    rfl
  by_cases hq : q < NDIRECT + 1
  · exact hdirect q hq
  · rw [addr_indirect (by omega), if_pos (hdirect _ (Nat.lt_succ_self _))]

theorem NodeAt.empty {v : Vol} {type : Int16} (hne : type ≠ 0)
    (h : v.ino i = { Dinode.zero with type := type, nlink := 1 }) : NodeAt v i ⟨type, hne, []⟩ := by
  have haddr : ∀ q, v.addr i q = 0 := addr_of_zero (by rw [h]; rfl)
  refine ⟨by rw [h], by rw [h], ?_, ⟨fun n => ?_, ?_⟩, fun o => ?_⟩
  · unfold Vol.size
    rw [h]
    rfl
  · rw [haddr]
    exact ⟨fun hn => absurd rfl hn, fun hn => absurd hn (Nat.not_lt_zero _)⟩
  · rw [haddr]
    exact ⟨fun hn => absurd rfl hn, fun hn => absurd hn (Nat.not_lt_zero _)⟩
  · unfold Vol.fileByte Vol.blk
    rw [haddr, if_pos rfl, Block.byte_zero]
    rfl

theorem Holds.newInode (h : Holds s plan) (hroom : plan.length + 1 < sb.ninodes) {type : Int16}
    (hne : type ≠ 0) :
    Holds (Image.setInode { s with freeinode := s.freeinode + 1 } (plan.length + 1)
      { Dinode.zero with type := type, nlink := 1 }) (plan ++ [⟨type, hne, []⟩]) := by
  set t : Image := { s with freeinode := s.freeinode + 1 } with ht
  set d : Dinode := { Dinode.zero with type := type, nlink := 1 } with hd
  have hzero := h.rest (plan.length + 1) (.inr (Nat.lt_succ_self _))
  have hvol : (t.setInode (plan.length + 1) d).vol = s.vol.setIno (plan.length + 1) d :=
    Image.vol_setInode hroom d
  have hself : (t.setInode (plan.length + 1) d).vol.ino (plan.length + 1) = d := by
    rw [hvol, ino_setIno]
  have hother : ∀ k, k ≠ plan.length + 1 →
      (t.setInode (plan.length + 1) d).vol.ino k = s.vol.ino k := by
    intro k hk
    rw [hvol]
    exact update_of_ne hk ..
  -- neither the old inode nor the new one has blocks
  have haddrs : d.addrs = (s.vol.ino (plan.length + 1)).addrs := by rw [hzero]
  have haddr : ∀ k q, (t.setInode (plan.length + 1) d).vol.addr k q = s.vol.addr k q := by
    intro k q
    rw [hvol, addr_setIno haddrs]
  have hdata := fun b hb => Image.data_setInode (s := t) (b := b) hroom d hb
  have hlength : (plan ++ [(⟨type, hne, []⟩ : Node)]).length = plan.length + 1 :=
    length_append
  exact {
    len := (Image.len_setInode d (h.iblock_lt hroom)).trans h.len
    super := (hdata 1 (.inl rfl)).trans h.super
    free := h.free
    fresh := fun b hb => by
      have hmeta : sb.datastart ≤ b := by
        have := nmeta_le_total plan
        rw [← h.freeblock] at this
        exact this.trans hb
      exact (hdata b (.inr hmeta)).trans (h.fresh b hb)
    blocks := by
      refine h.blocks.congr layout (fun b hb k q => ?_) (by rw [hvol]; rfl)
      rw [haddr]
      by_cases hk : k = plan.length + 1
      · have hzero' : s.vol.addr k q = 0 := addr_of_zero (by rw [hk, hzero]; rfl) q
        rw [hzero']
        exact ⟨fun hand => absurd hand.2.symm hb, fun hand => absurd hand.2.symm hb⟩
      · unfold Vol.Alloc
        rw [hother k hk]
    room := by rw [hlength]; exact hroom
    node := fun k y hk => by
      by_cases hlt : k < plan.length
      · rw [List.getElem?_append_left hlt] at hk
        refine (h.node k y hk).congr (hother _ (by omega)) (haddr _) fun o => ?_
        unfold Vol.fileByte
        rw [hvol, blk_setIno haddrs]
      · obtain ⟨hlast, -⟩ := List.getElem?_eq_some_iff.mp hk
        obtain rfl : k = plan.length := by
          rw [hlength] at hlast
          omega
        rw [List.getElem?_concat_length] at hk
        cases hk
        exact NodeAt.empty hne hself
    rest := fun k hk => by
      rw [hlength] at hk
      rw [hother k (by omega)]
      exact h.rest k (by omega)
    freeinode := by
      rw [hlength, ← h.freeinode]
      rfl
    freeblock := by
      rw [total_append, show need ([] : List UInt8).length = 0 by decide]
      exact h.freeblock }

theorem ialloc_spec (h : Holds s plan) (hroom : plan.length + 1 < sb.ninodes) {type : Int16}
    (hne : type ≠ 0) :
    wp E (ialloc type) (fun i s' => i = plan.length + 1 ∧ Holds s' (plan ++ [⟨type, hne, []⟩])) s := by
  unfold ialloc
  rw [wp_bind, wp_get, wp_bind]
  have hlen : sb.IBLOCK s.freeinode < ({ s with freeinode := s.freeinode + 1 } : Image).len := by
    rw [h.freeinode]
    exact h.iblock_lt hroom
  show wp E (winode s.freeinode _ >>= _) _ { s with freeinode := s.freeinode + 1 }
  rw [wp_bind, wp_winode hlen, wp_pure]
  refine ⟨h.freeinode, ?_⟩
  have hnew := h.newInode hroom hne
  rw [← h.freeinode] at hnew
  exact hnew

end Inodes

end Mkfs

end Xv6
