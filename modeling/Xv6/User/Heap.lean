import Xv6.User.HeapInv

/-!
# Runs of malloc and free

The specifications of `morecore`, of taking a block and of the loop of `malloc`, and from them the
invariant of every run of a program that frees only blocks it owns.
-/

namespace Xv6

open Extents Machines Function List

variable {base : Nat} {h : Heap} {live E : List Extent}

/-! ## morecore -/

variable {n : UInt32}

theorem HeapOk.grow (ok : HeapOk base h live E) {r : Extent} (hr : h.brk ≤ r.start)
    (hpos : 0 < r.len) (hstop : r.stop < 2 ^ 32) (hsize : 16 * n.toNat = r.len) :
    HeapOk base { h with
      mem := update h.mem r.start { h.mem r.start with size := n }
      brk := r.stop
      got := r :: h.got } (r :: live) E := by
  have hbrk := ok.brk
  have hle : r.start ≤ r.stop := Nat.le_add_right _ _
  -- no header written so far is at the new address
  have hlt : ∀ e ∈ E ++ live, e.start < r.start := fun e he => by
    have hb := ok.bounds he
    have hp := ok.pos e he
    simp only [Extent.stop] at hb
    omega
  have hfree : ∀ e ∈ freeList base E, e.start ≠ r.start := fun e he => by
    rcases mem_cons.1 he with rfl | he
    · show base ≠ r.start
      omega
    · exact (hlt e (mem_append_left _ he)).ne
  refine
    { seg := ok.seg.update hfree
      spaced := ok.spaced
      freep := ok.freep
      pos := ?_
      cover := ?_
      once := ?_
      size := ?_
      got := ?_
      base_pos := ok.base_pos
      brk := by
        show base + 16 ≤ r.stop
        omega }
  · intro e he
    rcases mem_append.1 he with he | he
    · exact ok.pos e (mem_append_left _ he)
    · rcases mem_cons.1 he with rfl | he
      · exact hpos
      · exact ok.pos e (mem_append_right _ he)
  · intro x
    have := ok.cover x
    simp only [cover_append, cover_cons] at this ⊢
    omega
  · intro x
    show Extents.cover (r :: h.got) x ≤ 1
    rw [cover_cons]
    split
    case isFalse => exact ok.once x
    case isTrue hx =>
      -- the regions obtained before end at or below the break
      have hzero : Extents.cover h.got x = 0 := by
        by_contra hne
        obtain ⟨q, hq, hqx⟩ := cover_pos.1 (Nat.pos_of_ne_zero hne)
        have := (ok.got q hq).2.1
        have := hqx.2
        have := hx.1
        omega
      omega
  · intro b hb
    rcases mem_cons.1 hb with rfl | hb
    · show 16 * (update h.mem b.start _ b.start).size.toNat = b.len
      rw [update_self]
      exact hsize
    · show 16 * (update h.mem r.start _ b.start).size.toNat = b.len
      rw [update_of_ne (hlt b (mem_append_right _ hb)).ne]
      exact ok.size b hb
  · intro q hq
    rcases mem_cons.1 hq with rfl | hq
    · exact ⟨by omega, le_rfl, hstop⟩
    · obtain ⟨h1, h2, h3⟩ := ok.got q hq
      exact ⟨h1, h2.trans (hr.trans hle), h3⟩

/-- **`morecore`.** The system has no memory and nothing changes, or there is a free block of the
size asked for. -/
theorem HeapOk.morecore (ok : HeapOk base h live E) (os : Sbrk) (hn : n.toNat * 16 < 2 ^ 31) :
    (∀ fuel, Xv6.morecore os fuel h n = some (h, 0)) ∨
    ∃ h' E', (∀ fuel, E.length + 1 ≤ fuel → Xv6.morecore os fuel h n = some (h', h'.freep)) ∧
      HeapOk base h' live E' ∧ ∃ e ∈ E', 16 * n.toNat ≤ e.len := by
  obtain ⟨nu, hnu⟩ : ∃ nu, nu = if n < 4096 then 4096 else n := ⟨_, rfl⟩
  have hle : n.toNat ≤ nu.toNat ∧ 0 < nu.toNat ∧ nu.toNat * 16 < 2 ^ 31 := by
    rw [hnu]
    split
    case isTrue h =>
      have : n.toNat < 4096 := h
      exact ⟨this.le, by decide, by decide⟩
    case isFalse h =>
      have : ¬ n.toNat < 4096 := h
      omega
  have hint : (Int32.ofNat (nu.toNat * 16)).toInt = nu.toNat * 16 := by
    rw [Int32.toInt_ofNat_of_lt hle.2.2]
    rfl
  cases hrun : os.run h.brk (Int32.ofNat (nu.toNat * 16)) with
  | none =>
    refine .inl fun fuel => ?_
    simp only [Xv6.morecore, ← hnu, hrun]
  | some p =>
    obtain ⟨hp, hlim⟩ := os.fresh _ _ p (by omega) hrun
    obtain ⟨h', E', hfree, ok', e, he, hlen⟩ := HeapOk.free
      (ok.grow (r := ⟨p, nu.toNat * 16⟩) (n := nu) hp (by show 0 < nu.toNat * 16; omega)
        (by show p + nu.toNat * 16 < 2 ^ 32; omega) (Nat.mul_comm _ _))
    refine .inr ⟨h', E', fun fuel hfuel => ?_, ok', e, he, ?_⟩
    · have hbrk : ((p : Int) + (Int32.ofNat (nu.toNat * 16)).toInt).toNat = p + nu.toNat * 16 := by
        omega
      have hadded : (Int32.ofNat (nu.toNat * 16)).toInt.toNat = nu.toNat * 16 := by
        omega
      simp only [Xv6.morecore, ← hnu, hrun, hbrk, hadded]
      have := hfree fuel hfuel
      simp only [Extent.stop] at this
      rw [this]
      rfl
    · have : nu.toNat * 16 ≤ e.len := hlen
      omega

/-! ## malloc -/

theorem HeapOk.next (ok : HeapOk base h live E) {P e : Extent} (hP : P ∈ freeList base E)
    (he : e ∈ E) (hptr : (h.mem P.start).ptr = e.start) :
    ∃ A B A', freeList base E = (A ++ [P]) ++ e :: B ∧ A ++ [P] = freeList base A' ∧
      E = A' ++ e :: B := by
  obtain ⟨A, C, heq⟩ := append_of_mem hP
  have hseg := ok.seg
  rw [heq] at hseg
  obtain ⟨-, -, -, hC⟩ := hseg.split
  rw [hptr] at hC
  have hlow := (ok.bounds (mem_append_left live he)).1
  cases C with
  | nil =>
    have : e.start = base := hC
    omega
  | cons q B =>
    have hq : q ∈ freeList base E := by simp [heq]
    obtain rfl : q = e := ok.spaced.eq_of_start hq (mem_cons_of_mem _ he) hC.1
    refine ⟨A, B, (A ++ [P]).tail, by simp [heq], ?_, ?_⟩
    · cases A with
      | nil =>
        obtain ⟨rfl, -⟩ := cons_eq_cons.1 heq
        rfl
      | cons a A =>
        obtain ⟨rfl, -⟩ := cons_eq_cons.1 heq
        rfl
    · cases A with
      | nil => exact (cons_eq_cons.1 heq).2
      | cons a A =>
        rw [(cons_eq_cons.1 heq).2]
        simp

variable {mem : Nat → Header}

/-- Replacing the free block `e` by the blocks `R` and handing out `b`, which together are `e`. -/
theorem HeapOk.hand_out (ok : HeapOk base h live E) {A B R : List Extent} {e b : Extent}
    {prevp : Nat} (hE : E = A ++ e :: B)
    (hseg : FreeSeg mem (freeList base (A ++ R ++ B)) base base)
    (hspaced : Spaced (freeList base (A ++ R ++ B)))
    (hprev : ∃ P ∈ freeList base A, P.start = prevp) (hpos : ∀ f ∈ b :: R, 0 < f.len)
    (hcover : ∀ x, Extents.cover (b :: R) x = Extents.cover [e] x)
    (hsize : 16 * (mem b.start).size.toNat = b.len)
    (hmem : ∀ c ∈ live, mem c.start = h.mem c.start) :
    HeapOk base { h with mem := mem, freep := prevp } (b :: live) (A ++ R ++ B) where
  __ := ok
  seg := hseg
  spaced := hspaced
  freep := by
    obtain ⟨P, hP, hstart⟩ := hprev
    refine ⟨P, ?_, hstart⟩
    rcases mem_cons.1 hP with rfl | hP
    · exact mem_cons_self
    · exact mem_cons_of_mem _ (by simp [hP])
  pos f hf := by
    have hold := ok.pos
    subst hE
    simp only [mem_append, mem_cons] at hf hold hpos
    rcases hf with ((hf | hf) | hf) | hf | hf
    · exact hold f (.inl (.inl hf))
    · exact hpos f (.inr hf)
    · exact hold f (.inl (.inr (.inr hf)))
    · exact hpos f (.inl hf)
    · exact hold f (.inr hf)
  cover x := by
    have hold := ok.cover x
    have hx := hcover x
    subst hE
    simp only [cover_append, cover_cons, cover_nil] at hold hx ⊢
    omega
  size c hc := by
    rcases mem_cons.1 hc with rfl | hc
    · exact hsize
    · show 16 * (mem c.start).size.toNat = c.len
      rw [hmem c hc]
      exact ok.size c hc

/-- **Taking a block.** The whole block after `prevp`, or its tail, becomes live. -/
theorem HeapOk.mallocTake (ok : HeapOk base h live E) (hn : 0 < n.toNat) {P e : Extent}
    (hP : P ∈ freeList base E) (he : e ∈ E) (hptr : (h.mem P.start).ptr = e.start)
    (hbig : 16 * n.toNat ≤ e.len) :
    ∃ b h' E', Xv6.mallocTake h n P.start e.start = (h', b.start + 16) ∧
      b.len = 16 * n.toNat ∧ HeapOk base h' (b :: live) E' := by
  obtain ⟨A, B, A', heq, hA', hE⟩ := ok.next hP he hptr
  have hsize : 16 * (h.mem e.start).size.toNat = e.len :=
    ok.seg.size (mem_cons_of_mem _ he)
  have hepos := ok.pos e (mem_append_left _ he)
  have hseg := ok.seg
  have hspaced := ok.spaced
  rw [heq] at hseg hspaced
  obtain ⟨hAP, -, hB⟩ := hseg.split
  obtain ⟨hsA, hsB, hAB⟩ := pairwise_append.1 hspaced
  obtain ⟨heB, hsB⟩ := pairwise_cons.1 hsB
  obtain ⟨hsortA, hsortB, hltAB⟩ := pairwise_append.1 hspaced.start_lt
  have hPmem : ∃ Q ∈ freeList base A', Q.start = P.start := ⟨P, hA' ▸ by simp, rfl⟩
  have hlist : ∀ R, freeList base (A' ++ R ++ B) = (A ++ [P]) ++ (R ++ B) := fun R => by
    rw [hA', append_assoc]
    rfl
  unfold Xv6.mallocTake
  split
  case isTrue heq' =>
    -- the whole block: `prevp` is linked past it
    refine ⟨e, _, A' ++ [] ++ B, rfl, by rw [← hsize, heq'], ?_⟩
    have hPA : ∀ f ∈ A, f.start ≠ P.start := fun f hf =>
      ((pairwise_append.1 hsortA).2.2 f hf P (by simp)).ne
    have hPB : ∀ f ∈ e :: B, f.start ≠ P.start := fun f hf => (hltAB P (by simp) f hf).ne'
    apply ok.hand_out hE _ _ hPmem
    case hpos => simpa using hepos
    case hcover => exact fun x => rfl
    case hsize =>
      rw [update_of_ne (hPB e mem_cons_self)]
      exact hsize
    case hmem =>
      exact fun c hc => update_of_ne (ok.start_ne hP hc).symm _ _
    · rw [hlist, nil_append]
      exact (hAP.setLast hPA).append (hB.2.update fun f hf => hPB f (mem_cons_of_mem _ hf))
    · rw [hlist, nil_append]
      exact Spaced.append hsA hsB fun a ha b hb => hAB a ha b (mem_cons_of_mem _ hb)
  case isFalse hne =>
    -- the tail: the block keeps its place in the list
    have hlt : n.toNat < (h.mem e.start).size.toNat := by
      have : n.toNat ≠ (h.mem e.start).size.toNat := fun h => hne (UInt32.toNat_inj.1 h).symm
      omega
    have hsub : ((h.mem e.start).size - n).toNat = (h.mem e.start).size.toNat - n.toNat :=
      UInt32.toNat_sub_of_le _ _ (UInt32.le_iff_toNat_le.2 hlt.le)
    obtain ⟨b, hb⟩ : ∃ b : Extent, b = ⟨e.start + (e.len - 16 * n.toNat), 16 * n.toNat⟩ := ⟨_, rfl⟩
    have hbs : b.start = e.start + (e.len - 16 * n.toNat) := by rw [hb]
    have hbl : b.len = 16 * n.toNat := by rw [hb]
    have hend : blockEnd (update h.mem e.start
        { h.mem e.start with size := (h.mem e.start).size - n }) e.start = b.start := by
      rw [blockEnd, update_self, hbs]
      show e.start + 16 * ((h.mem e.start).size - n).toNat = _
      omega
    simp only [hend]
    refine ⟨b, _, A' ++ [⟨e.start, e.len - 16 * n.toNat⟩] ++ B, rfl, hbl, ?_⟩
    have hebs : e.start ≠ b.start := by omega
    have hbe : b.start < e.stop := by
      simp only [Extent.stop]
      omega
    -- the memory differs from the old one at the two headers only
    have hmem : ∀ x, x ≠ e.start → x ≠ b.start → ∀ u v,
        update (update h.mem e.start u) b.start v x = h.mem x :=
      fun x h1 h2 u v => by rw [update_of_ne h2, update_of_ne h1]
    apply ok.hand_out hE _ _ hPmem
    case hpos =>
      simp only [mem_cons, not_mem_nil, or_false, forall_eq_or_imp, forall_eq]
      omega
    case hcover =>
      -- the two parts touch, and joined they are the block
      intro x
      have hjoin := cover_pushFront ⟨e.start, e.len - 16 * n.toNat⟩ [b] x
      rw [pushFront_cons, if_pos (by rw [hbs]; rfl)] at hjoin
      rw [cover_perm (List.Perm.swap _ _ _), ← hjoin, Extent.join, hbl, Nat.sub_add_cancel hbig]
    case hsize =>
      rw [update_self]
      exact hbl.symm
    case hmem =>
      intro c hc
      refine hmem _ (ok.start_ne (mem_cons_of_mem _ he) hc).symm (fun heq => ?_) _ _
      apply (pairwise_append.1 ok.apart).2.2 e he c hc c.start
      have := ok.pos c (mem_append_right _ hc)
      simp only [Extent.Has, Extent.stop] at *
      omega
    · rw [hlist]
      refine (hAP.congr fun f hf => ?_).append ⟨rfl, ?_, ?_⟩
      · have := hltAB f hf e mem_cons_self
        exact hmem _ (by omega) (by omega) _ _
      · rw [update_of_ne hebs, update_self]
        show 16 * ((h.mem e.start).size - n).toNat = e.len - 16 * n.toNat
        omega
      · rw [update_of_ne hebs, update_self]
        refine hB.2.congr fun f hf => ?_
        have := heB f hf
        exact hmem _ (by simp only [Extent.stop] at this; omega) (by omega) _ _
    · rw [hlist]
      apply Spaced.append hsA
      · refine .cons (fun f hf => ?_) hsB
        have := heB f hf
        simp only [Extent.stop] at *
        omega
      · intro a ha f hf
        rcases mem_cons.1 hf with rfl | hf
        · exact hAB a ha e mem_cons_self
        · exact hAB a ha f (mem_cons_of_mem _ hf)

section Loop

variable (os : Sbrk) {n : UInt32}

/-- The loop walks past the blocks that are too small, as long as it does not meet `freep`. -/
theorem mallocLoop_skip {L : List Extent} {prevp p q : Nat} (hL : FreeSeg h.mem L p q)
    (hprev : (h.mem prevp).ptr = p) (hsmall : ∀ e ∈ L, e.len < 16 * n.toNat ∧ e.start ≠ h.freep) :
    ∃ prev, (prev = prevp ∨ ∃ P ∈ L, P.start = prev) ∧ (h.mem prev).ptr = q ∧
      ∀ fuel, mallocLoop os n (fuel + L.length) h prevp p = mallocLoop os n fuel h prev q := by
  induction L generalizing prevp p with
  | nil =>
    obtain rfl : p = q := hL
    exact ⟨prevp, .inl rfl, hprev, fun fuel => rfl⟩
  | cons e L ih =>
    obtain ⟨rfl, hsize, hL⟩ := hL
    obtain ⟨hlen, hfreep⟩ := hsmall e mem_cons_self
    obtain ⟨prev, hmem, hptr, hrun⟩ := ih hL rfl fun f hf => hsmall f (mem_cons_of_mem _ hf)
    refine ⟨prev, .inr ?_, hptr, fun fuel => ?_⟩
    · rcases hmem with rfl | ⟨P, hP, rfl⟩
      · exact ⟨e, mem_cons_self, rfl⟩
      · exact ⟨P, mem_cons_of_mem _ hP, rfl⟩
    · have hlt : ¬ n ≤ (h.mem e.start).size := by
        rw [UInt32.le_iff_toNat_le]
        omega
      rw [length_cons, ← Nat.add_assoc, mallocLoop, if_neg hlt, if_neg hfreep, hrun]

variable (ok : HeapOk base h live E)

include ok

theorem HeapOk.around :
    ∃ L f, (L ++ [f]).Perm (freeList base E) ∧ f.start = h.freep ∧
      FreeSeg h.mem L (h.mem h.freep).ptr h.freep ∧ ∀ e ∈ L, e.start ≠ h.freep := by
  obtain ⟨A, f, B, heq, hf, hwalk⟩ := ok.rotate
  have hsort := ok.spaced.start_lt
  rw [heq] at hsort
  obtain ⟨-, hfB, hA⟩ := pairwise_append.1 hsort
  refine ⟨B ++ A, f, ?_, hf, hwalk, fun e he => ?_⟩
  · rw [heq]
    exact (perm_append_singleton f _).trans
      (((perm_append_comm).cons f).trans perm_middle.symm)
  · rw [← hf]
    rcases mem_append.1 he with he | he
    · exact ((pairwise_cons.1 hfB).1 e he).ne'
    · exact (hA e he f mem_cons_self).ne

/-- If a block is big enough, the loop finds one and takes it. -/
theorem HeapOk.mallocLoop_found (hn : 0 < n.toNat) (hex : ∃ e ∈ E, 16 * n.toNat ≤ e.len) :
    ∃ P ∈ freeList base E, ∃ e ∈ E, (h.mem P.start).ptr = e.start ∧ 16 * n.toNat ≤ e.len ∧
      ∀ fuel, E.length + 1 ≤ fuel → mallocLoop os n fuel h h.freep (h.mem h.freep).ptr =
        some (Xv6.mallocTake h n P.start e.start) := by
  obtain ⟨L, f, hperm, hf, hwalk, hne⟩ := ok.around
  have hfull : FreeSeg h.mem (L ++ [f]) (h.mem h.freep).ptr (h.mem h.freep).ptr :=
    hwalk.append ⟨hf, hf ▸ ok.seg.size (hperm.mem_iff.1 (by simp)), rfl⟩
  -- the first block that is big enough
  obtain ⟨e, hfind⟩ : ∃ e, (L ++ [f]).find? (fun e => 16 * n.toNat ≤ e.len) = some e := by
    rw [← Option.isSome_iff_exists, List.find?_isSome]
    obtain ⟨e, he, hlen⟩ := hex
    exact ⟨e, hperm.mem_iff.2 (mem_cons_of_mem _ he), by simpa using hlen⟩
  obtain ⟨hbig, K, M, hsplit, hK⟩ := List.find?_eq_some_iff_append.1 hfind
  have hbig : 16 * n.toNat ≤ e.len := by simpa using hbig
  have heE : e ∈ E := by
    have hmem : e ∈ freeList base E := hperm.mem_iff.1 (by simp [hsplit])
    rcases mem_cons.1 hmem with rfl | hmem
    · have : 16 * n.toNat ≤ 0 := hbig
      omega
    · exact hmem
  -- `freep` is not before it
  have hKL : ∀ d ∈ K, d ∈ L := by
    intro d hd
    rcases eq_nil_or_concat M with rfl | ⟨M', x, rfl⟩
    · exact (append_inj_left' hsplit rfl) ▸ hd
    · rw [concat_eq_append, ← cons_append, ← append_assoc] at hsplit
      have := append_inj_left' hsplit rfl
      simp [this, hd]
  rw [hsplit] at hfull
  obtain ⟨hKseg, -⟩ := hfull.split
  obtain ⟨prev, hprev, hptr, hrun⟩ := mallocLoop_skip os (n := n) hKseg rfl fun d hd =>
    ⟨by simpa using hK d hd, hne d (hKL d hd)⟩
  obtain ⟨P, hP, rfl⟩ : ∃ P ∈ freeList base E, P.start = prev := by
    rcases hprev with rfl | ⟨P, hP, rfl⟩
    · exact ok.freep
    · exact ⟨P, hperm.mem_iff.1 (by simp [hKL P hP]), rfl⟩
  refine ⟨P, hP, e, heE, hptr, hbig, fun fuel hfuel => ?_⟩
  have hlen : K.length + 1 ≤ E.length + 1 := by
    have h1 := hperm.length_eq
    have h2 := congrArg List.length hsplit
    simp only [freeList, length_append, length_cons, length_nil] at h1 h2
    omega
  obtain ⟨k, rfl⟩ := Nat.exists_eq_add_of_le' (hlen.trans hfuel)
  have hsize := ok.seg.size (mem_cons_of_mem _ heE)
  have hle : n ≤ (h.mem e.start).size := by
    rw [UInt32.le_iff_toNat_le]
    omega
  rw [show k + (K.length + 1) = (k + 1) + K.length by omega, hrun, mallocLoop, if_pos hle]

/-- If none is, the loop comes back to `freep` and asks for memory. -/
theorem HeapOk.mallocLoop_none (hn : 0 < n.toNat) (hall : ∀ e ∈ E, e.len < 16 * n.toNat)
    (fuel : Nat) :
    mallocLoop os n (fuel + 1 + E.length) h h.freep (h.mem h.freep).ptr =
      match Xv6.morecore os fuel h n with
      | none => none
      | some (h, p) => if p = 0 then some (h, 0) else mallocLoop os n fuel h p (h.mem p).ptr := by
  obtain ⟨L, f, hperm, hf, hwalk, hne⟩ := ok.around
  have hsmall : ∀ e ∈ L ++ [f], e.len < 16 * n.toNat := fun e he => by
    rcases mem_cons.1 (hperm.mem_iff.1 he) with rfl | he
    · show 0 < 16 * n.toNat
      omega
    · exact hall e he
  obtain ⟨prev, -, -, hrun⟩ := mallocLoop_skip os (n := n) hwalk rfl fun e he =>
    ⟨hsmall e (by simp [he]), hne e he⟩
  have hlen : E.length = L.length := by
    have := hperm.length_eq
    simpa [freeList] using this.symm
  have hsize := ok.seg.size (hperm.mem_iff.1 (by simp : f ∈ L ++ [f]))
  have hlt : ¬ n ≤ (h.mem h.freep).size := by
    have := hsmall f (by simp)
    rw [UInt32.le_iff_toNat_le, ← hf]
    omega
  rw [hlen, hrun, mallocLoop, if_neg hlt]
  exact if_pos rfl

/-- **The loop of `malloc`.** It returns: `0`, with the heap as it was, or a new live block. -/
theorem HeapOk.mallocLoop (hn : 0 < n.toNat) (hsmall : n.toNat * 16 < 2 ^ 31) :
    ∃ N h' r, (∀ fuel, N ≤ fuel →
        Xv6.mallocLoop os n fuel h h.freep (h.mem h.freep).ptr = some (h', r)) ∧
      (r = 0 ∧ h' = h ∨
        ∃ b E', r = b.start + 16 ∧ b.len = 16 * n.toNat ∧ HeapOk base h' (b :: live) E') := by
  by_cases hex : ∃ e ∈ E, 16 * n.toNat ≤ e.len
  · obtain ⟨P, hP, e, he, hptr, hbig, hrun⟩ := ok.mallocLoop_found os hn hex
    obtain ⟨b, h', E', htake, hlen, ok'⟩ := ok.mallocTake hn hP he hptr hbig
    exact ⟨E.length + 1, h', b.start + 16, fun fuel hfuel => (hrun fuel hfuel).trans (by rw [htake]),
      .inr ⟨b, E', rfl, hlen, ok'⟩⟩
  · simp only [not_exists, not_and, not_le] at hex
    have hnone := ok.mallocLoop_none os hn hex
    rcases ok.morecore os hsmall with hfail | ⟨h1, E1, hmore, ok1, hbig⟩
    · refine ⟨1 + E.length, h, 0, fun fuel hfuel => ?_, .inl ⟨rfl, rfl⟩⟩
      obtain ⟨k, rfl⟩ := Nat.exists_eq_add_of_le' hfuel
      rw [← Nat.add_assoc, hnone, hfail]
      rfl
    · -- the second round finds the new block
      obtain ⟨P, hP, e, he, hptr, hfit, hrun⟩ := ok1.mallocLoop_found os hn hbig
      obtain ⟨b, h', E', htake, hlen, ok'⟩ := ok1.mallocTake hn hP he hptr hfit
      have hfreep : h1.freep ≠ 0 := by
        obtain ⟨f, hf, hstart⟩ := ok1.freep
        have := ok1.base_le hf
        have := ok1.base_pos
        omega
      refine ⟨E1.length + 1 + (E.length + 1) + (1 + E.length), h', b.start + 16,
        fun fuel hfuel => ?_, .inr ⟨b, E', rfl, hlen, ok'⟩⟩
      obtain ⟨k, rfl⟩ := Nat.exists_eq_add_of_le' hfuel
      rw [show k + (E1.length + 1 + (E.length + 1) + (1 + E.length)) =
        (k + (E1.length + 1 + (E.length + 1))) + 1 + E.length by omega, hnone,
        hmore _ (by omega)]
      simp only [if_neg hfreep]
      rw [hrun _ (by omega), htake]

end Loop

/-! ## More fuel changes nothing -/

theorem freeSearch_mono {bp fuel p r : Nat} (hr : freeSearch mem bp fuel p = some r) (k : Nat) :
    freeSearch mem bp (fuel + k) p = some r := by
  induction fuel generalizing p with
  | zero => cases hr
  | succ fuel ih =>
    rw [Nat.add_right_comm]
    unfold freeSearch at hr ⊢
    split
    case isTrue h => rwa [if_pos h] at hr
    case isFalse h =>
      rw [if_neg h] at hr
      exact ih hr

theorem free_mono {h' : Heap} {fuel ap : Nat} (hr : free fuel h ap = some h') (k : Nat) :
    free (fuel + k) h ap = some h' := by
  obtain ⟨p, hp, hret⟩ := Option.bind_eq_some_iff.1 hr
  exact Option.bind_eq_some_iff.2 ⟨p, freeSearch_mono hp k, hret⟩

theorem morecore_mono {os : Sbrk} {fuel : Nat} {r : Heap × Nat} (hr : morecore os fuel h n = some r)
    (k : Nat) : morecore os (fuel + k) h n = some r := by
  unfold morecore at hr ⊢
  generalize (if n < 4096 then 4096 else n) = nu at hr ⊢
  cases hrun : os.run h.brk (Int32.ofNat (nu.toNat * 16)) with
  | none =>
    simp only [hrun] at hr ⊢
    exact hr
  | some p =>
    simp only [hrun] at hr ⊢
    obtain ⟨h', hfree, hret⟩ := Option.bind_eq_some_iff.1 hr
    exact Option.bind_eq_some_iff.2 ⟨h', free_mono hfree k, hret⟩

theorem mallocLoop_mono {os : Sbrk} {fuel prevp p : Nat} {r : Heap × Nat}
    (hr : mallocLoop os n fuel h prevp p = some r) (k : Nat) :
    mallocLoop os n (fuel + k) h prevp p = some r := by
  induction fuel generalizing h prevp p with
  | zero => cases hr
  | succ fuel ih =>
    rw [Nat.add_right_comm]
    unfold mallocLoop at hr ⊢
    split
    case isTrue hfit => rwa [if_pos hfit] at hr
    case isFalse hfit =>
      rw [if_neg hfit] at hr
      split
      case isFalse hp =>
        rw [if_neg hp] at hr
        exact ih hr
      case isTrue hp =>
        rw [if_pos hp] at hr
        split at hr
        case h_1 => cases hr
        case h_2 h' p' hmore =>
          simp only [morecore_mono hmore k]
          split
          case isTrue hz => rwa [if_pos hz] at hr
          case isFalse hz =>
            rw [if_neg hz] at hr
            exact ih hr

/-! ## Runs -/

theorem nunits_spec (nbytes : UInt32) : nbytes.toNat + 16 ≤ 16 * (nunits nbytes).toNat := by
  have := nbytes.toNat_lt
  unfold nunits
  rw [UInt32.toNat_ofNat']
  omega

/-- The invariant of every run: no call has been made yet, or the heap is well formed. -/
def HeapSys.Inv (base : Nat) (s : HeapSys) : Prop :=
  s.Fresh base ∨ ∃ E, HeapOk base s.heap s.live E

variable {s : HeapSys}

theorem HeapSys.Inv.init (hs : s.Inv base) : ∃ E, HeapOk base (s.heap.init base) s.live E := by
  unfold Heap.init
  rcases hs with hs | ⟨E, ok⟩
  · rw [if_pos hs.freep]
    refine ⟨[], ?_⟩
    exact
      { seg := by
          show FreeSeg (update s.heap.mem base ⟨base, 0⟩) [⟨base, 0⟩] base base
          refine ⟨rfl, ?_, ?_⟩
          · rw [update_self]
            rfl
          · rw [update_self]
            rfl
        spaced := pairwise_singleton _ _
        freep := ⟨_, mem_cons_self, rfl⟩
        pos := by simp [hs.live]
        cover := by simp [hs.live, hs.got]
        once := by simp [hs.got]
        size := by simp [hs.live]
        got := by simp [hs.got]
        base_pos := hs.base_pos
        brk := hs.base_le }
  · have hfreep : s.heap.freep ≠ 0 := by
      obtain ⟨f, hf, hstart⟩ := ok.freep
      have := ok.base_le hf
      have := ok.base_pos
      omega
    rw [if_neg hfreep]
    exact ⟨E, ok⟩

/-- **`malloc`.** It returns `0` or a new live block with room for the request. -/
theorem HeapSys.Inv.malloc (hs : s.Inv base) (os : Sbrk) {nbytes : UInt32}
    (hsmall : (nunits nbytes).toNat * 16 < 2 ^ 31) :
    ∃ N h' r, (∀ fuel, N ≤ fuel → Xv6.malloc base os fuel s.heap nbytes = some (h', r)) ∧
      (r = 0 ∧ (∃ E, HeapOk base h' s.live E) ∨ ∃ b E, r = b.start + 16 ∧
        b.len = 16 * (nunits nbytes).toNat ∧ HeapOk base h' (b :: s.live) E) := by
  obtain ⟨E, ok⟩ := hs.init
  have hn := nunits_spec nbytes
  obtain ⟨N, h', r, hrun, hpost⟩ := ok.mallocLoop os (n := nunits nbytes) (by omega) hsmall
  refine ⟨N, h', r, hrun, ?_⟩
  rcases hpost with ⟨rfl, rfl⟩ | hblock
  · exact .inl ⟨rfl, E, ok⟩
  · exact .inr hblock

theorem HeapSys.Inv.of_malloc (hs : s.Inv base) {os : Sbrk} {nbytes : UInt32}
    (hsmall : (nunits nbytes).toNat * 16 < 2 ^ 31) {fuel r : Nat} {h' : Heap}
    (hm : Xv6.malloc base os fuel s.heap nbytes = some (h', r)) :
    r = 0 ∧ (∃ E, HeapOk base h' s.live E) ∨ ∃ b E, r = b.start + 16 ∧ blockOf h'.mem r = b ∧
      nbytes.toNat + 16 ≤ b.len ∧ HeapOk base h' (b :: s.live) E := by
  obtain ⟨N, h'', r', hrun, hpost⟩ := hs.malloc os hsmall
  have heq : some (h', r) = some (h'', r') :=
    (mallocLoop_mono hm N).symm.trans (hrun (fuel + N) (Nat.le_add_left _ _))
  cases heq
  rcases hpost with hzero | ⟨b, E, rfl, hlen, ok⟩
  · exact .inl hzero
  · refine .inr ⟨b, E, rfl, ?_, hlen ▸ nunits_spec nbytes, ok⟩
    rw [blockOf, Nat.add_sub_cancel, ok.size b mem_cons_self]

/-- What the program writes into its blocks does not touch a header. -/
theorem HeapOk.write (ok : HeapOk base h live E)
    (hw : ∀ a, (∀ b ∈ live, (payload b).Apart ⟨a, 16⟩) → mem a = h.mem a) :
    HeapOk base { h with mem := mem } live E := by
  -- a header of a block shares no byte with a payload
  have hdr : ∀ e ∈ E ++ live, mem e.start = h.mem e.start := by
    intro e he
    apply hw
    rintro b hb x ⟨hxb, hxe⟩
    have hlen := ok.unit_le he
    have hbl := ok.unit_le (mem_append_right E hb)
    have : Std.Symm Extent.Apart := ⟨fun _ _ => Extent.Apart.symm⟩
    by_cases heb : e = b
    · subst heb
      simp only [Extent.Has, payload, Extent.stop] at hxb hxe
      omega
    · apply ok.apart.forall he (mem_append_right E hb) heb x
      simp only [Extent.Has, payload, Extent.stop] at hxb hxe ⊢
      omega
  have hbase : mem base = h.mem base := by
    apply hw
    rintro b hb x ⟨hxb, hxe⟩
    have := (ok.bounds (mem_append_right E hb)).1
    simp only [Extent.Has, payload, Extent.stop] at hxb hxe
    omega
  exact
    { seg := ok.seg.congr fun e he => by
        rcases mem_cons.1 he with rfl | he
        · exact hbase
        · exact hdr e (mem_append_left _ he)
      spaced := ok.spaced
      freep := ok.freep
      pos := ok.pos
      cover := ok.cover
      once := ok.once
      size := fun b hb => by
        show 16 * (mem b.start).size.toNat = b.len
        rw [hdr b (mem_append_right _ hb)]
        exact ok.size b hb
      got := ok.got
      base_pos := ok.base_pos
      brk := ok.brk }

/-- A step of the program keeps the invariant, and after a call there is a list. -/
theorem HeapSys.Inv.step {s' : HeapSys} {l : HeapLabel} (hs : s.Inv base) (hl : SmallRequests s l)
    (hstep : HeapStep base s l s') :
    s'.Inv base ∧ (l ≠ .write → ∃ E, HeapOk base s'.heap s'.live E) := by
  cases hstep with
  | @malloc h' os fuel r nbytes hm =>
    have hok : ∃ E, HeapOk base h' (if r = 0 then s.live else blockOf h'.mem r :: s.live) E := by
      rcases hs.of_malloc hl hm with ⟨rfl, hok⟩ | ⟨b, E, rfl, hb, -, ok⟩
      · exact hok
      · rw [if_neg (Nat.succ_ne_zero _), hb]
        exact ⟨E, ok⟩
    exact ⟨.inr hok, fun _ => hok⟩
  | @free h' fuel b hb hf =>
    obtain hs | ⟨E, ok⟩ := hs
    · rw [hs.live] at hb
      cases hb
    · obtain ⟨h'', E', hrun, ok', -⟩ := (ok.perm (perm_cons_erase hb)).free
      have heq := free_mono hf (E.length + 1)
      rw [hrun _ (Nat.le_add_left _ _)] at heq
      cases heq
      exact ⟨.inr ⟨E', ok'⟩, fun _ => ⟨E', ok'⟩⟩
  | @write mem hw =>
    refine ⟨?_, fun h => absurd rfl h⟩
    rcases hs with hs | ⟨E, ok⟩
    · exact .inl ⟨hs.base_pos, hs.base_le, hs.freep, hs.got, hs.live⟩
    · exact .inr ⟨E, ok.write hw⟩

theorem heap_inv (hs : Reachable ((heapMachine base).restrict SmallRequests) s) : s.Inv base := by
  apply Reachable.invariant (I := HeapSys.Inv base) _ _ hs
  · intro s h
    exact .inl h
  · intro s l s' _ hinv ⟨hl, hstep⟩
    exact (hinv.step hl hstep).1

/-- The heap between two calls: the free blocks `E`, in the order of the list. -/
structure HeapSys.Sound (base : Nat) (s : HeapSys) (E : List Extent) : Prop where
  -- the free list is circular, through `base`
  ring : FreeSeg s.heap.mem (freeList base E) base base
  freep : ∃ e ∈ freeList base E, e.start = s.heap.freep
  -- from `base` on it is sorted by address, and no block touches the next one
  sorted : Spaced (freeList base E)
  nonempty : ∀ e ∈ E ++ s.live, 16 ≤ e.len
  -- no address is in two blocks, free or live
  apart : (E ++ s.live).Pairwise Extent.Apart
  -- together they are what was obtained from `sbrk`
  units : ∀ x, (∃ e ∈ E ++ s.live, e.Has x) ↔ ∃ r ∈ s.heap.got, r.Has x

theorem HeapOk.sound (ok : HeapOk base s.heap s.live E) : s.Sound base E where
  ring := ok.seg
  freep := ok.freep
  sorted := ok.spaced
  nonempty := fun _ he => ok.unit_le he
  apart := ok.apart
  units x := by rw [← cover_pos, ok.cover x, cover_pos]

/-- **The user heap.** In every run of a program that frees only live blocks and makes only small
requests, a call of `malloc` or `free` returns, and after it the free list is sound; `malloc`
returns null or a block with room for the request that overlaps no live one. -/
theorem malloc_free_sound {s : HeapSys}
    (hs : Reachable ((heapMachine base).restrict SmallRequests) s) :
    (∀ l s', SmallRequests s l → l ≠ .write → HeapStep base s l s' → ∃ E, s'.Sound base E) ∧
    (∀ nbytes r s', SmallRequests s (.malloc nbytes r) → HeapStep base s (.malloc nbytes r) s' →
      r = 0 ∧ s'.live = s.live ∨
      ∃ b, r = (payload b).start ∧ s'.live = b :: s.live ∧ nbytes.toNat ≤ (payload b).len ∧
        ∀ c ∈ s.live, b.Apart c) ∧
    (∀ os nbytes, (nunits nbytes).toNat * 16 < 2 ^ 31 →
      ∃ fuel h r, malloc base os fuel s.heap nbytes = some (h, r)) ∧
    ∀ b ∈ s.live, ∃ fuel h, free fuel s.heap (b.start + 16) = some h := by
  have hinv := heap_inv hs
  refine ⟨fun l s' hl hcall hstep => ?_, fun nbytes r s' hl hstep => ?_, fun os nbytes hsmall => ?_,
    fun b hb => ?_⟩
  · obtain ⟨E, ok⟩ := (hinv.step hl hstep).2 hcall
    exact ⟨E, ok.sound⟩
  · cases hstep with
    | @malloc h' os fuel _ _ hm =>
      rcases hinv.of_malloc hl hm with ⟨rfl, -⟩ | ⟨b, E, rfl, hb, hlen, ok⟩
      · exact .inl ⟨rfl, rfl⟩
      · refine .inr ⟨b, rfl, ?_, ?_, ?_⟩
        · show (if b.start + 16 = 0 then s.live else blockOf h'.mem (b.start + 16) :: s.live) = _
          rw [if_neg (Nat.succ_ne_zero _), hb]
        · show nbytes.toNat ≤ b.len - 16
          omega
        · exact (pairwise_cons.1 (pairwise_append.1 ok.apart).2.1).1
  · obtain ⟨N, h', r, hrun, -⟩ := hinv.malloc os hsmall
    exact ⟨N, h', r, hrun N le_rfl⟩
  · obtain hs | ⟨E, ok⟩ := hinv
    · rw [hs.live] at hb
      cases hb
    · obtain ⟨h', -, hrun, -, -⟩ := (ok.perm (perm_cons_erase hb)).free
      exact ⟨_, h', hrun _ le_rfl⟩

def ampleSbrk : Sbrk where
  run brk n := if 0 ≤ n.toInt ∧ (brk : Int) + n.toInt < 2 ^ 32 then some brk else none
  fresh brk n p _ h := by
    split at h
    case isTrue hc =>
      cases h
      exact ⟨le_rfl, hc.2⟩
    case isFalse => cases h

def heap0 : HeapSys := ⟨⟨fun _ => ⟨0, 0⟩, 0, 4096, []⟩, []⟩

theorem heap0_fresh : heap0.Fresh 64 := ⟨by decide, by decide, rfl, rfl, rfl⟩

/-- The first `malloc(100)` takes the last 8 units of the first 65536 bytes. -/
theorem malloc_free_sound_first : ∃ s', HeapStep 64 heap0 (.malloc 100 69520) s' ∧
    (∃ E, s'.Sound 64 E) ∧ ∃ b, 69520 = (payload b).start ∧ s'.live = b :: heap0.live ∧
      (100 : UInt32).toNat ≤ (payload b).len ∧ ∀ c ∈ heap0.live, b.Apart c := by
  have hs : Reachable ((heapMachine 64).restrict SmallRequests) heap0 := .start heap0_fresh
  have hret : (malloc 64 ampleSbrk 10 heap0.heap 100).map Prod.snd = some 69520 := by
    decide +kernel
  obtain ⟨⟨h, r⟩, hm, rfl⟩ := Option.map_eq_some_iff.1 hret
  have hstep : HeapStep 64 heap0 (.malloc 100 69520) _ := .malloc hm
  have hsmall : SmallRequests heap0 (.malloc 100 69520) := by
    show (nunits 100).toNat * 16 < 2 ^ 31
    decide
  obtain ⟨hsound, hblock, -, -⟩ := malloc_free_sound hs
  refine ⟨_, hstep, hsound _ _ hsmall (by simp) hstep, ?_⟩
  rcases hblock _ _ _ hsmall hstep with ⟨h0, -⟩ | hb
  · cases h0
  · exact hb

/-- In such runs every byte of a block that `malloc` returns is in a region that `sbrk` has added. -/
theorem malloc_in_regions {s s' : HeapSys} {nbytes : UInt32} {r : Nat}
    (hs : Reachable ((heapMachine base).restrict SmallRequests) s)
    (hsmall : SmallRequests s (.malloc nbytes r)) (hstep : HeapStep base s (.malloc nbytes r) s')
    (hr : r ≠ 0) : ∀ a, r ≤ a → a < r + nbytes.toNat → ∃ g ∈ s'.heap.got, g.Has a := by
  intro a hle hlt
  cases hstep with
  | malloc hm =>
    rcases (heap_inv hs).of_malloc hsmall hm with ⟨rfl, -⟩ | ⟨b, E, rfl, -, hlen, ok⟩
    · exact absurd rfl hr
    · refine (ok.sound (s := ⟨_, b :: s.live⟩)).units a |>.mp ⟨b, by simp, ?_⟩
      simp only [Extent.Has, Extent.stop]
      omega

theorem malloc_in_regions_first :
    ∃ s', HeapStep 64 heap0 (.malloc 100 69520) s' ∧ ∃ g ∈ s'.heap.got, g.Has (69520 + 99) := by
  have hret : (malloc 64 ampleSbrk 10 heap0.heap 100).map Prod.snd = some 69520 := by
    decide +kernel
  obtain ⟨⟨h, r⟩, hm, rfl⟩ := Option.map_eq_some_iff.1 hret
  have hstep : HeapStep 64 heap0 (.malloc 100 69520) _ := .malloc hm
  exact ⟨_, hstep, malloc_in_regions (.start heap0_fresh)
    (show (nunits 100).toNat * 16 < 2 ^ 31 by decide) hstep (by decide) _ (by decide) (by decide)⟩

/-- `malloc(0xffffffff)` asks `sbrk` for 16 bytes, which hold the header, and returns the address
behind them. -/
theorem malloc_too_large :
    (malloc 64 ampleSbrk 10 heap0.heap 0xffffffff).map
      (fun x => (x.2, x.1.brk, x.1.got.map fun g => (g.start, g.stop)))
        = some (4112, 4112, [(4096, 4112)]) := by
  decide +kernel

end Xv6
