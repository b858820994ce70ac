import Xv6.User.Umalloc

/-!
# The free list of the user heap

The whole free list is a piece of it (`FreeSeg`) from `base` to `base`; the loops of `free` and `malloc`
walk a rotation of it. `HeapOk` is the invariant, with the free blocks and the live ones as lists of
extents, and each function has one specification in terms of it.
-/

namespace Xv6

open Extents Machines List

/-- The extents `L` lie in memory as a piece of the free list, from the block at `a` up to, not
including, the block at `b`. -/
def FreeSeg (mem : Nat → Header) : List Extent → Nat → Nat → Prop
  | [], a, b => a = b
  | e :: L, a, b => e.start = a ∧ 16 * (mem a).size.toNat = e.len ∧ FreeSeg mem L (mem a).ptr b

namespace FreeSeg

variable {mem mem' : Nat → Header} {L A B : List Extent} {a b c : Nat} {e : Extent}

theorem append_iff : FreeSeg mem (A ++ B) a b ↔ ∃ c, FreeSeg mem A a c ∧ FreeSeg mem B c b := by
  induction A generalizing a with
  | nil => simp [FreeSeg]
  | cons e A ih =>
    simp only [cons_append, FreeSeg, ih]
    constructor
    · intro ⟨he, hl, c, hA, hB⟩
      exact ⟨c, ⟨he, hl, hA⟩, hB⟩
    · intro ⟨c, ⟨he, hl, hA⟩, hB⟩
      exact ⟨he, hl, c, hA, hB⟩

theorem append (hA : FreeSeg mem A a c) (hB : FreeSeg mem B c b) : FreeSeg mem (A ++ B) a b :=
  append_iff.2 ⟨c, hA, hB⟩

theorem split (h : FreeSeg mem (A ++ e :: B) a b) :
    FreeSeg mem A a e.start ∧ FreeSeg mem (e :: B) e.start b := by
  obtain ⟨c, hA, hB⟩ := append_iff.1 h
  obtain rfl : e.start = c := hB.1
  exact ⟨hA, hB⟩

theorem size (h : FreeSeg mem L a b) (he : e ∈ L) : 16 * (mem e.start).size.toNat = e.len := by
  obtain ⟨A, B, rfl⟩ := append_of_mem he
  exact h.split.2.2.1

theorem congr (hm : ∀ e ∈ L, mem' e.start = mem e.start) (h : FreeSeg mem L a b) :
    FreeSeg mem' L a b := by
  induction L generalizing a with
  | nil => exact h
  | cons e L ih =>
    obtain ⟨rfl, hl, hL⟩ := h
    have he := hm e mem_cons_self
    refine ⟨rfl, by rw [he, hl], ?_⟩
    rw [he]
    exact ih (fun f hf => hm f (mem_cons_of_mem _ hf)) hL

theorem update {x : Nat} {v : Header} (hx : ∀ e ∈ L, e.start ≠ x) (h : FreeSeg mem L a b) :
    FreeSeg (Function.update mem x v) L a b :=
  h.congr fun e he => Function.update_of_ne (hx e he) _ _

theorem setLast (hA : ∀ f ∈ A, f.start ≠ e.start) (h : FreeSeg mem (A ++ [e]) a b) :
    FreeSeg (Function.update mem e.start { mem e.start with ptr := c }) (A ++ [e]) a c := by
  obtain ⟨hA', he⟩ := h.split
  refine (hA'.update hA).append ⟨rfl, ?_, ?_⟩
  · rw [Function.update_self]
    exact he.2.1
  · rw [Function.update_self]
    rfl

end FreeSeg

variable {mem : Nat → Header}

theorem blockEnd_eq {e : Extent} (h : 16 * (mem e.start).size.toNat = e.len) :
    blockEnd mem e.start = e.stop := by
  rw [blockEnd, h, Extent.stop]

theorem coalesce_of_ne {p q x : Nat} (h : x ≠ p) : coalesce mem p q x = mem x := by
  unfold coalesce
  split
  · exact Function.update_of_ne h _ _
  · exact Function.update_of_ne h _ _

/-- In memory, `coalesce` puts a block in front of the piece of the list that begins at `c`. -/
theorem FreeSeg.coalesce {X : List Extent} {e : Extent} {c last : Nat} (hX : FreeSeg mem X c last)
    (he : 16 * (mem e.start).size.toNat = e.len) (hlast : X = [] → e.stop ≠ last)
    (hne : ∀ f ∈ X, f.start ≠ e.start) (hfit : ∀ f ∈ X, f.stop < 2 ^ 32) :
    FreeSeg (coalesce mem e.start c) (pushFront e X) e.start last := by
  unfold Xv6.coalesce
  rw [blockEnd_eq he]
  cases X with
  | nil =>
    obtain rfl : c = last := hX
    rw [if_neg (hlast rfl)]
    refine ⟨rfl, ?_, ?_⟩
    · rw [Function.update_self]
      exact he
    · rw [Function.update_self]
      rfl
  | cons q X =>
    obtain ⟨rfl, hq, hX'⟩ := hX
    rw [pushFront_cons]
    split
    case isTrue htouch =>
      have hX'' := hX'.update (x := e.start)
        (v := ⟨(mem q.start).ptr, (mem e.start).size + (mem q.start).size⟩)
        fun f hf => hne f (mem_cons_of_mem _ hf)
      refine ⟨rfl, ?_, ?_⟩
      · -- the sum of the two sizes does not wrap: both blocks end below `2^32`
        have hstop := hfit q mem_cons_self
        rw [Function.update_self]
        show 16 * ((mem e.start).size + (mem q.start).size).toNat = e.len + q.len
        rw [UInt32.toNat_add]
        simp only [Extent.stop] at htouch hstop
        omega
      · rw [Function.update_self]
        exact hX''
    case isFalse =>
      have hqX : FreeSeg mem (q :: X) q.start last := ⟨rfl, hq, hX'⟩
      refine ⟨rfl, ?_, ?_⟩
      · rw [Function.update_self]
        exact he
      · rw [Function.update_self]
        exact hqX.update hne

/-! ## The invariant -/

/-- The free list with `base`, which no request fits. -/
def freeList (base : Nat) (E : List Extent) : List Extent := ⟨base, 0⟩ :: E

/-- **The heap invariant**: `E` are the free blocks, `live` the blocks handed out. -/
structure HeapOk (base : Nat) (h : Heap) (live E : List Extent) : Prop where
  seg : FreeSeg h.mem (freeList base E) base base
  spaced : Spaced (freeList base E)
  freep : ∃ e ∈ freeList base E, e.start = h.freep
  pos : ∀ e ∈ E ++ live, 0 < e.len
  -- free and live blocks make up the regions obtained, each address in exactly one of them
  cover : ∀ x, cover (E ++ live) x = cover h.got x
  once : ∀ x, Extents.cover h.got x ≤ 1
  size : ∀ b ∈ live, 16 * (h.mem b.start).size.toNat = b.len
  got : ∀ r ∈ h.got, base + 16 ≤ r.start ∧ r.stop ≤ h.brk ∧ r.stop < 2 ^ 32
  base_pos : 0 < base
  brk : base + 16 ≤ h.brk

namespace HeapOk

variable {base : Nat} {h : Heap} {live E : List Extent} {b e : Extent}

variable (ok : HeapOk base h live E)

include ok

theorem apart : (E ++ live).Pairwise Extent.Apart :=
  pairwise_apart_of_cover fun x => ok.cover x ▸ ok.once x

theorem bounds (he : e ∈ E ++ live) :
    base + 16 ≤ e.start ∧ e.stop ≤ h.brk ∧ e.stop < 2 ^ 32 := by
  have hpos := ok.pos e he
  have hmem : ∀ x, e.Has x → ∃ r ∈ h.got, r.Has x := fun x hx =>
    cover_pos.1 (ok.cover x ▸ cover_pos.2 ⟨e, he, hx⟩)
  obtain ⟨r, hr, hrx⟩ := hmem e.start ⟨le_rfl, by simp only [Extent.stop]; omega⟩
  obtain ⟨r', hr', hrx'⟩ := hmem (e.stop - 1) (by simp only [Extent.Has, Extent.stop]; omega)
  have hb := ok.got r hr
  have hb' := ok.got r' hr'
  simp only [Extent.Has, Extent.stop] at *
  omega

theorem base_le (he : e ∈ freeList base E) : base ≤ e.start := by
  rcases mem_cons.1 he with rfl | he
  · exact le_rfl
  · have := (ok.bounds (mem_append_left _ he)).1
    omega

theorem start_ne (he : e ∈ freeList base E) (hb : b ∈ live) :
    e.start ≠ b.start := by
  rcases mem_cons.1 he with rfl | he
  · have := (ok.bounds (mem_append_right _ hb)).1
    show base ≠ b.start
    omega
  · have hap := (pairwise_append.1 ok.apart).2.2 e he b hb
    exact hap.start_ne (ok.pos e (mem_append_left _ he)) (ok.pos b (mem_append_right _ hb))

theorem stop_lt (he : e ∈ freeList base E) : e.stop < 2 ^ 32 ∨
    e = ⟨base, 0⟩ := by
  rcases mem_cons.1 he with rfl | he
  · exact .inr rfl
  · exact .inl (ok.bounds (mem_append_left _ he)).2.2

theorem unit_le (he : e ∈ E ++ live) : 16 ≤ e.len := by
  have hpos := ok.pos e he
  have hsize : 16 * (h.mem e.start).size.toNat = e.len := by
    rcases mem_append.1 he with he | he
    · exact ok.seg.size (mem_cons_of_mem _ he)
    · exact ok.size e he
  omega

theorem perm {live' : List Extent} (hp : live.Perm live') :
    HeapOk base h live' E where
  __ := ok
  pos e he := ok.pos e ((hp.append_left E).mem_iff.2 he)
  cover x := (cover_perm (hp.append_left E) x).symm.trans (ok.cover x)
  size b hb := ok.size b (hp.mem_iff.2 hb)

end HeapOk

/-! ## free -/

variable {A B : List Extent} {base : Nat} {p : Extent}

theorem stops_iff {bp : Nat} (hseg : FreeSeg mem (A ++ p :: B) base base)
    (hsort : (A ++ p :: B).Pairwise (fun a b => a.start < b.start)) (hp : base ≤ p.start)
    (hbp : base < bp) : Stops mem bp p.start ↔ p.start < bp ∧ ∀ q ∈ B, bp < q.start := by
  have hnext := hseg.split.2.2.2
  obtain ⟨hpB, hB⟩ := pairwise_cons.1 (pairwise_append.1 hsort).2.1
  unfold Stops
  cases B with
  | nil =>
    -- `p` is the last block, and its successor is `base`
    have hlast : (mem p.start).ptr = base := hnext
    rw [hlast]
    simp only [not_mem_nil, false_implies, implies_true, and_true]
    omega
  | cons q B =>
    have hq : q.start = (mem p.start).ptr := hnext.1
    have hlt := hpB q mem_cons_self
    have hrest : (∀ r ∈ q :: B, bp < r.start) ↔ bp < q.start := by
      constructor
      · intro h
        exact h q mem_cons_self
      · intro h r hr
        rcases mem_cons.1 hr with rfl | hr
        · exact h
        · exact h.trans ((pairwise_cons.1 hB).1 r hr)
    rw [hrest, ← hq]
    omega

/-- Walking a piece of the list that holds a place to stop, the search stops in it. -/
theorem freeSearch_seg {L : List Extent} {a b bp : Nat} (hseg : FreeSeg mem L a b)
    (hex : ∃ e ∈ L, Stops mem bp e.start) :
    ∃ e ∈ L, Stops mem bp e.start ∧
      ∀ fuel, L.length ≤ fuel → freeSearch mem bp fuel a = some e.start := by
  induction L generalizing a with
  | nil => simp at hex
  | cons f L ih =>
    obtain ⟨rfl, hl, hL⟩ := hseg
    by_cases hstop : Stops mem bp f.start
    · refine ⟨f, mem_cons_self, hstop, fun fuel hfuel => ?_⟩
      obtain ⟨fuel, rfl⟩ := Nat.exists_eq_add_of_le' hfuel
      rw [length_cons, ← Nat.add_assoc, freeSearch, if_pos hstop]
    · obtain ⟨e, he, hes⟩ := hex
      have heL : e ∈ L := by
        rcases mem_cons.1 he with rfl | he
        · exact absurd hes hstop
        · exact he
      obtain ⟨g, hg, hgs, hrun⟩ := ih hL ⟨e, heL, hes⟩
      refine ⟨g, mem_cons_of_mem _ hg, hgs, fun fuel hfuel => ?_⟩
      obtain ⟨fuel, rfl⟩ := Nat.exists_eq_add_of_le' hfuel
      rw [length_cons, ← Nat.add_assoc, freeSearch, if_neg hstop]
      exact hrun _ (Nat.le_add_left _ fuel)

variable {live E : List Extent} {h : Heap}

theorem HeapOk.rotate (ok : HeapOk base h live E) :
    ∃ A f B, freeList base E = A ++ f :: B ∧ f.start = h.freep ∧
      FreeSeg h.mem (B ++ A) (h.mem h.freep).ptr h.freep := by
  obtain ⟨f, hf, hstart⟩ := ok.freep
  obtain ⟨A, B, heq⟩ := append_of_mem hf
  have hseg := ok.seg
  rw [heq] at hseg
  obtain ⟨hA, hfB⟩ := hseg.split
  rw [hstart] at hA hfB
  exact ⟨A, f, B, heq, hstart, hfB.2.2.append hA⟩

variable {b : Extent}

variable (ok : HeapOk base h live E)

include ok

/-- **The search of `free`.** From any position of `freep` it ends at the block below the one to
be freed. -/
theorem HeapOk.freeSearch (hb : b ∈ live) :
    ∃ A p B, freeList base E = A ++ p :: B ∧ p.start < b.start ∧ (∀ q ∈ B, b.start < q.start) ∧
      ∀ fuel, E.length + 1 ≤ fuel → Xv6.freeSearch h.mem b.start fuel h.freep = some p.start := by
  have hbase : base < b.start := by
    have := (ok.bounds (mem_append_right _ hb)).1
    omega
  have hsort := ok.spaced.start_lt
  -- the block to stop at exists
  obtain ⟨A0, p0, B0, heq0, hp0, hB0⟩ : ∃ A p B, freeList base E = A ++ p :: B ∧
      p.start < b.start ∧ ∀ q ∈ B, b.start < q.start :=
    exists_last_below hsort hbase fun f hf => ok.start_ne (mem_cons_of_mem _ hf) hb
  have hstop0 : Stops h.mem b.start p0.start := by
    have hmem : p0 ∈ freeList base E := by simp [heq0]
    have hseg := ok.seg
    rw [heq0] at hsort hseg
    exact (stops_iff hseg hsort (ok.base_le hmem) hbase).2 ⟨hp0, hB0⟩
  -- and any block the walk stops at is that block
  obtain ⟨A, f, B, heq, hf, hwalk⟩ := ok.rotate
  have hfull : FreeSeg h.mem (f :: (B ++ A)) h.freep h.freep :=
    ⟨hf, hf ▸ ok.seg.size (by simp [heq]), hwalk⟩
  have hperm : (f :: (B ++ A)).Perm (freeList base E) := by
    rw [heq]
    exact ((perm_append_comm).cons f).trans perm_middle.symm
  have hlen : (f :: (B ++ A)).length = E.length + 1 := hperm.length_eq
  have hex : ∃ e ∈ f :: (B ++ A), Stops h.mem b.start e.start :=
    ⟨p0, hperm.mem_iff.2 (by simp [heq0]), hstop0⟩
  obtain ⟨p, hp, hpstop, hrun⟩ := freeSearch_seg hfull hex
  obtain ⟨A1, B1, heq1⟩ := append_of_mem (hperm.mem_iff.1 hp)
  have hseg := ok.seg
  rw [heq1] at hsort hseg
  obtain ⟨hlt, habove⟩ := (stops_iff hseg hsort (ok.base_le (hperm.mem_iff.1 hp)) hbase).1 hpstop
  exact ⟨A1, p, B1, heq1, hlt, habove, fun fuel hfuel => hrun fuel (hlen ▸ hfuel)⟩

/-- A freed block fits between the block the search stopped at and the ones above. -/
theorem HeapOk.fits (hb : b ∈ live) (heq : freeList base E = A ++ p :: B) (hp : p.start < b.start)
    (hB : ∀ q ∈ B, b.start < q.start) : p.stop ≤ b.start ∧ ∀ q ∈ B, b.stop ≤ q.start := by
  have hbpos := ok.pos b (mem_append_right _ hb)
  have hbase : base < b.start := by
    have := (ok.bounds (mem_append_right _ hb)).1
    omega
  have hapart : ∀ e ∈ E, e.Apart b := fun e he => (pairwise_append.1 ok.apart).2.2 e he b hb
  constructor
  · have hmem : p ∈ freeList base E := by simp [heq]
    rcases mem_cons.1 hmem with rfl | hE
    · exact hbase.le
    · exact (hapart p hE).stop_le hbpos hp
  · intro q hq
    have hmem : q ∈ freeList base E := by simp [heq, hq]
    rcases mem_cons.1 hmem with rfl | hE
    · exact absurd (hB _ hq) (not_lt.2 hbase.le)
    · exact (hapart q hE).symm.stop_le (ok.pos q (mem_append_left _ hE)) (hB q hq)

theorem HeapOk.insert_base (hb : b ∈ live) (heq : freeList base E = A ++ p :: B) :
    ∃ E', A ++ pushFront p (pushFront b B) = freeList base E' ∧ ∀ e ∈ E', 0 < e.len := by
  have hpos : ∀ e ∈ E, 0 < e.len := fun e he => ok.pos e (mem_append_left _ he)
  have hbpos := ok.pos b (mem_append_right _ hb)
  have hbB : (∀ q ∈ B, 0 < q.len) → ∀ e ∈ pushFront b B, 0 < e.len := fun hB =>
    len_pushFront fun e he => by
      rcases mem_cons.1 he with rfl | he
      · exact hbpos
      · exact hB e he
  cases A with
  | nil =>
    obtain ⟨rfl, rfl⟩ : ⟨base, 0⟩ = p ∧ E = B := cons_eq_cons.1 heq
    refine ⟨pushFront b E, ?_, hbB hpos⟩
    rw [nil_append, pushFront_of_lt]
    · rfl
    · intro q hq
      show base < q.start
      rcases start_pushFront hq with hq | hq
      · have := (ok.bounds (mem_append_right _ hb)).1
        omega
      · have := (ok.bounds (mem_append_left _ hq)).1
        omega
  | cons a A =>
    obtain ⟨rfl, rfl⟩ : ⟨base, 0⟩ = a ∧ E = A ++ p :: B := cons_eq_cons.1 heq
    refine ⟨A ++ pushFront p (pushFront b B), rfl, fun e he => ?_⟩
    rcases mem_append.1 he with he | he
    · exact hpos e (mem_append_left _ he)
    · refine len_pushFront (fun e he => ?_) e he
      rcases mem_cons.1 he with rfl | he
      · exact hpos _ (by simp)
      · exact hbB (fun q hq => hpos q (by simp [hq])) e he

theorem HeapOk.insert_seg (hb : b ∈ live) (heq : freeList base E = A ++ p :: B)
    (hp : p.start < b.start) (hB : ∀ q ∈ B, b.start < q.start) :
    FreeSeg (coalesce (coalesce h.mem b.start (h.mem p.start).ptr) p.start b.start)
      (A ++ pushFront p (pushFront b B)) base base := by
  have hmem : ∀ e ∈ A ++ p :: B, e ∈ freeList base E := fun e he => heq ▸ he
  obtain ⟨hlow, -, hstop⟩ := ok.bounds (mem_append_right E hb)
  have hseg := ok.seg
  rw [heq] at hseg
  obtain ⟨hA, hps, hpB⟩ := hseg.split
  have hstopB : ∀ q ∈ B, q.stop < 2 ^ 32 := fun q hq => by
    rcases ok.stop_lt (hmem q (by simp [hq])) with h | rfl
    · exact h
    · have : b.start < base := hB _ hq
      omega
  have hneb : ∀ e ∈ A ++ p :: B, e.start ≠ b.start := fun e he => ok.start_ne (hmem e he) hb
  -- the block and what comes after it
  have hX : FreeSeg (coalesce h.mem b.start (h.mem p.start).ptr) (pushFront b B) b.start base := by
    apply hpB.2.coalesce (ok.size b hb) _ (fun q hq => hneb q (by simp [hq])) hstopB
    intro
    simp only [Extent.stop]
    omega
  -- and in front of both the block it was found at
  have hsort := ok.spaced.start_lt
  rw [heq] at hsort
  have hpA := (pairwise_append.1 hsort).2.2
  have hpX : ∀ f ∈ pushFront b B, f.start ≠ p.start := fun f hf => by
    rcases start_pushFront hf with hf | hf
    · omega
    · have := hB f hf
      omega
  have hpsize : 16 * (coalesce h.mem b.start (h.mem p.start).ptr p.start).size.toNat = p.len := by
    rw [coalesce_of_ne hp.ne]
    exact hpB.1
  have hne : pushFront b B ≠ [] := by
    obtain ⟨e, he, -⟩ := exists_start_pushFront b B
    exact ne_nil_of_mem he
  have hrest := hX.coalesce hpsize (fun h => absurd h hne) hpX (stop_pushFront hstop hstopB)
  refine FreeSeg.append (hA.congr fun e he => ?_) hrest
  have hlt := hpA e he p mem_cons_self
  rw [coalesce_of_ne hlt.ne, coalesce_of_ne (hneb e (by simp [he]))]

omit ok

/-- **`free`.** It returns, and the block is free afterwards. -/
theorem HeapOk.free (ok : HeapOk base h (b :: live) E) :
    ∃ h' E', (∀ fuel, E.length + 1 ≤ fuel → Xv6.free fuel h (b.start + 16) = some h') ∧
      HeapOk base h' live E' ∧ ∃ e ∈ E', b.len ≤ e.len := by
  have hb : b ∈ b :: live := mem_cons_self
  obtain ⟨A, p, B, heq, hp, hB, hrun⟩ := ok.freeSearch hb
  obtain ⟨E', hE', hpos'⟩ := ok.insert_base hb heq
  obtain ⟨hpb, hbB⟩ := ok.fits hb heq hp hB
  have hspaced : Spaced (freeList base E') := by
    have hs := ok.spaced
    rw [heq] at hs
    rw [← hE']
    exact hs.insert hpb hbB
  have hbig : ∃ e ∈ E', b.len ≤ e.len := by
    obtain ⟨x, hx, hbx⟩ := exists_le_pushFront_self b B
    obtain ⟨e, he, hxe⟩ := exists_le_pushFront (b := p) hx
    have hmem : e ∈ freeList base E' := by
      rw [← hE']
      exact mem_append_right _ he
    have hbpos := ok.pos b (mem_append_right _ hb)
    rcases mem_cons.1 hmem with rfl | hmem
    · -- `base` is empty
      have : x.len ≤ 0 := hxe
      omega
    · exact ⟨e, hmem, hbx.trans hxe⟩
  refine ⟨{ h with
    mem := coalesce (coalesce h.mem b.start (h.mem p.start).ptr) p.start b.start
    freep := p.start }, E', fun fuel hfuel => ?_, ?_, hbig⟩
  · simp only [Xv6.free, Nat.add_sub_cancel, hrun fuel hfuel]
    rfl
  · have hap := (pairwise_append.1 ok.apart).2.1
    refine
      { seg := hE' ▸ ok.insert_seg hb heq hp hB
        spaced := hspaced
        freep := ?_
        pos := ?_
        cover := ?_
        once := ok.once
        size := ?_
        got := ok.got
        base_pos := ok.base_pos
        brk := ok.brk }
    · obtain ⟨e, he, hep⟩ := exists_start_pushFront p (pushFront b B)
      exact ⟨e, hE' ▸ mem_append_right _ he, hep⟩
    · intro e he
      rcases mem_append.1 he with he | he
      · exact hpos' e he
      · exact ok.pos e (mem_append_right _ (mem_cons_of_mem _ he))
    · intro x
      have hins := cover_insert A B p b x
      rw [hE', cons_append, ← heq, cover_cons, freeList, cover_of_empty rfl, freeList,
        cover_of_empty rfl] at hins
      have hold := ok.cover x
      rw [cover_append, cover_cons] at hold
      rw [cover_append]
      show _ = Extents.cover h.got x
      omega
    · -- the headers that were written are neither of them a live block's
      intro c hc
      have hcb : b.start ≠ c.start := ((pairwise_cons.1 hap).1 c hc).start_ne
        (ok.pos b (mem_append_right _ hb))
        (ok.pos c (mem_append_right _ (mem_cons_of_mem _ hc)))
      have hcp : p.start ≠ c.start :=
        ok.start_ne (by simp [heq]) (mem_cons_of_mem _ hc)
      show 16 * (coalesce (coalesce h.mem b.start _) p.start b.start c.start).size.toNat = c.len
      rw [coalesce_of_ne hcp.symm, coalesce_of_ne hcb.symm]
      exact ok.size c (mem_cons_of_mem _ hc)

end Xv6
