import Xv6.Virtio.Disk

/-!
# Descriptors of the virtio disk

What the allocation functions do, and the part of the invariant that is about descriptors: the
chains of the calls in progress are disjoint, they are exactly the descriptors that are not free,
and once formatted each is a header, the data of the buffer and a status byte for its request.
-/

namespace Xv6

open Machines Function

def DescChain.idx (x : DescChain) : List Nat := [x.head, x.data, x.status]

structure DescChain.Ok (x : DescChain) : Prop where
  nodup : x.idx.Nodup
  lt : ∀ i ∈ x.idx, i < NUM

variable {B D : Type} {m m' : Vdisk B D} {x : DescChain} {i : Nat}

@[simp] theorem DescChain.mem_idx : i ∈ x.idx ↔ i = x.head ∨ i = x.data ∨ i = x.status := by
  simp [idx]

theorem DescChain.Ok.ne (h : x.Ok) : x.head ≠ x.data ∧ x.head ≠ x.status ∧ x.data ≠ x.status := by
  have := h.nodup
  simp only [idx, List.nodup_cons, List.mem_cons, List.not_mem_nil, or_false, not_or] at this
  exact ⟨this.1.1, this.1.2, this.2.1⟩

/-! ## Allocation -/

theorem allocDesc_cases (m : Vdisk B D) :
    (∃ i < NUM, m.free i = true ∧ m.allocDesc = (some i, m.markUsed i)) ∨
    m.allocDesc = (none, m) := by
  unfold Vdisk.allocDesc
  cases h : (List.range NUM).find? m.free with
  | none => exact .inr rfl
  | some i =>
    exact .inl ⟨i, List.mem_range.1 (List.mem_of_find?_eq_some h), List.find?_some h, rfl⟩

theorem freeDesc_ok (hi : i < NUM) (hf : m.free i = false) : m.freeDesc i = .ok (m.markFree i) := by
  rw [Vdisk.freeDesc, if_neg (not_le.2 hi), hf]
  rfl

/-- `m'` is `m` but for the contents of free descriptors. -/
def Vdisk.UpToFree (m m' : Vdisk B D) : Prop :=
  ∃ desc, m' = { m with desc := desc } ∧ ∀ i, m.free i = false → desc i = m.desc i

theorem upToFree_one (hf : m.free i = true) : m.UpToFree ((m.markUsed i).markFree i) := by
  have hfree : update (update m.free i false) i true = m.free := by
    rw [update_idem, ← hf, update_eq_self]
  refine ⟨update m.desc i ⟨.null, 0, 0, 0⟩, ?_, fun k hk => update_of_ne ?_ _ _⟩
  · show { m with desc := _, free := update (update m.free i false) i true } = _
    rw [hfree]
    rfl
  · rintro rfl
    rw [hf] at hk
    cases hk

theorem upToFree_two {j : Nat} (hi : m.free i = true) (hj : m.free j = true) :
    m.UpToFree ((((m.markUsed i).markUsed j).markFree i).markFree j) := by
  have hfree : update (update (update (update m.free i false)
      j false) i true) j true = m.free := by
    funext k
    simp only [update_apply]
    split_ifs <;> simp_all
  refine ⟨update (update m.desc i ⟨.null, 0, 0, 0⟩) j ⟨.null, 0, 0, 0⟩, ?_,
    fun k hk => ?_⟩
  · show { m with desc := _, free := update (update (update
      (update m.free i false) j false) i true) j true } = _
    rw [hfree]
    rfl
  · rw [update_of_ne, update_of_ne]
    all_goals
      rintro rfl
      simp_all

/-- `alloc3_desc` takes three free descriptors, or leaves the free ones as they are. -/
theorem alloc3Desc_cases (m : Vdisk B D) :
    (∃ x : DescChain, x.Ok ∧ (∀ i ∈ x.idx, m.free i = true) ∧ m.alloc3Desc =
      .ok (some x, ((m.markUsed x.head).markUsed x.data).markUsed x.status)) ∨
    ∃ m', m.UpToFree m' ∧ m.alloc3Desc = .ok (none, m') := by
  unfold Vdisk.alloc3Desc
  rcases allocDesc_cases m with ⟨i, hi, hfi, h1⟩ | h1
  case inr =>
    rw [h1]
    exact .inr ⟨m, ⟨m.desc, rfl, fun _ _ => rfl⟩, rfl⟩
  rcases allocDesc_cases (m.markUsed i) with ⟨j, hj, hfj, h2⟩ | h2
  case inr =>
    have hfree : (m.markUsed i).free i = false := update_self _ _ _
    simp only [h1, h2, freeDesc_ok hi hfree]
    exact .inr ⟨_, upToFree_one hfi, rfl⟩
  have hji : j ≠ i := by
    rintro rfl
    exact absurd hfj (by simp [Vdisk.markUsed])
  have hfj' : m.free j = true := by simpa [Vdisk.markUsed, hji] using hfj
  rcases allocDesc_cases ((m.markUsed i).markUsed j) with ⟨k, hk, hfk, h3⟩ | h3
  case inr =>
    have hfree : ((m.markUsed i).markUsed j).free i = false := by
      simp [Vdisk.markUsed, update_apply]
    have hfree' : (((m.markUsed i).markUsed j).markFree i).free j = false := by
      simp [Vdisk.markUsed, Vdisk.markFree, hji]
    simp only [h1, h2, h3, freeDesc_ok hi hfree, freeDesc_ok hj hfree', bind, Except.bind]
    exact .inr ⟨_, upToFree_two hfi hfj', rfl⟩
  have hk' : k ≠ i ∧ k ≠ j ∧ m.free k = true := by
    simp only [Vdisk.markUsed, update_apply] at hfk
    split_ifs at hfk with h h'
    exact ⟨h', h, hfk⟩
  simp only [h1, h2, h3]
  refine .inl ⟨⟨i, j, k⟩, ⟨?_, ?_⟩, ?_, rfl⟩
  · simp [DescChain.idx, hji.symm, hk'.1.symm, hk'.2.1.symm]
  · simp [hi, hj, hk]
  · simp [hfi, hfj', hk'.2.2]

/-! ## The chains of the calls in progress -/

variable {blockno : B → UInt32} {c : DiskCall B}

/-- A chain formatted for a call: a header with the direction and the first sector of the block,
the data of the buffer, and a status byte. -/
structure Formed (blockno : B → UInt32) (m : Vdisk B D) (c : DiskCall B) (x : DescChain) : Prop where
  type : (m.ops x.head).type = if c.write then VIRTIO_BLK_T_OUT else VIRTIO_BLK_T_IN
  sector : (m.ops x.head).sector.toNat = 2 * (blockno c.b).toNat
  head : m.desc x.head = ⟨.op x.head, 16, VRING_DESC_F_NEXT, x.data⟩
  data : m.desc x.data = ⟨.data c.b, BSIZE,
    (if c.write then 0 else VRING_DESC_F_WRITE) ||| VRING_DESC_F_NEXT, x.status⟩
  status : m.desc x.status = ⟨.status x.head, 1, VRING_DESC_F_WRITE, 0⟩
  buf : (m.info x.head).b = some c.b

theorem Formed.decode (h : Formed blockno m c x) :
    m.decode x.head = some (c.request blockno, x.head) := by
  unfold Vdisk.decode
  rw [h.head]
  dsimp only
  rw [h.data]
  dsimp only
  rw [h.status]
  dsimp only
  rw [h.type, DiskCall.request, ← h.sector, UInt64.ofNat_toNat]
  cases c.write with
  | true =>
    have hdir : (0 ||| VRING_DESC_F_NEXT) &&& VRING_DESC_F_WRITE ≠ 0 ↔
      VIRTIO_BLK_T_OUT = VIRTIO_BLK_T_IN := by decide
    rw [if_pos ⟨rfl, rfl, rfl, by decide, hdir, rfl, rfl⟩]
    rfl
  | false =>
    have hdir : (VRING_DESC_F_WRITE ||| VRING_DESC_F_NEXT) &&& VRING_DESC_F_WRITE ≠ 0 ↔
      VIRTIO_BLK_T_IN = VIRTIO_BLK_T_IN := by decide
    rw [if_pos ⟨rfl, rfl, rfl, by decide, hdir, rfl, rfl⟩]
    rfl

/-- Below `2 ^ 31` the driver's 32-bit product does not wrap. -/
theorem sectorOf_toNat {n : UInt32} (h : n.toNat < 2 ^ 31) :
    (Vdisk.sectorOf n).toNat = 2 * n.toNat := by
  rw [Vdisk.sectorOf, UInt32.toNat_toUInt64, UInt32.toNat_mul]
  change n.toNat * 2 % 2 ^ 32 = 2 * n.toNat
  omega

theorem formed_format [DecidableEq B] (hx : x.Ok) (hb : (blockno c.b).toNat < 2 ^ 31) :
    Formed blockno (m.format blockno c x) c x := by
  obtain ⟨h1, h2, h3⟩ := hx.ne
  have hop : (m.format blockno c x).ops x.head = _ := update_self _ _ _
  refine ⟨by rw [hop], by rw [hop, sectorOf_toNat hb], ?_, ?_, update_self _ _ _, ?_⟩
  · show update (update (update m.desc x.head _) x.data _) x.status _
      x.head = _
    rw [update_of_ne h2, update_of_ne h1, update_self]
  · show update (update (update m.desc x.head _) x.data _) x.status _
      x.data = _
    rw [update_of_ne h3, update_self]
  · show (update m.info x.head _ x.head).b = _
    rw [update_self]

theorem Formed.congr (h : Formed blockno m c x) (hdesc : ∀ i ∈ x.idx, m'.desc i = m.desc i)
    (hops : m'.ops x.head = m.ops x.head) (hinfo : (m'.info x.head).b = (m.info x.head).b) :
    Formed blockno m' c x where
  type := hops ▸ h.type
  sector := hops ▸ h.sector
  head := (hdesc _ (by simp)).trans h.head
  data := (hdesc _ (by simp)).trans h.data
  status := (hdesc _ (by simp)).trans h.status
  buf := hinfo.trans h.buf

theorem retire_ok (hx : x.Ok) (hfree : ∀ i ∈ x.idx, m.free i = false) (h : Formed blockno m c x) :
    m.retire x =
      .ok ((((m.forget x.head).markFree x.head).markFree x.data).markFree x.status) := by
  obtain ⟨h1, h2, h3⟩ := hx.ne
  have hlt := hx.lt
  simp only [DescChain.mem_idx, forall_eq_or_imp, forall_eq] at hfree hlt
  unfold Vdisk.retire
  generalize hm : m.forget x.head = m1
  have hdesc : m1.desc = m.desc := by rw [← hm, Vdisk.forget]
  have hf : m1.free = m.free := by rw [← hm, Vdisk.forget]
  have hf1 : m1.free x.head = false := by rw [hf, hfree.1]
  have hf2 : (m1.markFree x.head).free x.data = false := by
    simp [Vdisk.markFree, h1.symm, hf, hfree.2.1]
  have hf3 : ((m1.markFree x.head).markFree x.data).free x.status = false := by
    simp [Vdisk.markFree, h2.symm, h3.symm, hf, hfree.2.2]
  have hd2 : (m1.markFree x.head).desc x.data = m.desc x.data := by
    simp [Vdisk.markFree, h1.symm, hdesc]
  have hd3 : ((m1.markFree x.head).markFree x.data).desc x.status = m.desc x.status := by
    simp [Vdisk.markFree, h2.symm, h3.symm, hdesc]
  have hnext : ((if c.write then 0 else VRING_DESC_F_WRITE) ||| VRING_DESC_F_NEXT) &&&
      VRING_DESC_F_NEXT ≠ 0 := by
    cases c.write with
    | true | false => decide
  rw [show NUM + 1 = 8 + 1 from rfl, Vdisk.freeChain, freeDesc_ok hlt.1 hf1, hdesc, h.head]
  dsimp only
  rw [if_pos (by decide), Vdisk.freeChain, freeDesc_ok hlt.2.1 hf2, hd2, h.data]
  dsimp only
  rw [if_pos hnext, Vdisk.freeChain, freeDesc_ok hlt.2.2 hf3, hd3, h.status]
  dsimp only
  rw [if_neg (by decide)]

/-! ## Who has which descriptors -/

variable {P : Type}

/-- The descriptors in use are those of the calls, and no two calls share one. -/
structure ChainsOk (chains : P → Option DescChain) (free : Nat → Bool) : Prop where
  ok : ∀ {p x}, chains p = some x → x.Ok
  apart : ∀ {p q x y i}, chains p = some x → chains q = some y → i ∈ x.idx → i ∈ y.idx → p = q
  used : ∀ {i}, i < NUM → (free i = false ↔ ∃ p x, chains p = some x ∧ i ∈ x.idx)

namespace ChainsOk

variable {chains : P → Option DescChain} {free : Nat → Bool} {p : P} [DecidableEq P]

omit [DecidableEq P] in
theorem free_eq_false (h : ChainsOk chains free) (hp : chains p = some x) (hi : i ∈ x.idx) :
    free i = false := (h.used ((h.ok hp).lt i hi)).2 ⟨p, x, hp, hi⟩

theorem take (h : ChainsOk chains free) (hp : chains p = none) (hx : x.Ok)
    (hfree : ∀ i ∈ x.idx, free i = true) {free' : Nat → Bool}
    (hfree' : ∀ i, free' i = if i ∈ x.idx then false else free i) :
    ChainsOk (update chains p (some x)) free' := by
  have hnew : ∀ {q y}, update chains p (some x) q = some y →
      q = p ∧ y = x ∨ q ≠ p ∧ chains q = some y := by
    intro q y hq
    rcases update_eq_cases hq with ⟨rfl, hx⟩ | hq
    · cases hx
      exact .inl ⟨rfl, rfl⟩
    · exact .inr hq
  refine ⟨fun hq => ?_, fun hq hr hi hj => ?_, fun {i} hi => ?_⟩
  · rcases hnew hq with ⟨-, rfl⟩ | ⟨-, hq⟩
    · exact hx
    · exact h.ok hq
  · rcases hnew hq with ⟨rfl, rfl⟩ | ⟨-, hq'⟩
    · rcases hnew hr with ⟨rfl, -⟩ | ⟨-, hr'⟩
      · rfl
      · have := (hfree _ hi).symm.trans (h.free_eq_false hr' hj)
        cases this
    · rcases hnew hr with ⟨rfl, rfl⟩ | ⟨-, hr'⟩
      · have := (hfree _ hj).symm.trans (h.free_eq_false hq' hi)
        cases this
      · exact h.apart hq' hr' hi hj
  · rw [hfree']
    constructor
    · intro hf
      by_cases hix : i ∈ x.idx
      · exact ⟨p, x, update_self _ _ _, hix⟩
      · rw [if_neg hix] at hf
        obtain ⟨q, y, hq, hiy⟩ := (h.used hi).1 hf
        have hqp : q ≠ p := by
          rintro rfl
          rw [hp] at hq
          cases hq
        exact ⟨q, y, by rw [update_of_ne hqp, hq], hiy⟩
    · intro ⟨q, y, hq, hiy⟩
      rcases hnew hq with ⟨-, rfl⟩ | ⟨-, hq⟩
      · rw [if_pos hiy]
      · rw [h.free_eq_false hq hiy]
        split <;> rfl

theorem drop (h : ChainsOk chains free) (hp : chains p = some x) {free' : Nat → Bool}
    (hfree' : ∀ i, free' i = if i ∈ x.idx then true else free i) :
    ChainsOk (update chains p none) free' := by
  have hold : ∀ {q y}, update chains p none q = some y → q ≠ p ∧ chains q = some y :=
    fun hq => (update_eq_cases hq).resolve_left fun hq => by cases hq.2
  refine ⟨fun hq => h.ok (hold hq).2, fun hq hr => h.apart (hold hq).2 (hold hr).2,
    fun {i} hi => ?_⟩
  rw [hfree']
  constructor
  · intro hf
    split at hf
    case isTrue => cases hf
    case isFalse hix =>
      obtain ⟨q, y, hq, hiy⟩ := (h.used hi).1 hf
      have hqp : q ≠ p := by
        rintro rfl
        rw [hp] at hq
        cases hq
        exact hix hiy
      exact ⟨q, y, by rw [update_of_ne hqp, hq], hiy⟩
  · intro ⟨q, y, hq, hiy⟩
    obtain ⟨hqp, hq⟩ := hold hq
    rw [if_neg fun hix => hqp (h.apart hq hp hiy hix), h.free_eq_false hq hiy]

end ChainsOk

/-- The descriptors in a state: `proc` are the calls in progress, `tag` tells for a head which call
it is of. -/
structure DescsOk (blockno : B → UInt32) (proc : P → DiskPc B) (m : Vdisk B D) (tag : Nat → Nat) :
    Prop where
  chains : ChainsOk (fun p => (proc p).chain) m.free
  formed : ∀ {p st c x}, proc p = .own st c x → st ≠ .format →
    Formed blockno m c x ∧ tag x.head = c.id

namespace DescsOk

variable {proc : P → DiskPc B} {tag : Nat → Nat} {p : P} {st : DiskStage}

theorem chain_eq (hp : proc p = .own st c x) : (fun p => (proc p).chain) p = some x := by
  show (proc p).chain = some x
  rw [hp]
  rfl

theorem congr (h : DescsOk blockno proc m tag) (hfree : m'.free = m.free) (hdesc : m'.desc = m.desc)
    (hops : m'.ops = m.ops) (hinfo : ∀ i, (m'.info i).b = (m.info i).b) :
    DescsOk blockno proc m' tag where
  chains := hfree ▸ h.chains
  formed hp hst :=
    have hf := h.formed hp hst
    ⟨hf.1.congr (fun _ _ => by rw [hdesc]) (by rw [hops]) (hinfo _), hf.2⟩

theorem upToFree (h : DescsOk blockno proc m tag) (hm : m.UpToFree m') :
    DescsOk blockno proc m' tag := by
  obtain ⟨desc, rfl, hdesc⟩ := hm
  refine ⟨h.chains, fun hp hst => ?_⟩
  obtain ⟨hf, ht⟩ := h.formed hp hst
  exact ⟨hf.congr (fun i hi => hdesc i (h.chains.free_eq_false (chain_eq hp) hi)) rfl rfl, ht⟩

theorem other (h : DescsOk blockno proc m tag) {q : P} {st' : DiskStage} {d : DiskCall B}
    {y : DescChain} (hp : proc p = .own st c x) (hq : proc q = .own st' d y) (hqp : q ≠ p)
    (hi : i ∈ y.idx) : i ≠ x.head ∧ i ≠ x.data ∧ i ≠ x.status := by
  have hnot : i ∉ x.idx := fun hix => hqp (h.chains.apart (chain_eq hq) (chain_eq hp) hi hix)
  simpa using hnot

theorem update_chain {α : Type} {f : Nat → α} {u v w : α}
    (hi : i ≠ x.head ∧ i ≠ x.data ∧ i ≠ x.status) :
    update (update (update f x.head u) x.data v) x.status w i = f i := by
  rw [update_of_ne hi.2.2, update_of_ne hi.2.1, update_of_ne hi.1]

variable [DecidableEq P]

theorem chain_update (proc : P → DiskPc B) (p : P) (pc : DiskPc B) :
    (fun q => (update proc p pc q).chain) =
      update (fun q => (proc q).chain) p pc.chain := by
  funext q
  exact apply_update (fun _ => DiskPc.chain) proc p pc q

variable (h : DescsOk blockno proc m tag)

include h

theorem move {pc : DiskPc B} (hpc : pc.chain = (proc p).chain)
    (hst : ∀ {st c x}, pc = .own st c x → st ≠ .format → ∃ st0 ≠ .format, proc p = .own st0 c x) :
    DescsOk blockno (update proc p pc) m tag := by
  constructor
  · rw [chain_update, hpc, update_eq_self]
    exact h.chains
  · intro q st c x hq hne
    rcases update_eq_cases hq with ⟨rfl, hown⟩ | ⟨-, hq⟩
    · obtain ⟨st0, hne0, hq⟩ := hst hown hne
      exact h.formed hq hne0
    · exact h.formed hq hne

theorem alloc (hp : (proc p).chain = none) (hx : x.Ok) (hfree : ∀ i ∈ x.idx, m.free i = true) :
    DescsOk blockno (update proc p (.own .format c x))
      (((m.markUsed x.head).markUsed x.data).markUsed x.status) tag := by
  constructor
  · rw [chain_update]
    refine h.chains.take hp hx hfree fun i => ?_
    simp only [Vdisk.markUsed, update_apply, DescChain.mem_idx]
    split_ifs <;> simp_all
  · intro q st c x hq hne
    rcases update_eq_cases hq with ⟨-, hq⟩ | ⟨-, hq⟩
    · cases hq
      exact absurd rfl hne
    · obtain ⟨hf, ht⟩ := h.formed hq hne
      exact ⟨hf.congr (fun _ _ => rfl) rfl rfl, ht⟩

theorem format [DecidableEq B] (hp : proc p = .own .format c x)
    (hb : (blockno c.b).toNat < 2 ^ 31) :
    DescsOk blockno (update proc p (.own .publish c x)) (m.format blockno c x)
      (update tag x.head c.id) := by
  constructor
  · rw [chain_update, show (DiskPc.own .publish c x).chain = (proc p).chain by rw [hp]; rfl,
      update_eq_self]
    exact h.chains
  · intro q st d y hq hne
    rcases update_eq_cases hq with ⟨rfl, hpc⟩ | ⟨hqp, hq⟩
    · cases hpc
      exact ⟨formed_format (h.chains.ok (chain_eq hp)) hb, update_self _ _ _⟩
    · obtain ⟨hf, ht⟩ := h.formed hq hne
      have hhead := (h.other hp hq hqp (i := y.head) (by simp)).1
      refine ⟨hf.congr (fun i hi => update_chain (h.other hp hq hqp hi)) (update_of_ne hhead _ _) ?_,
        ?_⟩
      · show (update m.info x.head _ y.head).b = _
        rw [update_of_ne hhead]
      · rw [update_of_ne hhead, ht]

theorem finish (hp : proc p = .own st c x) :
    DescsOk blockno (update proc p .idle)
      ((((m.forget x.head).markFree x.head).markFree x.data).markFree x.status) tag := by
  constructor
  · rw [chain_update]
    refine h.chains.drop (chain_eq hp) fun i => ?_
    simp only [Vdisk.forget, Vdisk.markFree, update_apply, DescChain.mem_idx]
    split_ifs <;> simp_all
  · intro q st d y hq hne
    rcases update_eq_cases hq with ⟨-, hq⟩ | ⟨hqp, hq⟩
    · cases hq
    · obtain ⟨hf, ht⟩ := h.formed hq hne
      refine ⟨hf.congr (fun i hi => update_chain (h.other hp hq hqp hi)) rfl ?_, ht⟩
      show (update m.info x.head _ y.head).b = _
      rw [update_of_ne (h.other hp hq hqp (i := y.head) (by simp)).1]

end DescsOk

end Xv6
