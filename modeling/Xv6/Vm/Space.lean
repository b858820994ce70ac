import Xv6.Vm.Walk

/-!
# Address spaces

The page table of a process: `n` pages of user memory from address 0 on, each in a page of its
own, the trapframe and the trampoline, and nothing else. `uvmalloc` and `uvmdealloc` move `n`, or
leave everything as it was; `proc_pagetable` and `proc_freepagetable` make such a page table and
take it apart.
-/

namespace Xv6

open Prog Radix Function Finset

/-- `trampoline` and `trapframe` are the physical pages of `trampoline` and `p->trapframe`. -/
def procPagetable (trampoline trapframe : Nat) : VmM (Option Nat) := do
  match ← uvmcreate with
  | none => return none
  | some pagetable =>
    if (← mappages pagetable TRAMPOLINE PGSIZE trampoline (PTE_R ||| PTE_X)) < 0 then
      uvmfree pagetable 0
      return none
    else if (← mappages pagetable TRAPFRAME PGSIZE trapframe (PTE_R ||| PTE_W)) < 0 then
      uvmunmap pagetable TRAMPOLINE 1 false
      uvmfree pagetable 0
      return none
    else
      return some pagetable

def procFreepagetable (pagetable sz : Nat) : VmM Unit := do
  uvmunmap pagetable TRAMPOLINE 1 false
  uvmunmap pagetable TRAPFRAME 1 false
  uvmfree pagetable sz

/-! ### Sizes in pages -/

def npages (sz : Nat) : Nat := (sz + (PGSIZE - 1)) / PGSIZE

theorem PGSIZE_pos : 0 < PGSIZE := by decide

variable {sz : Nat}

theorem pgroundup_eq (h : sz < 2 ^ 63) : PGROUNDUP sz = npages sz * PGSIZE := by
  have hlt : sz + (PGSIZE - 1) < 2 ^ 64 := by
    have hroom : 2 ^ 63 + PGSIZE < 2 ^ 64 := by decide
    omega
  unfold PGROUNDUP npages
  rw [Nat.mod_eq_of_lt hlt]

theorem npages_mul (n : Nat) : npages (n * PGSIZE) = n := by
  unfold npages
  rw [Nat.mul_comm, Nat.mul_add_div PGSIZE_pos, Nat.div_eq_of_lt (by decide), Nat.add_zero]

theorem npages_mono {a b : Nat} (h : a ≤ b) : npages a ≤ npages b :=
  Nat.div_le_div_right (by omega)

theorem le_npages (sz : Nat) : sz ≤ npages sz * PGSIZE := by
  unfold npages PGSIZE
  omega

variable {v : Nat}

theorem lt_npages : v < npages sz ↔ v * PGSIZE < sz := by
  unfold npages PGSIZE
  omega

theorem page_lt {a : Nat} (h : a < sz) : a / PGSIZE < npages sz :=
  lt_npages.mpr ((Nat.div_mul_le_self a PGSIZE).trans_lt h)

/-! ### Spaces -/

/-- The page table at `root` maps `n` pages of user memory, each to a page of its own. -/
structure Users (F : Set Nat) (s : Vm) (root n : Nat) (t : Shape Pte) (c : Nat → Page) : Prop
    extends Arena F s root t (rangePages t.leaf 0 n) c where
  user : ∀ v, v < n → (t.leaf v).kind = .value
  inj : ∀ v w, v < w → w < n → (t.leaf v).pa ≠ (t.leaf w).pa

/-- It maps the trapframe and the trampoline besides, and no more. -/
structure Space (F : Set Nat) (s : Vm) (root n : Nat) (t : Shape Pte) (c : Nat → Page) : Prop
    extends Users F s root n t c where
  trampoline : (t.leaf (TRAMPOLINE / PGSIZE)).kind = .value
  trapframe : (t.leaf (TRAPFRAME / PGSIZE)).kind = .value
  kernel : (t.leaf (TRAMPOLINE / PGSIZE)).U = false ∧ (t.leaf (TRAPFRAME / PGSIZE)).U = false
  other : ∀ v, n ≤ v → v ≠ TRAMPOLINE / PGSIZE → v ≠ TRAPFRAME / PGSIZE → t.leaf v = 0

theorem mem_user {leaf : Nat → Pte} {n : Nat} (hv : v < n) : (leaf v).pa ∈ rangePages leaf 0 n :=
  ⟨v, Nat.zero_le v, by omega, rfl⟩

namespace Users

variable {F : Set Nat} {s : Vm} {root n : Nat} {t : Shape Pte} {c : Nat → Page}

variable (h : Users F s root n t c)

include h

theorem user_mem (hv : v < n) :
    s.mem (t.leaf v).pa = c (t.leaf v).pa :=
  h.data (mem_user hv)

theorem lt : n < 2 ^ 15 := by
  have hcard := card_le_card_of_injOn (s := Finset.range n)
    (t := Finset.Ico s.base (PHYSTOP / PGSIZE)) (fun v => (t.leaf v).pa) (fun v hv => ?_)
    fun v hv w hw heq => ?_
  · rw [card_range, Nat.card_Ico] at hcard
    have hbase := h.base
    unfold KERNBASE PGSIZE at hbase
    unfold PHYSTOP KERNBASE PGSIZE at hcard
    omega
  · have hrange := h.range _ (h.mem_data (mem_user (mem_range.mp hv)))
    refine mem_Ico.mpr ⟨hrange.1, ?_⟩
    have hlt := hrange.2
    show (t.leaf v).pa < PHYSTOP / PGSIZE
    unfold PGSIZE PHYSTOP KERNBASE at hlt ⊢
    omega
  · have hv' := mem_range.mp hv
    have hw' := mem_range.mp hw
    rcases Nat.lt_trichotomy v w with hlt | rfl | hlt
    · exact absurd heq (h.inj v w hlt hw')
    · rfl
    · exact absurd heq.symm (h.inj w v hlt hv')

theorem lt_trapframe : n < TRAPFRAME / PGSIZE :=
  h.lt.trans (by decide)

theorem range_sdiff {m : Nat} (hm : m ≤ n) :
    rangePages t.leaf 0 n \ rangePages t.leaf m (n - m) = rangePages t.leaf 0 m := by
  ext p
  constructor
  · rintro ⟨⟨v, -, hv, hp⟩, hout⟩
    refine ⟨v, Nat.zero_le v, ?_, hp⟩
    by_contra hge
    exact hout ⟨v, by omega, by omega, hp⟩
  · rintro ⟨v, -, hv, hp⟩
    refine ⟨⟨v, Nat.zero_le v, by omega, hp⟩, ?_⟩
    rintro ⟨w, hw, hw', hp'⟩
    exact h.inj v w (by omega) (by omega) (hp.trans hp'.symm)

end Users

variable {c' : Nat → Page} {s' : Vm}

theorem Space.of_leaf {F F' : Set Nat} {s : Vm} {root n : Nat} {t : Shape Pte} {c : Nat → Page}
    (h : Space F s root n t c) {t' : Shape Pte}
    (h' : Arena F' s' root t' (rangePages t.leaf 0 n) c') (hleaf : t'.leaf = t.leaf) :
    Space F' s' root n t' c' where
  toArena := by rwa [hleaf]
  user := by rw [hleaf]; exact h.user
  inj := by rw [hleaf]; exact h.inj
  trampoline := by rw [hleaf]; exact h.trampoline
  trapframe := by rw [hleaf]; exact h.trapframe
  kernel := by rw [hleaf]; exact h.kernel
  other := by rw [hleaf]; exact h.other

/-! ### Shrinking -/

section Shrink

variable {F : Set Nat} {s : Vm} {root n : Nat} {t : Shape Pte} {c : Nat → Page} {E : VmPanic → Prop}

theorem uvmunmap_users (h : Users F s root n t c) {m : Nat} (hm : m ≤ n) :
    wp E (uvmunmap root (m * PGSIZE) (n - m) true) (fun _ s' => ∃ t' : Shape Pte,
      t'.leaf = clearRange t.leaf m (n - m) ∧ Users F s' root m t' c) s := by
  have hmod : m * PGSIZE % PGSIZE = 0 := Nat.mul_mod_left m PGSIZE
  have hdiv : m * PGSIZE / PGSIZE = m := Nat.mul_div_cancel m PGSIZE_pos
  have hmax : m * PGSIZE + (n - m) * PGSIZE ≤ MAXVA := by
    rw [← Nat.add_mul, Nat.add_sub_cancel' hm]
    have hn := h.lt
    unfold PGSIZE MAXVA
    omega
  unfold uvmunmap
  rw [if_neg (by rw [hmod]; decide)]
  refine (uvmunmapFrom_spec h.toArena true hmod hmax (fun w hlo hhi => ?_) (fun _ w hlo hhi => ?_)
    fun _ w w' hlo hww hhi => ?_).call ?_
  · exact h.user w (by omega)
  · exact mem_user (by omega)
  · exact h.inj w w' hww (by omega)
  · rintro _ s' ⟨t', -, hleaf, h'⟩
    rw [hdiv] at hleaf h'
    rw [if_pos rfl, h.range_sdiff hm] at h'
    -- pages below the new size keep their entries
    have hlow : ∀ v, v < m → t'.leaf v = t.leaf v := fun v hv => by
      rw [hleaf]
      exact if_neg (by omega)
    have hdata : rangePages t.leaf 0 m = rangePages t'.leaf 0 m :=
      (rangePages_congr fun v _ hv => hlow v (by omega)).symm
    refine ⟨t', hleaf, hdata ▸ h', fun v hv => ?_, fun v w hvw hw => ?_⟩
    · rw [hlow v hv]
      exact h.user v (by omega)
    · rw [hlow v (by omega), hlow w hw]
      exact h.inj v w hvw (by omega)

theorem uvmunmap_spec (h : Space F s root n t c) {m : Nat} (hm : m ≤ n) :
    wp E (uvmunmap root (m * PGSIZE) (n - m) true) (fun _ s' => ∃ t' : Shape Pte,
      t'.leaf = clearRange t.leaf m (n - m) ∧ Space F s' root m t' c) s := by
  have htop := h.lt_trapframe
  refine (uvmunmap_users h.toUsers hm).call ?_
  rintro _ s' ⟨t', hleaf, h'⟩
  have hhigh : ∀ v, n ≤ v → t'.leaf v = t.leaf v := fun v hv => by
    rw [hleaf]
    exact if_neg (by omega)
  have htr := hhigh (TRAMPOLINE / PGSIZE) (htop.le.trans (by decide))
  have htf := hhigh (TRAPFRAME / PGSIZE) htop.le
  refine ⟨t', hleaf, h', htr ▸ h.trampoline, htf ▸ h.trapframe, htr ▸ htf ▸ h.kernel,
    fun v hv htr htf => ?_⟩
  · by_cases hn : v < n
    · rw [hleaf]
      exact if_pos (by omega)
    · rw [hhigh v (by omega)]
      exact h.other v (by omega) htr htf

theorem uvmdealloc_spec (h : Space F s root n t c) {oldsz newsz : Nat} (hn : npages oldsz = n) :
    wp E (uvmdealloc root oldsz newsz) (fun r s' => r = min oldsz newsz ∧ ∃ t' : Shape Pte,
      t'.leaf = clearRange t.leaf (npages r) (n - npages r) ∧ Space F s' root (npages r) t' c) s := by
  -- sizes are far below the point where rounding up would wrap
  have hold : oldsz < 2 ^ 63 := by
    have hle := le_npages oldsz
    rw [hn] at hle
    have hlt := h.lt
    unfold PGSIZE at hle
    omega
  unfold uvmdealloc
  rw [wp_ite]
  refine ⟨fun hge => ?_, fun hlt => ?_⟩
  · rw [wp_pure, hn, Nat.sub_self, clearRange_zero, min_eq_left hge]
    exact ⟨rfl, t, rfl, h⟩
  · have hle : npages newsz ≤ n := hn ▸ npages_mono (by omega)
    have hnew : newsz < 2 ^ 63 := by omega
    rw [pgroundup_eq hold, pgroundup_eq hnew, hn]
    dsimp only
    have hmin : newsz = min oldsz newsz := (min_eq_right (by omega)).symm
    by_cases hless : npages newsz * PGSIZE < n * PGSIZE
    · rw [if_pos hless, ← Nat.sub_mul, Nat.mul_div_cancel _ PGSIZE_pos, wp_bind]
      refine (uvmunmap_spec h hle).call ?_
      rintro _ s' hpost
      exact ⟨hmin, hpost⟩
    · have heq : npages newsz = n :=
        le_antisymm hle (Nat.le_of_mul_le_mul_right (Nat.le_of_not_lt hless) PGSIZE_pos)
      rw [if_neg hless, wp_pure, heq, Nat.sub_self, clearRange_zero]
      exact ⟨hmin, t, rfl, h⟩

end Shrink

/-! ### Growing -/

section Grow

variable {F : Set Nat} {s : Vm} {root n k : Nat} {t : Shape Pte} {c : Nat → Page}
  {E : VmPanic → Prop}

def userFlags : Nat := PTE_W ||| PTE_X ||| PTE_R ||| PTE_U ||| PTE_V

/-- There are `m` more pages from page `k` on, filled with zeroes. -/
structure Grown (t t' : Shape Pte) (c' : Nat → Page) (k m : Nat) : Prop where
  same : ∀ v, v < k ∨ k + m ≤ v → t'.leaf v = t.leaf v
  flags : ∀ v, k ≤ v → v < k + m → (t'.leaf v).flags = userFlags
  zero : ∀ v, k ≤ v → v < k + m → c' (t'.leaf v).pa = fun _ => 0

/-- User memory and what is not ours keeps its content. -/
def Keeps (F : Set Nat) (t : Shape Pte) (n : Nat) (c c' : Nat → Page) : Prop :=
  ∀ p, p ∉ F ∨ p ∈ rangePages t.leaf 0 n → c' p = c p

theorem Space.next_zero (h : Space F s root k t c) : t.leaf k = 0 := by
  have htop := h.lt_trapframe
  have htop' : k < TRAMPOLINE / PGSIZE := htop.trans (by decide)
  exact h.other k le_rfl htop'.ne htop.ne

theorem Space.extend (h : Space F s root k t c) {p fl : Nat} {t' : Shape Pte}
    (hp : p ∉ rangePages t.leaf 0 k) (h' : Arena F s' root t' (insert p (rangePages t.leaf 0 k)) c')
    (hleaf : t'.leaf = update t.leaf k (Pte.mk p fl)) (hfl : fl < 1024)
    (hkind : (Pte.mk p fl).kind = .value) : Space F s' root (k + 1) t' c' := by
  have htop := h.lt_trapframe
  have hpa : (Pte.mk p fl).pa = p := Pte.pa_mk (h'.pa_lt (h'.mem_data (Set.mem_insert ..))) hfl
  have hself : t'.leaf k = Pte.mk p fl := by rw [hleaf, update_self]
  have hrest : ∀ v, v ≠ k → t'.leaf v = t.leaf v := fun v hv => by
    rw [hleaf, update_of_ne hv]
  -- the user pages are those there were and the new one
  have hdata : insert p (rangePages t.leaf 0 k) = rangePages t'.leaf 0 (k + 1) := by
    ext q
    constructor
    · rintro (rfl | ⟨v, -, hv, hq⟩)
      · exact ⟨k, Nat.zero_le k, by omega, hself ▸ hpa⟩
      · exact ⟨v, Nat.zero_le v, by omega, (hrest v (by omega)).symm ▸ hq⟩
    · rintro ⟨v, -, hv, hq⟩
      by_cases hvk : v = k
      · rw [hvk, hself, hpa] at hq
        exact .inl hq.symm
      · rw [hrest v hvk] at hq
        exact .inr ⟨v, Nat.zero_le v, by omega, hq⟩
  have htr := hrest (TRAMPOLINE / PGSIZE) (htop.trans (by decide)).ne'
  have htf := hrest (TRAPFRAME / PGSIZE) htop.ne'
  refine ⟨⟨hdata ▸ h', fun v hv => ?_, fun v w hvw hw => ?_⟩, htr ▸ h.trampoline, htf ▸ h.trapframe,
    htr ▸ htf ▸ h.kernel, fun v hv htr htf => ?_⟩
  · by_cases hvk : v = k
    · rw [hvk, hself, hkind]
    · rw [hrest v hvk]
      exact h.user v (by omega)
  · rw [hrest v (by omega)]
    by_cases hwk : w = k
    · rw [hwk, hself, hpa]
      rintro rfl
      exact hp (mem_user (by omega))
    · rw [hrest w hwk]
      exact h.inj v w hvw (by omega)
  · rw [hrest v (by omega)]
    exact h.other v (by omega) htr htf

/-- What `uvmalloc` does from `k` pages on, to get from `n` pages to `k + m`: it succeeds, or goes
back to the `n` pages. -/
def Alloc (F : Set Nat) (root n k m : Nat) (t : Shape Pte) (c : Nat → Page) (newsz r : Nat)
    (s' : Vm) : Prop :=
  ∃ (t' : Shape Pte) (c' : Nat → Page),
    r = 0 ∧ t'.leaf = clearRange t.leaf n (k - n) ∧ Keeps F t n c c' ∧ Space F s' root n t' c' ∨
      r = newsz ∧ Grown t t' c' k m ∧ Keeps F t k c c' ∧ Space F s' root (k + m) t' c'

theorem Keeps.mono {m : Nat} (h : Keeps F t n c c') (hm : m ≤ n) : Keeps F t m c c' := by
  rintro p (hp | ⟨v, hlo, hhi, hp⟩)
  · exact h p (.inl hp)
  · exact h p (.inr ⟨v, hlo, by omega, hp⟩)

variable {t₁ : Shape Pte}

theorem Keeps.trans {c1 c2 : Nat → Page} (h : Keeps F t n c c1) (h1 : Keeps F t₁ n c1 c2)
    (hleaf : ∀ v, v < n → t₁.leaf v = t.leaf v) : Keeps F t n c c2 := by
  intro p hp
  rw [← rangePages_congr fun v _ hv => hleaf v (by omega)] at hp
  rw [h1 p hp]
  rw [rangePages_congr fun v _ hv => hleaf v (by omega)] at hp
  exact h p hp

theorem Alloc.step {c1 : Nat → Page} {m newsz r p : Nat} (hn : n ≤ k) (hzero : t.leaf k = 0)
    (hleaf : t₁.leaf = update t.leaf k (Pte.mk p userFlags)) (hp : p < 2 ^ 54)
    (hkeeps : Keeps F t k c c1) (hpage : c1 p = fun _ => 0)
    (h : Alloc F root n (k + 1) m t₁ c1 newsz r s') : Alloc F root n k (m + 1) t c newsz r s' := by
  have hold : ∀ v, v ≠ k → t₁.leaf v = t.leaf v := fun v hv => by
    rw [hleaf, update_of_ne hv]
  have hself : t₁.leaf k = Pte.mk p userFlags := by rw [hleaf, update_self]
  have hpa : (t₁.leaf k).pa = p := by rw [hself, Pte.pa_mk hp (by decide)]
  obtain ⟨t', c', ⟨rfl, hleaf', hkeeps', h'⟩ | ⟨rfl, hgrown, hkeeps', h'⟩⟩ := h
  · refine ⟨t', c', .inl ⟨rfl, ?_, (hkeeps.mono hn).trans hkeeps' fun v hv => hold v (by omega), h'⟩⟩
    rw [hleaf']
    funext v
    unfold clearRange
    by_cases hv : v = k
    · rw [hv, if_pos (by omega), if_neg (by omega), hzero]
    · rw [hold v hv]
      exact if_congr (by omega) rfl rfl
  · refine ⟨t', c', .inr ⟨rfl, ⟨fun v hv => ?_, fun v hlo hhi => ?_, fun v hlo hhi => ?_⟩,
      hkeeps.trans (hkeeps'.mono (Nat.le_succ k)) fun v hv => hold v (by omega), ?_⟩⟩
    · rw [hgrown.same v (by omega)]
      exact hold v (by omega)
    · by_cases hv : v = k
      · rw [hv, hgrown.same k (by omega), hself, Pte.flags_mk hp (by decide)]
      · exact hgrown.flags v (by omega) (by omega)
    · by_cases hv : v = k
      · have hin : p ∈ rangePages t₁.leaf 0 (k + 1) := hpa ▸ mem_user (by omega)
        rw [hv, hgrown.same k (by omega), hpa, hkeeps' p (.inr hin), hpage]
      · exact hgrown.zero v (by omega) (by omega)
    · rwa [Nat.add_right_comm] at h'

theorem Alloc.of_leaf {m newsz r : Nat} (hleaf : t₁.leaf = t.leaf)
    (h : Alloc F root n k m t₁ c newsz r s') : Alloc F root n k m t c newsz r s' := by
  unfold Alloc Keeps at *
  rw [hleaf] at h
  obtain ⟨t', c', h | ⟨rfl, hgrown, h⟩⟩ := h
  · exact ⟨t', c', .inl h⟩
  · exact ⟨t', c', .inr ⟨rfl, ⟨fun v hv => by rw [hgrown.same v hv, hleaf], hgrown.flags,
      hgrown.zero⟩, h⟩⟩

theorem uvmalloc_fail (h : Space F s root k t c) {m newsz : Nat} (hn : n ≤ k) :
    wp E (do let _ ← uvmdealloc root (k * PGSIZE) (n * PGSIZE); return 0)
      (Alloc F root n k m t c newsz) s := by
  rw [wp_bind]
  refine (uvmdealloc_spec h (npages_mul k)).call ?_
  rintro r s' ⟨rfl, t', hleaf, h'⟩
  have hmin : min (k * PGSIZE) (n * PGSIZE) = n * PGSIZE :=
    min_eq_right (Nat.mul_le_mul_right _ hn)
  rw [hmin, npages_mul] at hleaf h'
  exact ⟨t', c, .inl ⟨rfl, hleaf, fun _ _ => rfl, h'⟩⟩

/-- The page `p` that `kalloc` gave, filled with `pg` and mapped as page `k`; or, when there is no
page for a table, it can be given back. -/
theorem Space.map_page (h : Space F s root k t c) {p : Nat} {s1 : Vm} (hpF : p ∈ F)
    (hpT : ¬ t.Pages p) (hpX : p ∉ rangePages t.leaf 0 k) (hmem : ∀ q, q ≠ p → s1.mem q = s.mem q)
    (hpool : Pool F s1 {q | t.Pages q} (insert p (rangePages t.leaf 0 k))
      (update c p fun _ => 5)) (pg : Page) {perm : Nat} (hperm : perm ||| PTE_V < 1024)
    (hkind : (Pte.mk p (perm ||| PTE_V)).kind = .value) :
    wp E (mappages root (k * PGSIZE) PGSIZE p perm) (fun r s2 => ∃ t₂ : Shape Pte, t.Extends t₂ ∧
      (r = 0 ∧ t₂.leaf = update t.leaf k (Pte.mk p (perm ||| PTE_V)) ∧
          Space F s2 root (k + 1) t₂ (update c p pg) ∨
        r = -1 ∧ t₂.leaf = t.leaf ∧
          wp E (kfree p) (fun _ s3 => Space F s3 root k t₂ c) s2)) (s1.setPage p pg) := by
  have hk := h.lt
  have h1 : Arena F s1 root t (insert p (rangePages t.leaf 0 k)) _ := ⟨hpool,
    h.realises.frame fun q hq => hmem q fun heq => hpT (heq ▸ hq)⟩
  have h2 := h1.write_data hpT pg
  rw [update_idem] at h2
  have hva : k * PGSIZE < MAXVA := by
    unfold PGSIZE MAXVA
    omega
  have hdiv : k * PGSIZE / PGSIZE = k := Nat.mul_div_cancel k PGSIZE_pos
  have hnew : (t.leaf (k * PGSIZE / PGSIZE)).V = false := by rw [hdiv, h.next_zero, Pte.V_zero]
  refine (mappages_page h2 (Nat.mul_mod_left k PGSIZE) hva hnew).call ?_
  rintro r s3 ⟨t3, h3, hext, ⟨rfl, hleaf⟩ | ⟨rfl, hleaf⟩⟩
  · rw [hdiv] at hleaf
    exact ⟨t3, hext, .inl ⟨rfl, hleaf, h.extend hpX h3 hleaf hperm hkind⟩⟩
  · refine ⟨t3, hext, .inr ⟨rfl, hleaf, (h3.free (Set.mem_insert ..)).call fun _ s4 h4 => ?_⟩⟩
    -- the page has been given back, and what it held does not count
    rw [Set.insert_sdiff_self_of_notMem hpX] at h4
    have hfree : p ∈ s4.free := by
      by_contra hno
      rcases (h4.cover p).mp hpF with hp | hp | hp
      · exact hno hp
      · exact h3.table_data p hp (Set.mem_insert ..)
      · exact hpX hp
    refine h.of_leaf ⟨h4.toPool.congr fun q hq _ => ?_, h4.realises⟩ hleaf
    have hne : q ≠ p := fun heq => hq (heq ▸ hfree)
    rw [update_of_ne hne]

theorem uvmallocFrom_spec (h : Space F s root k t c) {m newsz : Nat} (hn : n ≤ k) :
    wp E (uvmallocFrom root (n * PGSIZE) newsz m (k * PGSIZE)) (Alloc F root n k m t c newsz) s := by
  -- on failure `uvmdealloc` gives back what the rounds before have mapped
  induction m generalizing s k t c with
  | zero =>
    unfold uvmallocFrom
    rw [wp_pure]
    exact ⟨t, c, .inr ⟨rfl, ⟨fun _ _ => rfl, fun v hlo hhi => by omega, fun v hlo hhi => by omega⟩,
      fun _ _ => rfl, h⟩⟩
  | succ m ih =>
    have hk := h.lt
    unfold uvmallocFrom
    rw [wp_bind]
    refine (kalloc_spec h.toPool).call fun r s1 hpost => ?_
    cases r with
    | none =>
      obtain ⟨rfl, -⟩ := hpost
      exact uvmalloc_fail h hn
    | some p =>
      obtain ⟨hpF, hpT, hpX, -, hmem, hpool⟩ := hpost
      have hkeeps : Keeps F t k c (update c p fun _ => 0) := by
        rintro q hq
        refine update_of_ne ?_ ..
        rintro rfl
        exact hq.elim (fun hq => hq hpF) hpX
      dsimp only
      rw [wp_bind, wp_memset, wp_bind]
      refine (h.map_page hpF hpT hpX hmem hpool _ (by decide)
        (Pte.kind_leaf (h.pa_lt hpF) (by decide) (by decide))).call ?_
      rintro r s3 ⟨t3, -, ⟨rfl, hleaf, h3⟩ | ⟨rfl, hleaf, hfree⟩⟩
      · rw [if_neg (by decide), ← Nat.succ_mul]
        refine (ih h3 (by omega)).call fun r s' hpost => ?_
        exact hpost.step hn h.next_zero hleaf (h3.pa_lt hpF) hkeeps (update_self ..)
      · rw [if_pos (by decide), wp_bind]
        refine hfree.call fun _ s4 h4 => ?_
        exact (uvmalloc_fail h4 hn).call fun r s' hpost => hpost.of_leaf hleaf

/-- `uvmalloc`: the new size with zeroed pages up to it, or 0 and nothing is mapped that was not. A
smaller size changes nothing. -/
theorem uvmalloc_spec (h : Space F s root n t c) {oldsz : Nat} (hn : npages oldsz = n) (newsz : Nat) :
    wp E (uvmalloc root oldsz newsz) (fun r s' => ∃ (t' : Shape Pte) (c' : Nat → Page),
      Keeps F t n c c' ∧
      (r = 0 ∧ t'.leaf = t.leaf ∧ Space F s' root n t' c' ∨
        r = max oldsz newsz ∧ Grown t t' c' n (npages r - n) ∧ Space F s' root (npages r) t' c')) s := by
  have hold : oldsz < 2 ^ 63 := by
    have hle := le_npages oldsz
    rw [hn] at hle
    have hlt := h.lt
    unfold PGSIZE at hle
    omega
  unfold uvmalloc
  rw [wp_ite]
  refine ⟨fun hlt => ?_, fun hge => ?_⟩
  · rw [wp_pure, max_eq_left hlt.le, hn, Nat.sub_self]
    exact ⟨t, c, fun _ _ => rfl, .inr ⟨rfl, ⟨fun _ _ => rfl, fun v hlo hhi => by omega,
      fun v hlo hhi => by omega⟩, h⟩⟩
  · have hle : n ≤ npages newsz := hn ▸ npages_mono (by omega)
    have hcount : (newsz - n * PGSIZE + (PGSIZE - 1)) / PGSIZE = npages newsz - n := by
      unfold npages at hle ⊢
      unfold PGSIZE at hle ⊢
      omega
    dsimp only
    rw [pgroundup_eq hold, hn, hcount]
    refine (uvmallocFrom_spec h le_rfl).call ?_
    rintro r s' ⟨t', c', ⟨rfl, hleaf, hkeeps, h'⟩ | ⟨rfl, hgrown, hkeeps, h'⟩⟩
    · rw [Nat.sub_self, clearRange_zero] at hleaf
      exact ⟨t', c', hkeeps, .inl ⟨rfl, hleaf, h'⟩⟩
    · rw [Nat.add_sub_cancel' hle] at h'
      exact ⟨t', c', hkeeps, .inr ⟨(max_eq_right (by omega)).symm, hgrown, h'⟩⟩

theorem uvmclear_spec (h : Space F s root n t c) (hv : v < n) :
    wp E (uvmclear root (v * PGSIZE)) (fun _ s' => ∃ t' : Shape Pte,
      t'.leaf = update t.leaf v (t.leaf v).clearU ∧ rangePages t'.leaf 0 n = rangePages t.leaf 0 n ∧
        (t'.leaf v).pa = (t.leaf v).pa ∧ (t'.leaf v).U = false ∧ Space F s' root n t' c) s := by
  have htop := h.lt_trapframe
  have hdiv : v * PGSIZE / PGSIZE = v := Nat.mul_div_cancel v PGSIZE_pos
  have hmax : v * PGSIZE < MAXVA := by
    have hn := h.lt
    unfold PGSIZE MAXVA
    omega
  obtain ⟨hkind, hpa, hU⟩ := Pte.clearU_value (h.pa_lt (h.mem_data (mem_user hv))) (h.user v hv)
  unfold uvmclear
  rw [wp_bind]
  refine (walk_valid h.realises hmax ?_).call ?_
  · rw [hdiv]
    exact (Pte.kind_eq_value.mp (h.user v hv)).1
  rintro r s' ⟨rfl, p, rfl, htab, hpte⟩
  rw [hdiv] at htab hpte
  dsimp only
  rw [wp_bind, wp_loadPte, wp_storePte, hdiv, hpte]
  have hset := h.toArena.setLeaf htab (t.leaf v).clearU
  obtain ⟨t', ht'⟩ : ∃ t', t' = t.setLeaf v (t.leaf v).clearU := ⟨_, rfl⟩
  rw [← ht'] at hset
  have hleaf : t'.leaf = update t.leaf v (t.leaf v).clearU := by rw [ht', Shape.setLeaf_leaf]
  have hself : t'.leaf v = (t.leaf v).clearU := by rw [hleaf, update_self]
  have hrest (w : Nat) (hw : w ≠ v) : t'.leaf w = t.leaf w := by rw [hleaf, update_of_ne hw]
  -- the pages are the same ones
  have hpas (w : Nat) : (t'.leaf w).pa = (t.leaf w).pa := by
    by_cases hw : w = v
    · rw [hw, hself, hpa]
    · rw [hrest w hw]
  have hrange : rangePages t'.leaf 0 n = rangePages t.leaf 0 n := by
    ext q
    unfold rangePages
    simp only [hpas]
  have hord : TRAPFRAME / PGSIZE < TRAMPOLINE / PGSIZE := by decide
  have htr := hrest (TRAMPOLINE / PGSIZE) (by omega)
  have htf := hrest (TRAPFRAME / PGSIZE) (by omega)
  refine ⟨t', hleaf, hrange, hpas v, hself ▸ hU, ⟨⟨by rwa [hrange], fun w hw => ?_, fun w x hwx hx => ?_⟩,
    htr ▸ h.trampoline, htf ▸ h.trapframe, htr ▸ htf ▸ h.kernel, fun w hw hne hne' => ?_⟩⟩
  · by_cases hwv : w = v
    · rw [hwv, hself]
      exact hkind
    · rw [hrest w hwv]
      exact h.user w hw
  · rw [hpas w, hpas x]
    exact h.inj w x hwx hx
  · rw [hrest w (by omega)]
    exact h.other w hw hne hne'

end Grow

/-! ### Making and freeing a page table -/

section Make

variable {F X : Set Nat} {s : Vm} {root n : Nat} {t : Shape Pte} {c : Nat → Page}
  {E : VmPanic → Prop}

theorem uvmcreate_spec (h : Pool F s ∅ X c) :
    wp E uvmcreate (fun r s' => match r with
      | none => Pool F s' ∅ X c
      | some root => ∃ t : Shape Pte, (∀ v, t.leaf v = 0) ∧ Arena F s' root t X c) s := by
  unfold uvmcreate
  rw [wp_bind]
  refine (kalloc_spec h).call fun r s1 hpost => ?_
  cases r with
  | none =>
    obtain ⟨rfl, -⟩ := hpost
    exact h
  | some p =>
    obtain ⟨-, -, hpX, -, -, h1⟩ := hpost
    dsimp only
    rw [wp_bind, wp_memset, wp_pure]
    have h2 : Pool F (s1.setPage p fun _ => 0) (insert p ∅) X c :=
      (h1.write_data p _).table hpX fun q hq => by
        rw [update_of_ne hq, update_of_ne hq]
    have hpages : {q | (Shape.single ptFormat.nil 2 p).Pages q} = insert p ∅ := by
      ext q
      rw [Set.mem_ofPred_eq, Shape.pages_single, insert_empty_eq, Set.mem_singleton_iff]
    refine ⟨.single ptFormat.nil 2 p, fun _ => ptFormat_nil, hpages ▸ h2, .fresh fun i _ => ?_⟩
    rw [ptFormat_get, ptFormat_nil, Vm.setPage_mem_self, Page.pte_zero]

theorem uvmunmap_top (h : Arena F s root t X c) (hv : (v + 1) * PGSIZE ≤ MAXVA)
    (hval : (t.leaf v).kind = .value) :
    wp E (uvmunmap root (v * PGSIZE) 1 false) (fun _ s' => ∃ t' : Shape Pte,
      t'.leaf = update t.leaf v 0 ∧ Arena F s' root t' X c) s := by
  have hmod : v * PGSIZE % PGSIZE = 0 := Nat.mul_mod_left v PGSIZE
  have hdiv : v * PGSIZE / PGSIZE = v := Nat.mul_div_cancel v PGSIZE_pos
  unfold uvmunmap
  rw [if_neg (by rw [hmod]; decide)]
  refine (uvmunmapFrom_spec h false hmod (by rwa [← Nat.add_mul])
    (fun w hlo hhi => ?_) (fun hf => by cases hf) fun hf => by cases hf).call ?_
  · obtain rfl : w = v := by omega
    exact hval
  · rintro _ s' ⟨t', -, hleaf, h'⟩
    refine ⟨t', ?_, h'⟩
    rw [hleaf, hdiv]
    funext w
    unfold clearRange
    by_cases hw : w = v
    · rw [hw, if_pos (by omega), update_self]
    · rw [if_neg (by omega), update_of_ne hw]

theorem uvmfree_spec (h : Users F s root (npages sz) t c)
    (hother : ∀ v, npages sz ≤ v → (t.leaf v).V = false) :
    wp E (uvmfree root sz) (fun _ s' => Pool F s' ∅ ∅ c) s := by
  -- once user memory is unmapped the tables hold no leaves, as `freewalk` asks for
  have hfree : ∀ {s' t'}, Users F s' root 0 t' c → (∀ v, (t'.leaf v).V = false) →
      wp E (freewalk 3 root) (fun _ s' => Pool F s' ∅ ∅ c) s' := by
    intro s' t' h' hempty
    have h'' := h'.toArena
    rw [rangePages_zero] at h''
    exact h''.freewalk hempty
  have hsz : sz < 2 ^ 63 := by
    have hle := le_npages sz
    have hlt := h.lt
    unfold PGSIZE at hle
    omega
  unfold uvmfree
  dsimp only
  by_cases hpos : 0 < sz
  · have hcount : PGROUNDUP sz / PGSIZE = npages sz - 0 := by
      rw [pgroundup_eq hsz, Nat.mul_div_cancel _ PGSIZE_pos, Nat.sub_zero]
    have hspec := uvmunmap_users (E := E) h (Nat.zero_le _)
    rw [Nat.zero_mul] at hspec
    rw [if_pos hpos, hcount, wp_bind]
    refine hspec.call ?_
    rintro _ s' ⟨t', hleaf, h'⟩
    refine hfree h' fun v => ?_
    rw [hleaf]
    unfold clearRange
    split
    · exact Pte.V_zero
    · exact hother v (by omega)
  · obtain rfl : sz = 0 := by omega
    rw [if_neg hpos]
    exact hfree h fun v => hother v (by rw [show npages 0 = 0 from rfl]; omega)

theorem trampoline_eq : TRAMPOLINE = TRAMPOLINE / PGSIZE * PGSIZE := by decide

theorem trapframe_eq : TRAPFRAME = TRAPFRAME / PGSIZE * PGSIZE := by decide

theorem procFreepagetable_spec (h : Space F s root (npages sz) t c) :
    wp E (procFreepagetable root sz) (fun _ s' => Pool F s' ∅ ∅ c) s := by
  have htop := h.lt_trapframe
  have htop' : npages sz < TRAMPOLINE / PGSIZE := htop.trans (by decide)
  unfold procFreepagetable
  rw [trampoline_eq, trapframe_eq, wp_bind]
  refine (uvmunmap_top h.toArena (by decide) h.trampoline).call ?_
  rintro _ s1 ⟨t₁, hleaf1, h1⟩
  rw [wp_bind]
  refine (uvmunmap_top h1 (by decide) (v := TRAPFRAME / PGSIZE) ?_).call ?_
  · rw [hleaf1, update_of_ne (by decide)]
    exact h.trapframe
  · rintro _ s2 ⟨t₂, hleaf2, h2⟩
    -- neither of the two pages at the top is a user page
    have hlow : ∀ v, v < npages sz → t₂.leaf v = t.leaf v := fun v hv => by
      rw [hleaf2, update_of_ne (by omega), hleaf1, update_of_ne (by omega)]
    have hdata : rangePages t.leaf 0 (npages sz) = rangePages t₂.leaf 0 (npages sz) :=
      (rangePages_congr fun v _ hv => hlow v (by omega)).symm
    refine uvmfree_spec (t := t₂) ⟨hdata ▸ h2, fun v hv => ?_, fun v w hvw hw => ?_⟩ fun v hv => ?_
    · rw [hlow v hv]
      exact h.user v hv
    · rw [hlow v (by omega), hlow w hw]
      exact h.inj v w hvw hw
    · rw [hleaf2]
      by_cases htf : v = TRAPFRAME / PGSIZE
      · rw [htf, update_self, Pte.V_zero]
      · rw [update_of_ne htf, hleaf1]
        by_cases htr : v = TRAMPOLINE / PGSIZE
        · rw [htr, update_self, Pte.V_zero]
        · rw [update_of_ne htr, h.other v hv htr htf, Pte.V_zero]

theorem uvmfree_empty (h : Arena F s root t ∅ c) (hempty : ∀ v, t.leaf v = 0) :
    wp E (uvmfree root 0) (fun _ s' => Pool F s' ∅ ∅ c) s := by
  have hzero : npages 0 = 0 := rfl
  refine uvmfree_spec (t := t) ⟨?_, fun v hv => ?_, fun v w _ hw => ?_⟩ fun v _ => ?_
  · rwa [hzero, rangePages_zero]
  · omega
  · omega
  · rw [hempty v, Pte.V_zero]

/-- `proc_pagetable` gives an address space without user memory, or takes nothing. -/
theorem procPagetable_spec (h : Pool F s ∅ ∅ c) {trampoline trapframe : Nat}
    (htramp : trampoline < 2 ^ 54) (htf : trapframe < 2 ^ 54) :
    wp E (procPagetable trampoline trapframe) (fun r s' => match r with
      | none => Pool F s' ∅ ∅ c
      | some root => ∃ t : Shape Pte, Space F s' root 0 t c) s := by
  have hne : TRAPFRAME / PGSIZE ≠ TRAMPOLINE / PGSIZE := by decide
  unfold procPagetable
  rw [wp_bind]
  refine (uvmcreate_spec h).call fun r s1 hpost => ?_
  cases r with
  | none => exact hpost
  | some root =>
    obtain ⟨t₁, hzero, h1⟩ := hpost
    -- first the trampoline, then the trapframe; each may fail and is undone
    dsimp only
    rw [wp_bind]
    refine (mappages_page h1 (by decide) (by decide) (by rw [hzero, Pte.V_zero])).call ?_
    rintro r s2 ⟨t₂, h2, -, ⟨rfl, hleaf2⟩ | ⟨rfl, hleaf2⟩⟩
    · rw [if_neg (by decide), wp_bind]
      have hnew : (t₂.leaf (TRAPFRAME / PGSIZE)).V = false := by
        rw [hleaf2, update_of_ne hne, hzero, Pte.V_zero]
      have htramp2 : (t₂.leaf (TRAMPOLINE / PGSIZE)).kind = .value := by
        rw [hleaf2, update_self]
        exact Pte.kind_leaf htramp (by decide) (by decide)
      have hU2 : (t₂.leaf (TRAMPOLINE / PGSIZE)).U = false := by
        rw [hleaf2, update_self]
        exact Pte.U_mk htramp (by decide) (by decide)
      refine (mappages_page h2 (by decide) (by decide) hnew).call ?_
      rintro r s3 ⟨t3, h3, -, ⟨rfl, hleaf3⟩ | ⟨rfl, hleaf3⟩⟩
      · rw [if_neg (by decide), wp_pure]
        have htr3 : t3.leaf (TRAMPOLINE / PGSIZE) = t₂.leaf (TRAMPOLINE / PGSIZE) := by
          rw [hleaf3, update_of_ne hne.symm]
        have htf3 : t3.leaf (TRAPFRAME / PGSIZE) = Pte.mk trapframe (PTE_R ||| PTE_W ||| PTE_V) := by
          rw [hleaf3, update_self]
        refine ⟨t3, ⟨by rwa [rangePages_zero], fun v hv => by omega, fun v w _ hw => by omega⟩,
          htr3 ▸ htramp2, ?_, ⟨htr3 ▸ hU2, ?_⟩, fun v _ htr htf' => ?_⟩
        · rw [htf3]
          exact Pte.kind_leaf htf (by decide) (by decide)
        · rw [htf3]
          exact Pte.U_mk htf (by decide) (by decide)
        · rw [hleaf3, update_of_ne htf', hleaf2, update_of_ne htr, hzero]
      · rw [if_pos (by decide), wp_bind, trampoline_eq]
        refine (uvmunmap_top h3 (by decide) (hleaf3 ▸ htramp2)).call ?_
        rintro _ s4 ⟨t4, hleaf4, h4⟩
        rw [wp_bind]
        refine (uvmfree_empty h4 fun v => ?_).call fun _ s5 h5 => h5
        rw [hleaf4, hleaf3, hleaf2, update_idem]
        by_cases hv : v = TRAMPOLINE / PGSIZE
        · rw [hv, update_self]
        · rw [update_of_ne hv, hzero]
    · rw [if_pos (by decide), wp_bind]
      exact (uvmfree_empty h2 fun v => by rw [hleaf2, hzero]).call fun _ s3 h3 => h3

end Make

/-! ### A first address space -/

def bootVm : Vm where
  mem _ _ := 0
  free := List.range' 0x80100 16
  base := 0x80100

theorem bootVm_pool : Pool {p | p ∈ bootVm.free} bootVm ∅ ∅ bootVm.mem where
  nodup := by decide
  cover p := by simp
  free_table _ _ := Set.notMem_empty _
  free_data _ _ := Set.notMem_empty _
  table_data _ hp := absurd hp (Set.notMem_empty _)
  rest _ _ _ := rfl
  range p hp := by
    obtain ⟨hlo, hhi⟩ := List.mem_range'_1.mp hp
    refine ⟨hlo, ?_⟩
    unfold PGSIZE PHYSTOP KERNBASE
    omega
  base := by decide

/-- After `proc_pagetable`, with a trampoline and a trapframe from elsewhere. -/
def firstVm : Vm :=
  match (procPagetable 0x80007 0x80200).run bootVm with
  | .ok (_, s) => s
  | .error _ => bootVm

theorem firstVm_space :
    ∃ t : Shape Pte, Space {p | p ∈ bootVm.free} firstVm 0x80100 0 t bootVm.mem := by
  obtain ⟨s, hrun⟩ : ∃ s, (procPagetable 0x80007 0x80200).run bootVm = .ok (some 0x80100, s) :=
    ok_of_map_fst (by decide +kernel)
  have hspec := procPagetable_spec (E := fun _ => False) bootVm_pool
    (show 0x80007 < 2 ^ 54 by decide) (show 0x80200 < 2 ^ 54 by decide)
  have hfirst : firstVm = s := by
    unfold firstVm
    rw [hrun]
  rw [hfirst]
  exact (wp_iff.mp hspec).1 _ _ hrun

end Xv6
