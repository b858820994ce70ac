import Xv6.Vm.Pool

/-!
# Page tables as maps

A page table is a radix tree of three levels in the pages of the pool, and the functions that walk
it read and change the map from virtual pages to entries that the tree stands for.
-/

namespace Xv6

open Prog Radix Function List

/-- A page table in a pool: `t` is its map and where its tables are. -/
structure Arena (F : Set Nat) (s : Vm) (root : Nat) (t : Shape Pte) (X : Set Nat) (c : Nat → Page) :
    Prop extends Pool F s {p | t.Pages p} X c where
  realises : Realises ptFormat 2 s.mem root t

theorem PX_eq (level va : Nat) : PX level va = va / PGSIZE / 512 ^ level % 512 := by
  have hpow : 2 ^ (12 + 9 * level) = PGSIZE * 512 ^ level := by
    rw [pow_add, pow_mul]
    rfl
  unfold PX
  rw [hpow, Nat.div_div_eq_div_mul]

def NVPAGE : Nat := MAXVA / PGSIZE

variable {va : Nat}

theorem vpage_lt (h : va < MAXVA) : va / PGSIZE < NVPAGE := by
  unfold NVPAGE MAXVA PGSIZE at *
  omega

section Lookup

variable {s : Vm} {root : Nat} {t : Shape Pte} {E : VmPanic → Prop}

variable (h : Realises ptFormat 2 s.mem root t)

include h

variable {v level p : Nat}

theorem realises_entry (hp : t.table (level + 1) (v / 512 ^ (level + 1 + 1)) = some p) :
    Pte.kind ((s.mem p).pte (v / 512 ^ (level + 1) % 512))
      = .above (t.table level (v / 512 ^ (level + 1))) := by
  have hp' : t.table (level + 1) (v / 512 ^ (level + 1) / ptFormat.fanout) = some p := by
    rw [ptFormat_fanout, Nat.div_div_eq_div_mul, ← pow_succ]
    exact hp
  have hkey := h.inner_key hp'
  rwa [ptFormat_fanout, ptFormat_get, ptFormat_kind] at hkey

theorem realises_missing (hnone : t.table 0 (v / 512) = none) : t.leaf v = 0 := by
  rw [← ptFormat_nil]
  refine h.missing ?_
  rwa [ptFormat_fanout]

theorem realises_leaf (hp : t.table 0 (v / 512) = some p) :
    (s.mem p).pte (v % 512) = t.leaf v := by
  have hp' : t.table 0 (v / ptFormat.fanout) = some p := by rwa [ptFormat_fanout]
  have hkey := h.bottom_key hp'
  rwa [ptFormat_fanout, ptFormat_get] at hkey

theorem realises_none_down (hlevel : level ≤ 2)
    (hnone : t.table level (v / 512 ^ (level + 1)) = none) :
    t.table 0 (v / 512) = none := by
  by_contra hsome
  obtain ⟨p, hp⟩ := Option.ne_none_iff_exists'.mp hsome
  obtain ⟨p', hp'⟩ := h.ancestor hp (k := level) (by omega)
  rw [ptFormat_fanout, Nat.div_div_eq_div_mul, ← pow_succ', Nat.zero_add, hnone] at hp'
  cases hp'

theorem walkFrom_lookup (va : Nat) (hlevel : level ≤ 2)
    (hp : t.table level (va / PGSIZE / 512 ^ (level + 1)) = some p) :
    wp E (walkFrom va false level p) (fun r s' => s' = s ∧
      r = (t.table 0 (va / PGSIZE / 512)).map fun p => (p, va / PGSIZE % 512)) s := by
  -- going down, the page of a level leads to the next by the entry that a digit of `va` picks
  induction level generalizing p with
  | zero =>
    rw [Nat.zero_add, pow_one] at hp
    have hpx := PX_eq 0 va
    rw [pow_zero, Nat.div_one] at hpx
    unfold walkFrom
    rw [wp_pure, hp, hpx]
    exact ⟨rfl, rfl⟩
  | succ level ih =>
    have hentry := realises_entry h hp
    unfold walkFrom
    rw [wp_bind, wp_loadPte, PX_eq]
    generalize (s.mem p).pte (va / PGSIZE / 512 ^ (level + 1) % 512) = pte at hentry ⊢
    cases hnext : t.table level (va / PGSIZE / 512 ^ (level + 1)) with
    | none =>
      rw [hnext] at hentry
      have hV := Pte.kind_eq_empty.mp hentry
      rw [if_neg (by rw [hV]; decide), if_pos rfl, wp_pure,
        realises_none_down h (Nat.le_of_succ_le hlevel) hnext]
      exact ⟨rfl, rfl⟩
    | some p' =>
      rw [hnext] at hentry
      obtain ⟨hV, -, hpa⟩ := Pte.kind_eq_branch.mp hentry
      rw [if_pos hV, hpa]
      exact ih (Nat.le_of_succ_le hlevel) hnext

theorem root_entry (hva : va < MAXVA) :
    t.table 2 (va / PGSIZE / 512 ^ (2 + 1)) = some root := by
  have hv := vpage_lt hva
  have hzero : va / PGSIZE / 512 ^ (2 + 1) = 0 := by
    refine Nat.div_eq_of_lt (hv.trans ?_)
    decide
  rw [hzero]
  exact h.root

theorem walk_lookup (hva : va < MAXVA) :
    wp E (walk root va false) (fun r s' => s' = s ∧
      r = (t.table 0 (va / PGSIZE / 512)).map fun p => (p, va / PGSIZE % 512)) s := by
  unfold walk
  rw [if_neg (Nat.not_le.mpr hva)]
  exact walkFrom_lookup h va le_rfl (root_entry h hva)

theorem walk_valid (hva : va < MAXVA) (hV : (t.leaf (va / PGSIZE)).V = true) :
    wp E (walk root va false) (fun r s' => s' = s ∧ ∃ p, r = some (p, va / PGSIZE % 512) ∧
      t.table 0 (va / PGSIZE / 512) = some p ∧
      (s.mem p).pte (va / PGSIZE % 512) = t.leaf (va / PGSIZE)) s := by
  refine (walk_lookup h hva).call ?_
  rintro r s' ⟨rfl, rfl⟩
  cases htab : t.table 0 (va / PGSIZE / 512) with
  | none =>
    rw [realises_missing h htab, Pte.V_zero] at hV
    cases hV
  | some p => exact ⟨rfl, p, rfl, rfl, realises_leaf h htab⟩

theorem walkaddr_spec (va : Nat) :
    wp E (walkaddr root va) (fun r s' => s' = s ∧
      r = if va < MAXVA ∧ (t.leaf (va / PGSIZE)).V = true ∧ (t.leaf (va / PGSIZE)).U = true
        then (t.leaf (va / PGSIZE)).pa else 0) s := by
  unfold walkaddr
  by_cases hva : va < MAXVA
  · rw [if_neg (Nat.not_le.mpr hva), wp_bind]
    refine (walk_lookup h hva).call ?_
    rintro r s' ⟨rfl, rfl⟩
    cases htab : t.table 0 (va / PGSIZE / 512) with
    | none =>
      rw [realises_missing h htab, Pte.V_zero]
      exact ⟨rfl, (if_neg fun hno => absurd hno.2.1 (by decide)).symm⟩
    | some p =>
      show wp E (loadPte p (va / PGSIZE % 512) >>= _) _ s'
      rw [wp_bind, wp_loadPte]
      have hleaf : (s'.mem p).pte (va / PGSIZE % 512) = t.leaf (va / PGSIZE) := realises_leaf h htab
      rw [hleaf]
      generalize t.leaf (va / PGSIZE) = pte
      by_cases hV : pte.V = true <;> by_cases hU : pte.U = true <;>
        simp [hV, hU, hva, wp_pure]
  · rw [if_pos (Nat.not_lt.mp hva), wp_pure]
    exact ⟨rfl, (if_neg fun hno => hva hno.1).symm⟩

end Lookup

/-! ### New tables -/

section Alloc

variable {F X : Set Nat} {s : Vm} {root : Nat} {t : Shape Pte} {c : Nat → Page} {E : VmPanic → Prop}

theorem Arena.write_data (h : Arena F s root t X c) {p : Nat} (hp : ¬ t.Pages p) (pg : Page) :
    Arena F (s.setPage p pg) root t X (update c p pg) where
  toPool := h.toPool.write_data p pg
  realises := h.realises.frame fun q hq => by
    have hne : q ≠ p := fun heq => hp (heq ▸ hq)
    exact s.setPage_mem_ne hne pg

theorem Arena.graft (h : Arena F s root t X c) {s1 : Vm} {c1 : Nat → Page} {level w p q : Nat}
    (hlevel : level < 2) (hp : t.table (level + 1) (w / 512) = some p)
    (hnone : t.table level w = none) (hq : ¬ t.Pages q) (hqX : q ∉ X)
    (hmem : ∀ r, r ≠ q → s1.mem r = s.mem r)
    (hpool : Pool F s1 {r | t.Pages r} (insert q X) c1) (hc : ∀ r, r ≠ q → c1 r = c r) :
    Arena F ((s1.setPage q fun _ => 0).setPage p
      (((s1.setPage q fun _ => 0).mem p).setPte (w % 512) (Pte.mk q PTE_V))) root
      (t.graft level w q) X c := by
  have hpages : {r | (t.graft level w q).Pages r} = insert q {r | t.Pages r} := by
    ext r
    rw [Set.mem_ofPred_eq, Shape.pages_graft t hnone, Set.mem_insert_iff, Set.mem_ofPred_eq]
    exact or_comm
  have hpq : p ≠ q := fun heq => hq (heq ▸ ⟨_, _, hp⟩)
  have hqlt : q < 2 ^ 54 := hpool.pa_lt (hpool.mem_data (Set.mem_insert ..))
  -- the new page counts as data until it has been erased
  have hpool' : Pool F (s1.setPage q fun _ => 0) (insert q {r | t.Pages r}) X c :=
    (hpool.write_data q _).table hqX fun r hr => by rw [update_of_ne hr, hc r hr]
  refine ⟨?_, ?_⟩
  · rw [hpages]
    exact hpool'.write_table (Set.mem_insert_of_mem _ ⟨_, _, hp⟩) _
  · have hreal : Realises ptFormat 2 (s1.setPage q fun _ => 0).mem root t :=
      h.realises.frame fun r hr => by
        have hrq : r ≠ q := fun heq => hq (heq ▸ hr)
        rw [s1.setPage_mem_ne hrq, hmem r hrq]
    have hgraft := hreal.graft (l := level) (q := w) (p := p) (c := q) (e := Pte.mk q PTE_V) hlevel
      (by rwa [ptFormat_fanout]) hnone hq (fun i _ => by
        rw [ptFormat_get, ptFormat_nil, Vm.setPage_mem_self]
        exact Page.pte_zero i) (by
        rw [ptFormat_kind]
        exact Pte.kind_table hqlt)
    rwa [ptFormat_fanout, ptFormat_set] at hgraft

/-- What `walk` gives when it may allocate: the place of the entry, in a tree that maps the same
pages, or nothing when there was no page for a table. -/
def WalkAlloc (F X : Set Nat) (root : Nat) (t : Shape Pte) (c : Nat → Page) (v : Nat)
    (r : Option (Nat × Nat)) (s' : Vm) : Prop :=
  ∃ t' : Shape Pte, (t'.leaf = t.leaf ∧ t.Extends t') ∧ Arena F s' root t' X c ∧
    (r = none ∧ s'.free = [] ∨ ∃ p, r = some (p, v % 512) ∧ t'.table 0 (v / 512) = some p)

theorem walkFrom_alloc (h : Arena F s root t X c) (va : Nat) {level p : Nat} (hlevel : level ≤ 2)
    (hp : t.table level (va / PGSIZE / 512 ^ (level + 1)) = some p) :
    wp E (walkFrom va true level p) (WalkAlloc F X root t c (va / PGSIZE)) s := by
  induction level generalizing s t p with
  | zero =>
    rw [Nat.zero_add, pow_one] at hp
    have hpx := PX_eq 0 va
    rw [pow_zero, Nat.div_one] at hpx
    unfold walkFrom
    rw [wp_pure, hpx]
    exact ⟨t, ⟨rfl, .refl t⟩, h, .inr ⟨p, rfl, hp⟩⟩
  | succ level ih =>
    have hentry := realises_entry h.realises hp
    unfold walkFrom
    rw [wp_bind, wp_loadPte, PX_eq]
    generalize (s.mem p).pte (va / PGSIZE / 512 ^ (level + 1) % 512) = pte at hentry ⊢
    cases hnext : t.table level (va / PGSIZE / 512 ^ (level + 1)) with
    | some p' =>
      rw [hnext] at hentry
      obtain ⟨hV, -, hpa⟩ := Pte.kind_eq_branch.mp hentry
      rw [if_pos hV, hpa]
      exact ih h (Nat.le_of_succ_le hlevel) hnext
    | none =>
      rw [hnext] at hentry
      have hV := Pte.kind_eq_empty.mp hentry
      rw [if_neg (by rw [hV]; decide), if_neg (by decide), wp_bind]
      refine (kalloc_spec h.toPool).call fun r s1 hpost => ?_
      cases r with
      | none =>
        obtain ⟨rfl, hfree⟩ := hpost
        exact ⟨t, ⟨rfl, .refl t⟩, h, .inl ⟨rfl, hfree⟩⟩
      | some q =>
        -- a page that was free becomes the missing table, erased before it is hung in
        obtain ⟨-, hqT, hqX, -, hmem, hpool⟩ := hpost
        have hp' : t.table (level + 1) (va / PGSIZE / 512 ^ (level + 1) / 512) = some p := by
          rw [Nat.div_div_eq_div_mul _ (512 ^ (level + 1)), ← pow_succ]
          exact hp
        have harena := h.graft (Nat.lt_of_succ_le hlevel) hp' hnext hqT hqX hmem hpool fun r hr =>
          update_of_ne hr ..
        dsimp only
        rw [wp_bind, wp_memset, wp_bind, wp_storePte]
        refine (ih harena (Nat.le_of_succ_le hlevel) (Shape.graft_table_self ..)).call ?_
        rintro r s2 ⟨t', ⟨hleaf, hext⟩, hpost⟩
        exact ⟨t', ⟨hleaf, (t.extends_graft hnext).trans hext⟩, hpost⟩

theorem walk_alloc (h : Arena F s root t X c) (hva : va < MAXVA) :
    wp E (walk root va true) (WalkAlloc F X root t c (va / PGSIZE)) s := by
  unfold walk
  rw [if_neg (Nat.not_le.mpr hva)]
  exact walkFrom_alloc h va le_rfl (root_entry h.realises hva)

end Alloc

/-! ### Mapping -/

section Map

variable {F X : Set Nat} {s : Vm} {root : Nat} {t : Shape Pte} {c : Nat → Page} {E : VmPanic → Prop}

theorem Arena.setLeaf (h : Arena F s root t X c) {v p : Nat} (hp : t.table 0 (v / 512) = some p)
    (pte : Pte) :
    Arena F (s.setPage p ((s.mem p).setPte (v % 512) pte)) root (t.setLeaf v pte) X c := by
  refine ⟨h.toPool.write_table (show t.Pages p from ⟨_, _, hp⟩) _, ?_⟩
  have hset := h.realises.setLeaf (v := v) (p := p) (by rwa [ptFormat_fanout]) pte
  rwa [ptFormat_fanout, ptFormat_set] at hset

/-- The map with `n` pages from `v` on mapped to the physical pages from `pa` on. -/
def mapRange (leaf : Nat → Pte) (v pa perm n : Nat) : Nat → Pte :=
  fun w => if v ≤ w ∧ w < v + n then Pte.mk (pa + (w - v)) (perm ||| PTE_V) else leaf w

theorem mapRange_zero (leaf : Nat → Pte) (v pa perm : Nat) : mapRange leaf v pa perm 0 = leaf := by
  funext w
  exact if_neg (by omega)

theorem mapRange_one (leaf : Nat → Pte) (v pa perm : Nat) :
    mapRange leaf v pa perm 1 = update leaf v (Pte.mk pa (perm ||| PTE_V)) := by
  funext w
  unfold mapRange
  by_cases hw : w = v
  · rw [hw, if_pos (by omega), Nat.sub_self, Nat.add_zero, update_self]
  · rw [if_neg (by omega), update_of_ne hw]

theorem mapRange_succ (leaf : Nat → Pte) (v pa perm n : Nat) :
    mapRange (update leaf v (Pte.mk pa (perm ||| PTE_V))) (v + 1) (pa + 1) perm n
      = mapRange leaf v pa perm (n + 1) := by
  funext w
  unfold mapRange
  by_cases hw : w = v
  · rw [if_neg (by omega), if_pos (by omega), hw, update_self, Nat.sub_self, Nat.add_zero]
  · rw [update_of_ne hw]
    by_cases hin : v + 1 ≤ w ∧ w < v + 1 + n
    · have hpa : pa + 1 + (w - (v + 1)) = pa + (w - v) := by omega
      rw [if_pos hin, if_pos (by omega), hpa]
    · rw [if_neg hin, if_neg (by omega)]

variable {pa perm : Nat}

theorem wp_mapPage (h : Arena F s root t X c) (hva : va < MAXVA)
    (hnew : (t.leaf (va / PGSIZE)).V = false) {k : VmM Int} {Q : Int → Vm → Prop}
    (hfull : ∀ s' t', Arena F s' root t' X c → t.Extends t' → t'.leaf = t.leaf → s'.free = [] →
      Q (-1) s') (hset : ∀ s' t', Arena F s' root t' X c → t.Extends t' →
      t'.leaf = update t.leaf (va / PGSIZE) (Pte.mk pa (perm ||| PTE_V)) → wp E k Q s') :
    wp E (walk root va true >>= fun r => match r with
      | none => pure (-1)
      | some (p, i) => loadPte p i >>= fun pte => if pte.V = true then throw .remap else
          storePte p i (Pte.mk pa (perm ||| PTE_V)) >>= fun _ => k) Q s := by
  rw [wp_bind]
  refine (walk_alloc h hva).call ?_
  rintro r s1 ⟨t₁, ⟨hleaf, hext⟩, h1, ⟨rfl, hfree⟩ | ⟨p, rfl, hp⟩⟩
  · exact hfull s1 t₁ h1 hext hleaf hfree
  · have hpte := realises_leaf h1.realises hp
    dsimp only
    rw [wp_bind, wp_loadPte, hpte, hleaf, hnew, if_neg (by decide), wp_bind, wp_storePte]
    refine hset _ _ (h1.setLeaf hp _) (hext.trans fun _ _ _ hq => hq) ?_
    rw [Shape.setLeaf_leaf, hleaf]

/-- `mappages` over `n + 1` pages that are not mapped: all of them are mapped, or the first `k`
and then there was no page for a table. -/
theorem mappagesFrom_spec (h : Arena F s root t X c) {n : Nat} (hva : va % PGSIZE = 0)
    (hlast : va + n * PGSIZE < MAXVA)
    (hnew : ∀ w, va / PGSIZE ≤ w → w < va / PGSIZE + (n + 1) → (t.leaf w).V = false) :
    wp E (mappagesFrom root perm n va pa) (fun r s' => ∃ (t' : Shape Pte) (k : Nat),
      Arena F s' root t' X c ∧ t.Extends t' ∧ t'.leaf = mapRange t.leaf (va / PGSIZE) pa perm k ∧
      (r = 0 ∧ k = n + 1 ∨ r = -1 ∧ k ≤ n ∧ s'.free = [])) s := by
  -- by induction on the pages that are left; `k` of them have been mapped when the loop stops
  induction n generalizing s t va pa with
  | zero =>
    unfold mappagesFrom
    refine wp_mapPage h (by omega) (hnew _ le_rfl (by omega)) (fun s' t' h' hext hleaf hfree => ?_)
      fun s' t' h' hext hleaf => ?_
    · exact ⟨t', 0, h', hext, hleaf.trans (mapRange_zero ..).symm, .inr ⟨rfl, le_rfl, hfree⟩⟩
    · exact ⟨t', 1, h', hext, hleaf.trans (mapRange_one ..).symm, .inl ⟨rfl, rfl⟩⟩
  | succ n ih =>
    unfold mappagesFrom
    have hnext : (va + PGSIZE) / PGSIZE = va / PGSIZE + 1 := Nat.add_div_right va (by decide)
    have hwrap : (va + PGSIZE) % 2 ^ 64 = va + PGSIZE := by
      rw [Nat.add_one_mul] at hlast
      have hlt : va + PGSIZE < MAXVA := by omega
      exact Nat.mod_eq_of_lt (hlt.trans (by decide))
    refine wp_mapPage h (Nat.lt_of_le_of_lt (Nat.le_add_right ..) hlast) (hnew _ le_rfl (by omega))
      (fun s' t' h' hext hleaf hfree => ?_) fun s' t' h' hext hleaf => ?_
    · exact ⟨t', 0, h', hext, hleaf.trans (mapRange_zero ..).symm, .inr ⟨rfl, Nat.zero_le _, hfree⟩⟩
    · dsimp only
      rw [hwrap]
      refine (ih h' (by rw [Nat.add_mod_right, hva]) (by linarith) fun w hlo hhi => ?_).call ?_
      · rw [hnext] at hlo hhi
        rw [hleaf, update_of_ne (by omega)]
        exact hnew w (by omega) (by omega)
      · rintro r s'' ⟨t'', k, h'', hext'', hleaf'', hr⟩
        refine ⟨t'', k + 1, h'', hext.trans hext'', ?_, hr.imp (fun hr => ⟨hr.1, by omega⟩) fun hr =>
          ⟨hr.1, by omega, hr.2.2⟩⟩
        rw [hleaf'', hleaf, hnext, mapRange_succ]

theorem mappages_page (h : Arena F s root t X c) (hva : va % PGSIZE = 0) (hmax : va < MAXVA)
    (hnew : (t.leaf (va / PGSIZE)).V = false) :
    wp E (mappages root va PGSIZE pa perm) (fun r s' => ∃ t' : Shape Pte,
      Arena F s' root t' X c ∧ t.Extends t' ∧
      (r = 0 ∧ t'.leaf = update t.leaf (va / PGSIZE) (Pte.mk pa (perm ||| PTE_V)) ∨
        r = -1 ∧ t'.leaf = t.leaf)) s := by
  have ha : PGROUNDDOWN va = va := by
    unfold PGROUNDDOWN PGSIZE at *
    omega
  -- the first and the last page are the same one, so the loop makes one round
  have hlast : PGROUNDDOWN ((va + PGSIZE - 1) % 2 ^ 64) = va := by
    have hroom : MAXVA + PGSIZE < 2 ^ 64 := by decide
    obtain ⟨k, rfl⟩ := Nat.dvd_of_mod_eq_zero hva
    rw [Nat.mod_eq_of_lt (by omega), Nat.add_sub_assoc (by decide)]
    unfold PGROUNDDOWN
    rw [Nat.mul_add_div (by decide), Nat.div_eq_of_lt (by decide), Nat.add_zero, Nat.mul_comm]
  have hn : (va + 2 ^ 64 - va) % 2 ^ 64 / PGSIZE = 0 := by
    rw [Nat.add_sub_cancel_left, Nat.mod_self, Nat.zero_div]
  unfold mappages
  rw [if_neg (by decide)]
  dsimp only
  rw [ha, hlast, hn]
  refine (mappagesFrom_spec h hva (by simpa using hmax) fun w hlo hhi => ?_).call ?_
  · obtain rfl : w = va / PGSIZE := by omega
    exact hnew
  · rintro r s' ⟨t', k, h', hext, hleaf, ⟨rfl, rfl⟩ | ⟨rfl, hk, -⟩⟩
    · exact ⟨t', h', hext, .inl ⟨rfl, hleaf.trans (mapRange_one ..)⟩⟩
    · obtain rfl := Nat.le_zero.mp hk
      exact ⟨t', h', hext, .inr ⟨rfl, hleaf.trans (mapRange_zero ..)⟩⟩

/-- The map with `n` pages from `v` on unmapped. -/
def clearRange (leaf : Nat → Pte) (v n : Nat) : Nat → Pte :=
  fun w => if v ≤ w ∧ w < v + n then 0 else leaf w

theorem clearRange_zero (leaf : Nat → Pte) (v : Nat) : clearRange leaf v 0 = leaf := by
  funext w
  exact if_neg (by omega)

theorem clearRange_succ (leaf : Nat → Pte) (v n : Nat) :
    clearRange (update leaf v 0) (v + 1) n = clearRange leaf v (n + 1) := by
  funext w
  unfold clearRange
  by_cases hw : w = v
  · rw [if_neg (by omega), if_pos (by omega), hw, update_self]
  · rw [update_of_ne hw]
    exact if_congr (by omega) rfl rfl

/-- The physical pages that `n` virtual pages from `v` on are mapped to. -/
def rangePages (leaf : Nat → Pte) (v n : Nat) : Set Nat :=
  {p | ∃ w, v ≤ w ∧ w < v + n ∧ (leaf w).pa = p}

theorem rangePages_zero (leaf : Nat → Pte) (v : Nat) : rangePages leaf v 0 = ∅ := by
  refine Set.eq_empty_of_forall_notMem ?_
  rintro p ⟨w, hlo, hhi, -⟩
  omega

theorem rangePages_succ (leaf : Nat → Pte) (v n : Nat) :
    rangePages leaf v (n + 1) = {(leaf v).pa} ∪ rangePages leaf (v + 1) n := by
  ext p
  constructor
  · rintro ⟨w, hlo, hhi, hp⟩
    by_cases hw : w = v
    · exact .inl (hw ▸ hp.symm)
    · exact .inr ⟨w, by omega, by omega, hp⟩
  · rintro (rfl | ⟨w, hlo, hhi, hp⟩)
    · exact ⟨v, le_rfl, by omega, rfl⟩
    · exact ⟨w, by omega, by omega, hp⟩

theorem rangePages_congr {leaf leaf' : Nat → Pte} {v n : Nat}
    (h : ∀ w, v ≤ w → w < v + n → leaf' w = leaf w) :
    rangePages leaf' v n = rangePages leaf v n := by
  ext p
  constructor
  · rintro ⟨w, hlo, hhi, hp⟩
    exact ⟨w, hlo, hhi, h w hlo hhi ▸ hp⟩
  · rintro ⟨w, hlo, hhi, hp⟩
    exact ⟨w, hlo, hhi, (h w hlo hhi).symm ▸ hp⟩

theorem Arena.free (h : Arena F s root t X c) {p : Nat} (hp : p ∈ X) :
    wp E (kfree p) (fun _ s' => Arena F s' root t (X \ {p}) c) s := by
  refine (kfree_spec h.toPool hp).call ?_
  rintro _ s' ⟨-, hmem, hpool⟩
  refine ⟨hpool, h.realises.frame fun q hq => hmem q ?_⟩
  rintro rfl
  exact h.table_data q hq hp

/-- `uvmunmap` of pages that are mapped; those it frees are pages of data, each mapped once. -/
theorem uvmunmapFrom_spec (h : Arena F s root t X c) {n : Nat} (doFree : Bool)
    (hva : va % PGSIZE = 0) (hmax : va + n * PGSIZE ≤ MAXVA)
    (hmap : ∀ w, va / PGSIZE ≤ w → w < va / PGSIZE + n → (t.leaf w).kind = .value)
    (hdata : doFree = true → ∀ w, va / PGSIZE ≤ w → w < va / PGSIZE + n → (t.leaf w).pa ∈ X)
    (hinj : doFree = true → ∀ w w', va / PGSIZE ≤ w → w < w' → w' < va / PGSIZE + n →
      (t.leaf w).pa ≠ (t.leaf w').pa) :
    wp E (uvmunmapFrom root doFree n va) (fun _ s' => ∃ t' : Shape Pte, t'.table = t.table ∧
      t'.leaf = clearRange t.leaf (va / PGSIZE) n ∧
      Arena F s' root t' (if doFree = true then X \ rangePages t.leaf (va / PGSIZE) n else X) c)
      s := by
  induction n generalizing s t X va with
  | zero =>
    unfold uvmunmapFrom
    rw [wp_pure, clearRange_zero, rangePages_zero, Set.sdiff_empty, ite_self]
    exact ⟨t, rfl, rfl, h⟩
  | succ n ih =>
    have hnext : (va + PGSIZE) / PGSIZE = va / PGSIZE + 1 := Nat.add_div_right va (by decide)
    have hpos : 0 < PGSIZE := by decide
    have hlt : va < MAXVA := by
      rw [Nat.add_one_mul] at hmax
      omega
    have hvalue := hmap (va / PGSIZE) le_rfl (by omega)
    have hV := (Pte.kind_eq_value.mp hvalue).1
    unfold uvmunmapFrom
    rw [wp_bind]
    refine (walk_valid h.realises hlt hV).call ?_
    rintro r s1 ⟨rfl, p, rfl, hp, hpte⟩
    dsimp only
    rw [wp_bind, wp_loadPte, hpte, hV, if_neg (by decide), if_neg (Pte.flags_ne_of_value hvalue)]
    -- the entry is cleared and the others follow
    have hrest : ∀ {s' X'}, Arena F s' root t X' c →
        (doFree = true → X' = X \ {(t.leaf (va / PGSIZE)).pa}) → (doFree = false → X' = X) →
        wp E (storePte p (va / PGSIZE % 512) 0 >>= fun _ => uvmunmapFrom root doFree n (va + PGSIZE))
          (fun _ s' => ∃ t' : Shape Pte, t'.table = t.table ∧
            t'.leaf = clearRange t.leaf (va / PGSIZE) (n + 1) ∧
            Arena F s' root t'
              (if doFree = true then X \ rangePages t.leaf (va / PGSIZE) (n + 1) else X) c) s' := by
      intro s' X' h' hX' hX
      have hkeep : ∀ w, (va + PGSIZE) / PGSIZE ≤ w →
          (t.setLeaf (va / PGSIZE) 0).leaf w = t.leaf w := by
        intro w hw
        rw [Shape.setLeaf_leaf, update_of_ne (by omega)]
      rw [wp_bind, wp_storePte]
      refine (ih (h'.setLeaf hp 0) (by rw [Nat.add_mod_right, hva]) (by linarith) (fun w hlo hhi => ?_)
        (fun hf w hlo hhi => ?_) fun hf w w' hlo hww hhi => ?_).call ?_
      · rw [hkeep w hlo]
        exact hmap w (by omega) (by omega)
      · rw [hkeep w hlo, hX' hf]
        refine ⟨hdata hf w (by omega) (by omega), ?_⟩
        exact (hinj hf (va / PGSIZE) w le_rfl (by omega) (by omega)).symm
      · rw [hkeep w hlo, hkeep w' (by omega)]
        exact hinj hf w w' (by omega) hww (by omega)
      · rintro _ s'' ⟨t', htab, hleaf, h''⟩
        refine ⟨t', htab, ?_, ?_⟩
        · rw [hleaf, Shape.setLeaf_leaf, hnext, clearRange_succ]
        · rw [rangePages_congr fun w hlo _ => hkeep w hlo, hnext] at h''
          rw [rangePages_succ, ← Set.sdiff_sdiff]
          cases doFree with
          | true => rwa [hX' rfl] at h''
          | false => rwa [hX rfl] at h''
    cases doFree with
    | true =>
      have hp' := hdata rfl (va / PGSIZE) le_rfl (by omega)
      rw [if_pos rfl, wp_bind]
      exact (h.free hp').call fun _ s2 h2 => hrest h2 (fun _ => rfl) fun hf => by cases hf
    | false => exact hrest h (fun hf => by cases hf) fun _ => rfl

end Map

/-! ### Giving the tables back -/

section Freewalk

variable {F Y : Set Nat} {s : Vm} {root : Nat} {t : Shape Pte} {c mem : Nat → Page}
  {E : VmPanic → Prop}

/-- What `c` says of the pages in `l` is what `mem` does, and they are ours to free. -/
def Owns (Y : Set Nat) (c mem : Nat → Page) (l : List Nat) : Prop := ∀ r ∈ l, r ∈ Y ∧ c r = mem r

/-- The program frees the pages of `l`, given that they are as in `mem`. -/
def Frees (F : Set Nat) (E : VmPanic → Prop) (mem : Nat → Page) (l : List Nat) (prog : VmM Unit) :
    Prop :=
  ∀ s Y c, Pool F s ∅ Y c → Owns Y c mem l →
    wp E prog (fun _ s' => ∃ c', (∀ r, r ∉ l → c' r = c r) ∧ Pool F s' ∅ (Y \ {r | r ∈ l}) c') s

/-- The loop of `freewalk`: an entry is not valid, or leads to a table with the pages `kids i`. -/
theorem freewalk_loop {child : Nat → VmM Unit} (kids : Nat → List Nat) {p : Nat} {is : List Nat}
    (his : is.Nodup) (hkids : ∀ i ∈ is, ((mem p).pte i).V = false ∧ kids i = [] ∨
      ((mem p).pte i).V = true ∧ ((mem p).pte i).RWX = false ∧
        Frees F E mem (kids i) (child ((mem p).pte i).pa))
    (hdisj : ∀ i ∈ is, ∀ j ∈ is, i ≠ j → ∀ r ∈ kids i, r ∉ kids j) (hself : p ∉ is.flatMap kids)
    (h : Pool F s ∅ Y c) (hp : p ∈ Y) (hpc : c p = mem p) (hown : Owns Y c mem (is.flatMap kids)) :
    wp E (is.forM (freewalkEntry child p)) (fun _ s' => ∃ c',
      (∀ r, r ≠ p → r ∉ is.flatMap kids → c' r = c r) ∧
      Pool F s' ∅ (Y \ {r | r ∈ is.flatMap kids}) c') s := by
  -- the entries before `rest` are done
  have hloop := wp.forM (E := E) (l := is) (f := freewalkEntry child p) (s := s)
    (I := fun rest s' => ∃ done c', is = done ++ rest ∧
      (∀ r, r ≠ p → r ∉ done.flatMap kids → c' r = c r) ∧
      (∀ i ∈ rest, (c' p).pte i = (mem p).pte i) ∧
      Pool F s' ∅ (Y \ {r | r ∈ done.flatMap kids}) c') ?_ ?_
  · refine hloop.call ?_
    rintro _ s' ⟨done, c', hdone, hc, -, h'⟩
    rw [append_nil] at hdone
    rw [hdone]
    exact ⟨c', hc, h'⟩
  · rintro i rest s' ⟨done, c', hdone, hc, hpte, h'⟩
    have hi : i ∈ is := hdone ▸ mem_append_right _ (mem_cons_self ..)
    have hnodup : (done ++ i :: rest).Nodup := hdone ▸ his
    have hnew : i ∉ done ∧ i ∉ rest :=
      ⟨fun hmem => disjoint_of_nodup_append hnodup hmem (mem_cons_self ..),
        (nodup_cons.mp (nodup_append.mp hnodup).2.1).1⟩
    have hdone' : ∀ j ∈ done, j ∈ is := fun j hj => hdone ▸ mem_append_left _ hj
    have hpY : p ∈ Y \ {r | r ∈ done.flatMap kids} := by
      refine ⟨hp, fun hmem => hself ?_⟩
      obtain ⟨j, hj, hpj⟩ := mem_flatMap.mp hmem
      exact mem_flatMap.mpr ⟨j, hdone' j hj, hpj⟩
    have hpi : p ∉ kids i := fun hmem => hself (mem_flatMap.mpr ⟨i, hi, hmem⟩)
    have hsplit : is = (done ++ [i]) ++ rest := by rw [hdone, append_assoc]; rfl
    have hread : (s'.mem p).pte i = (mem p).pte i := by
      rw [h'.data hpY]
      exact hpte i (mem_cons_self ..)
    unfold freewalkEntry
    rw [wp_bind, wp_loadPte, hread]
    rcases hkids i hi with ⟨hV, hnil⟩ | ⟨hV, hrwx, hfrees⟩
    · rw [if_neg fun hno => absurd (hV.symm.trans hno.1) (by decide),
        if_neg fun hno => absurd (hV.symm.trans hno) (by decide), wp_pure]
      refine ⟨done ++ [i], c', hsplit, ?_, fun j hj => hpte j (mem_cons_of_mem _ hj), ?_⟩
      · rwa [flatMap_append, flatMap_singleton, hnil, append_nil]
      · rwa [flatMap_append, flatMap_singleton, hnil, append_nil]
    · have hown' : Owns (Y \ {r | r ∈ done.flatMap kids}) c' mem (kids i) := by
        intro r hr
        have hout : r ∉ done.flatMap kids := by
          intro hmem
          obtain ⟨j, hj, hrj⟩ := mem_flatMap.mp hmem
          exact hdisj i hi j (hdone' j hj) (fun heq => hnew.1 (heq ▸ hj)) r hr hrj
        have hrp : r ≠ p := fun heq => hpi (heq ▸ hr)
        have hr' := hown r (mem_flatMap.mpr ⟨i, hi, hr⟩)
        exact ⟨⟨hr'.1, hout⟩, (hc r hrp hout).trans hr'.2⟩
      rw [if_pos ⟨hV, hrwx⟩, wp_bind]
      refine (hfrees s' _ c' h' hown').call ?_
      rintro _ s2 ⟨c2, hc2, h2⟩
      have hset : (Y \ {r | r ∈ done.flatMap kids}) \ {r | r ∈ kids i}
          = Y \ {r | r ∈ (done ++ [i]).flatMap kids} := by
        rw [Set.sdiff_sdiff, flatMap_append, flatMap_singleton]
        congr 1
        ext r
        exact mem_append.symm
      have hp2 : p ∈ (Y \ {r | r ∈ done.flatMap kids}) \ {r | r ∈ kids i} := ⟨hpY, hpi⟩
      have hpage : s2.mem p = c' p := (h2.data hp2).trans (hc2 p hpi)
      rw [wp_storePte, hpage]
      refine ⟨done ++ [i], _, hsplit, fun r hr hout => ?_, fun j hj => ?_,
        hset ▸ h2.write_data p _⟩
      · rw [flatMap_append, flatMap_singleton, mem_append, not_or] at hout
        rw [update_of_ne hr, hc2 r hout.2, hc r hr hout.1]
      · have hji : j ≠ i := fun heq => hnew.2 (heq ▸ hj)
        rw [update_self, Page.pte_setPte_ne _ _ hji]
        exact hpte j (mem_cons_of_mem _ hj)
  · refine ⟨[], c, rfl, fun _ _ _ => rfl, fun i _ => by rw [hpc], ?_⟩
    rw [flatMap_nil]
    simpa using h

theorem freewalk_table {levels p : Nat} (kids : Nat → List Nat)
    (hkids : ∀ i, i < 512 → ((mem p).pte i).V = false ∧ kids i = [] ∨
      ((mem p).pte i).V = true ∧ ((mem p).pte i).RWX = false ∧
        Frees F E mem (kids i) (freewalk levels ((mem p).pte i).pa))
    (hnodup : ((List.range 512).flatMap kids ++ [p]).Nodup) :
    Frees F E mem ((List.range 512).flatMap kids ++ [p]) (freewalk (levels + 1) p) := by
  intro s Y c h hown
  have hlt : ∀ i ∈ List.range 512, i < 512 := fun i => mem_range.mp
  have his : (List.range 512).Nodup := nodup_range
  unfold freewalk freewalkEntries
  -- the loop is about any list of entries without repetition
  generalize List.range 512 = is at hlt his hnodup hown ⊢
  rw [nodup_append', nodup_flatMap] at hnodup
  obtain ⟨⟨-, hpair⟩, -, hdisj⟩ := hnodup
  have hself : p ∉ is.flatMap kids := fun hmem => hdisj hmem (mem_singleton_self p)
  obtain ⟨hpY, hpc⟩ := hown p (mem_append_right _ (mem_singleton_self p))
  have hpair' : ∀ i ∈ is, ∀ j ∈ is, i ≠ j → ∀ r ∈ kids i, r ∉ kids j := by
    intro i hi j hj hij r hri hrj
    have : Std.Symm (Function.onFun List.Disjoint kids) := ⟨fun _ _ h => h.symm⟩
    exact hpair.forall hi hj hij hri hrj
  rw [wp_bind]
  refine (freewalk_loop kids his (fun i hi => hkids i (hlt i hi)) hpair' hself h hpY hpc fun r hr =>
    hown r (mem_append_left _ hr)).call ?_
  rintro _ s1 ⟨c1, hc1, h1⟩
  refine (kfree_spec h1 (p := p) ⟨hpY, hself⟩).call ?_
  rintro _ s2 ⟨-, -, h2⟩
  -- what the loop has freed, and the table itself
  have hset : (Y \ {r | r ∈ is.flatMap kids}) \ {p} = Y \ {r | r ∈ is.flatMap kids ++ [p]} := by
    rw [Set.sdiff_sdiff]
    congr 1
    ext r
    rw [Set.mem_union, Set.mem_ofPred_eq, Set.mem_ofPred_eq, mem_append, mem_singleton]
    rfl
  refine ⟨c1, fun r hr => ?_, hset ▸ h2⟩
  rw [mem_append, mem_singleton, not_or] at hr
  exact hc1 r hr.2 hr.1

/-- `freewalk` of a tree without leaves gives all its pages back. -/
theorem freewalk_spec (ht : Realises ptFormat 2 mem root t) (hempty : ∀ v, (t.leaf v).V = false)
    {l q p : Nat} (hl : l ≤ 2) (hp : t.table l q = some p) :
    Frees F E mem (under 512 t l q) (freewalk (l + 1) p) := by
  induction l generalizing q p with
  -- an entry of the lowest tables is a leaf, and there is none
  | zero =>
    have hnil : (List.range 512).flatMap (fun _ => ([] : List Nat)) = [] :=
      flatMap_eq_nil_iff.mpr fun _ _ => rfl
    have hunder : under 512 t 0 q = (List.range 512).flatMap (fun _ => ([] : List Nat)) ++ [p] := by
      rw [hnil, under, hp]
      rfl
    rw [hunder]
    refine freewalk_table _ (fun i hi => .inl ⟨?_, rfl⟩) ?_
    · have hleaf := ht.bottom hp i (by rwa [ptFormat_fanout])
      rw [ptFormat_fanout, ptFormat_get] at hleaf
      rw [hleaf]
      exact hempty _
    · rw [hnil]
      exact nodup_singleton p
  | succ l ih =>
    have hunder : under 512 t (l + 1) q
        = (List.range 512).flatMap (fun i => under 512 t l (q * 512 + i)) ++ [p] := by
      rw [under, hp]
      rfl
    have hnodup := ht.nodup_under (l + 1) q
    rw [ptFormat_fanout, hunder] at hnodup
    rw [hunder]
    refine freewalk_table _ (fun i hi => ?_) hnodup
    have hkind := ht.inner hp i (by rwa [ptFormat_fanout])
    rw [ptFormat_fanout, ptFormat_get, ptFormat_kind] at hkind
    -- an entry above is empty, or leads to the subtree of the next digit
    cases hchild : t.table l (q * 512 + i) with
    | none =>
      rw [hchild] at hkind
      have hnil := ht.under_none (Nat.le_of_succ_le hl) hchild
      rw [ptFormat_fanout] at hnil
      exact .inl ⟨Pte.kind_eq_empty.mp hkind, hnil⟩
    | some r =>
      rw [hchild] at hkind
      obtain ⟨hV, hrwx, hpa⟩ := Pte.kind_eq_branch.mp hkind
      exact .inr ⟨hV, hrwx, hpa ▸ ih (Nat.le_of_succ_le hl) hchild⟩

theorem Arena.freewalk {X : Set Nat} (h : Arena F s root t X c)
    (hempty : ∀ v, (t.leaf v).V = false) :
    wp E (freewalk 3 root) (fun _ s' => Pool F s' ∅ X c) s := by
  have hmem : ∀ r, r ∈ under 512 t 2 0 ↔ t.Pages r := fun r => by
    have := h.realises.mem_under_root (p := r)
    rwa [ptFormat_fanout] at this
  refine (freewalk_spec h.realises hempty le_rfl h.realises.root s _ _ h.toPool.untable ?_).call ?_
  · exact fun r hr => ⟨.inl ((hmem r).mp hr), rfl⟩
  · rintro _ s' ⟨c', hc', h'⟩
    have hset : ({r | t.Pages r} ∪ X) \ {r | r ∈ under 512 t 2 0} = X := by
      ext r
      rw [Set.mem_sdiff, Set.mem_union, Set.mem_ofPred_eq, Set.mem_ofPred_eq, hmem r]
      have := h.table_data r
      exact ⟨fun hr => hr.1.resolve_left hr.2, fun hr => ⟨.inr hr, fun ht => this ht hr⟩⟩
    rw [hset] at h'
    refine h'.congr fun r hfree _ => ?_
    -- a page that is not free at the end was neither free nor a table before
    have hkept : ∀ {r}, r ∈ F → r ∉ s'.free → r ∈ X := fun hF hno =>
      (((h'.cover _).mp hF).resolve_left hno).resolve_left (Set.notMem_empty _)
    have hno : r ∉ s.free := fun hr => h.free_data r hr (hkept ((h.cover r).mpr (.inl hr)) hfree)
    have hnt : ¬ t.Pages r := fun hr => h.table_data r hr (hkept (h.mem_table hr) hfree)
    rw [hc' r (mt (hmem r).mp hnt)]
    exact (h.rest r hno hnt).symm

end Freewalk

end Xv6
