import Xv6.Vm.Space

/-!
# A page table is a finite map

The map that a page table stands for takes a virtual page to a physical page and the flags of the
entry. `mappages` adds a range to it, `uvmunmap` takes a range out of it, `walk` reads it, and the
tables that `walk` creates leave it as it is (`page_table_is_map`).
-/

namespace Xv6

open Prog Radix

def Pte.target (pte : Pte) : Option (Nat × Nat) := if pte.V then some (pte.pa, pte.flags) else none

/-- The map: physical page and flags of the virtual pages that are mapped. -/
def pageMap (t : Shape Pte) (v : Nat) : Option (Nat × Nat) := (t.leaf v).target

/-- What `walk` says of a virtual page: the entry it leads to, if any. -/
def walkTarget (s : Vm) (r : Option (Nat × Nat)) : Option (Nat × Nat) :=
  r.bind fun e => ((s.mem e.1).pte e.2).target

theorem Pte.target_zero : Pte.target 0 = none := by
  unfold Pte.target
  rw [Pte.V_zero]
  rfl

theorem Pte.target_none {pte : Pte} : pte.target = none ↔ pte.V = false := by
  unfold Pte.target
  cases pte.V with
  | false | true => simp

theorem Pte.target_mk {pa perm : Nat} (hpa : pa < 2 ^ 54) (hperm : perm < 1024) :
    (Pte.mk pa (perm ||| PTE_V)).target = some (pa, perm ||| PTE_V) := by
  have hlt := Pte.or_V_lt hperm
  have hV : (Pte.mk pa (perm ||| PTE_V)).V = true := by
    unfold Pte.V
    rw [Pte.flags_mk hpa hlt]
    exact decide_eq_true Pte.V_or
  unfold Pte.target
  rw [hV, Pte.pa_mk hpa hlt, Pte.flags_mk hpa hlt]
  rfl

theorem pageMap_clearRange {t t' : Shape Pte} {v n : Nat} (h : t'.leaf = clearRange t.leaf v n)
    (w : Nat) : pageMap t' w = if v ≤ w ∧ w < v + n then none else pageMap t w := by
  unfold pageMap
  rw [h]
  unfold clearRange
  split
  · exact Pte.target_zero
  · rfl

theorem pageMap_mapRange {t t' : Shape Pte} {v pa perm n : Nat}
    (h : t'.leaf = mapRange t.leaf v pa perm n) (hpa : pa + n ≤ 2 ^ 54) (hperm : perm < 1024)
    (w : Nat) :
    pageMap t' w = if v ≤ w ∧ w < v + n then some (pa + (w - v), perm ||| PTE_V) else pageMap t w := by
  unfold pageMap
  rw [h]
  unfold mapRange
  split
  · exact Pte.target_mk (by omega) hperm
  · rfl

section Map

variable {F X : Set Nat} {s : Vm} {root : Nat} {t : Shape Pte} {c : Nat → Page} {E : VmPanic → Prop}

theorem walk_reads (h : Realises ptFormat 2 s.mem root t) {va : Nat} (hva : va < MAXVA) :
    wp E (walk root va false) (fun r s' => s' = s ∧ walkTarget s r = pageMap t (va / PGSIZE)) s := by
  refine (walk_lookup h hva).call ?_
  rintro r s' ⟨rfl, rfl⟩
  refine ⟨rfl, ?_⟩
  unfold walkTarget pageMap
  cases htab : t.table 0 (va / PGSIZE / 512) with
  | none =>
    rw [realises_missing h htab, Pte.target_zero]
    rfl
  | some p =>
    show ((s'.mem p).pte (va / PGSIZE % 512)).target = _
    rw [realises_leaf h htab]

theorem mappages_range {va size : Nat} (hsize : 0 < size) (hmax : va + size ≤ MAXVA) :
    ∃ n, (PGROUNDDOWN ((va + size - 1) % 2 ^ 64) + 2 ^ 64 - PGROUNDDOWN va) % 2 ^ 64 / PGSIZE = n ∧
      (va + size - 1) / PGSIZE = va / PGSIZE + n ∧ PGROUNDDOWN va + n * PGSIZE < MAXVA := by
  have hmod : (va + size - 1) % 2 ^ 64 = va + size - 1 := by
    refine Nat.mod_eq_of_lt ?_
    have hroom : MAXVA < 2 ^ 64 := by decide
    omega
  obtain ⟨n, hn⟩ := Nat.exists_eq_add_of_le (show va / PGSIZE ≤ (va + size - 1) / PGSIZE from
    Nat.div_le_div_right (by omega))
  have hsum : PGROUNDDOWN (va + size - 1) = PGROUNDDOWN va + n * PGSIZE := by
    unfold PGROUNDDOWN
    rw [hn, Nat.add_mul]
  have hlt : PGROUNDDOWN va + n * PGSIZE < MAXVA := by
    rw [← hsum]
    have := Nat.div_mul_le_self (va + size - 1) PGSIZE
    unfold PGROUNDDOWN
    omega
  refine ⟨n, ?_, hn, hlt⟩
  have hsub : PGROUNDDOWN va + n * PGSIZE + 2 ^ 64 - PGROUNDDOWN va = n * PGSIZE + 2 ^ 64 := by omega
  have hsmall : n * PGSIZE < 2 ^ 64 := by
    have hroom : MAXVA < 2 ^ 64 := by decide
    omega
  rw [hmod, hsum, hsub, Nat.add_mod_right, Nat.mod_eq_of_lt hsmall, Nat.mul_div_cancel n PGSIZE_pos]

/-- `mappages` of pages that are not mapped adds them, or a part of them from the first one on. -/
theorem mappages_adds (h : Arena F s root t X c) {va size pa perm : Nat} (hsize : 0 < size)
    (hmax : va + size ≤ MAXVA) (hperm : perm < 1024)
    (hpa : pa + ((va + size - 1) / PGSIZE - va / PGSIZE + 1) ≤ 2 ^ 54)
    (hnew : ∀ v, va / PGSIZE ≤ v → v ≤ (va + size - 1) / PGSIZE → pageMap t v = none) :
    wp E (mappages root va size pa perm) (fun r s' => ∃ (t' : Shape Pte) (k : Nat),
      Arena F s' root t' X c ∧
      (∀ v, pageMap t' v = if va / PGSIZE ≤ v ∧ v < va / PGSIZE + k
        then some (pa + (v - va / PGSIZE), perm ||| PTE_V) else pageMap t v) ∧
      (r = 0 ∧ va / PGSIZE + k = (va + size - 1) / PGSIZE + 1 ∨
        r = -1 ∧ va / PGSIZE + k ≤ (va + size - 1) / PGSIZE ∧ s'.free = [])) s := by
  obtain ⟨n, hn, hend, hlast⟩ := mappages_range hsize hmax
  have hdiv : PGROUNDDOWN va / PGSIZE = va / PGSIZE := Nat.mul_div_cancel _ PGSIZE_pos
  have halign : PGROUNDDOWN va % PGSIZE = 0 := Nat.mul_mod_left ..
  -- pages are counted from the rounded addresses, as the loop does
  unfold mappages
  rw [if_neg (by omega)]
  dsimp only
  rw [hn]
  refine (mappagesFrom_spec h halign hlast fun w hlo hhi => ?_).call ?_
  · rw [hdiv] at hlo hhi
    exact Pte.target_none.mp (hnew w hlo (by omega))
  · rintro r s' ⟨t', k, h', -, hleaf, hres⟩
    rw [hdiv] at hleaf
    refine ⟨t', k, h', pageMap_mapRange hleaf ?_ hperm, hres.imp ?_ ?_⟩
    · rcases hres with ⟨-, rfl⟩ | ⟨-, hk, -⟩
      · omega
      · omega
    · rintro ⟨hr, rfl⟩
      exact ⟨hr, by omega⟩
    · rintro ⟨hr, hk, hfree⟩
      exact ⟨hr, by omega, hfree⟩

/-- `uvmunmap` of leaves takes them out of the map. The pages that it frees are data, each mapped
once. -/
theorem uvmunmap_removes (h : Arena F s root t X c) {va n : Nat} (doFree : Bool)
    (hva : va % PGSIZE = 0) (hmax : va + n * PGSIZE ≤ MAXVA)
    (hmap : ∀ v, va / PGSIZE ≤ v → v < va / PGSIZE + n → (t.leaf v).kind = .value)
    (hdata : doFree = true → (∀ v, va / PGSIZE ≤ v → v < va / PGSIZE + n → (t.leaf v).pa ∈ X) ∧
      ∀ v w, va / PGSIZE ≤ v → v < w → w < va / PGSIZE + n → (t.leaf v).pa ≠ (t.leaf w).pa) :
    wp E (uvmunmap root va n doFree) (fun _ s' => ∃ t' : Shape Pte,
      Arena F s' root t' (if doFree = true then X \ rangePages t.leaf (va / PGSIZE) n else X) c ∧
      ∀ v, pageMap t' v
        = if va / PGSIZE ≤ v ∧ v < va / PGSIZE + n then none else pageMap t v) s := by
  unfold uvmunmap
  rw [if_neg (not_not.mpr hva)]
  refine (uvmunmapFrom_spec h doFree hva hmax hmap (fun hf => (hdata hf).1)
    fun hf => (hdata hf).2).call ?_
  rintro _ s' ⟨t', -, hleaf, h'⟩
  exact ⟨t', h', pageMap_clearRange hleaf⟩

/-- `walk` that allocates leaves the map as it is; a table it creates was free, is not shared, and
holds nothing but the link to the next one. -/
theorem walk_creates (h : Arena F s root t X c) {va : Nat} (hva : va < MAXVA) :
    wp E (walk root va true) (fun r s' => ∃ t' : Shape Pte, Arena F s' root t' X c ∧
      (∀ v, pageMap t' v = pageMap t v) ∧ t.Extends t' ∧
      (∀ l q p, t'.table l q = some p → t.table l q = none → p ∈ s.free ∧ ∀ i, i < 512 →
        ((s'.mem p).pte i).V = true → ∃ l' q' p', t'.table l' q' = some p' ∧ t.table l' q' = none ∧
          ((s'.mem p).pte i).kind = .branch p') ∧
      (r = none → s'.free = []) ∧
      ∀ e ∈ r, walkTarget s' r = pageMap t (va / PGSIZE)) s := by
  refine (walk_alloc h hva).call ?_
  rintro r s' ⟨t', ⟨hleaf, hext⟩, h', hres⟩
  refine ⟨t', h', fun v => by unfold pageMap; rw [hleaf], hext, fun l q p hp hnone => ⟨?_, ?_⟩, ?_, ?_⟩
  · -- a page of the pool that was neither a table nor data was free
    have hin : p ∈ F := h'.mem_table ⟨l, q, hp⟩
    rcases (h.cover p).mp hin with hfree | ⟨l0, q0, hold⟩ | hdata
    · exact hfree
    · obtain ⟨rfl, rfl⟩ := h'.realises.inj (hext _ _ _ hold) hp
      rw [hnone] at hold
      cases hold
    · exact absurd hdata (h'.table_data p ⟨l, q, hp⟩)
  · intro i hi hV
    have hadded := h.realises.added h'.realises hleaf hp hnone (i := i) (by rwa [ptFormat_fanout])
    rw [ptFormat_get, ptFormat_kind, ptFormat_nil] at hadded
    rcases hadded with hzero | hempty | ⟨l', q', p', hkind, hp', hnone'⟩
    · rw [hzero, Pte.V_zero] at hV
      cases hV
    · rw [Pte.kind_eq_empty.mp hempty] at hV
      cases hV
    · exact ⟨l', q', p', hp', hnone', hkind⟩
  · intro hr
    rcases hres with ⟨-, hfree⟩ | ⟨p, rfl, -⟩
    · exact hfree
    · cases hr
  · intro e he
    rcases hres with ⟨rfl, -⟩ | ⟨p, rfl, hp⟩
    · cases he
    · show ((s'.mem p).pte (va / PGSIZE % 512)).target = _
      rw [realises_leaf h'.realises hp]
      unfold pageMap
      rw [hleaf]

/-- **A page table is a finite map** from the virtual pages below `MAXVA` to a page and its flags.
`walk` reads the map, `mappages` of pages that are not mapped adds them (or, out of memory, those up
to the page it could not reach), `uvmunmap` removes the pages of a range, and `walk` with `alloc`
adds tables that map nothing. -/
theorem page_table_is_map (h : Arena F s root t X c) :
    (∀ va, va < MAXVA → wp (fun _ => False) (walk root va false)
      (fun r s' => s' = s ∧ walkTarget s r = pageMap t (va / PGSIZE)) s) ∧
    (∀ va size pa perm, 0 < size → va + size ≤ MAXVA → perm < 1024 →
      pa + ((va + size - 1) / PGSIZE - va / PGSIZE + 1) ≤ 2 ^ 54 →
      (∀ v, va / PGSIZE ≤ v → v ≤ (va + size - 1) / PGSIZE → pageMap t v = none) →
      wp (fun _ => False) (mappages root va size pa perm) (fun r s' => ∃ (t' : Shape Pte) (k : Nat),
        Arena F s' root t' X c ∧
        (∀ v, pageMap t' v = if va / PGSIZE ≤ v ∧ v < va / PGSIZE + k
          then some (pa + (v - va / PGSIZE), perm ||| PTE_V) else pageMap t v) ∧
        (r = 0 ∧ va / PGSIZE + k = (va + size - 1) / PGSIZE + 1 ∨
          r = -1 ∧ va / PGSIZE + k ≤ (va + size - 1) / PGSIZE ∧ s'.free = [])) s) ∧
    (∀ va n doFree, va % PGSIZE = 0 → va + n * PGSIZE ≤ MAXVA →
      (∀ v, va / PGSIZE ≤ v → v < va / PGSIZE + n → (t.leaf v).kind = .value) →
      (doFree = true → (∀ v, va / PGSIZE ≤ v → v < va / PGSIZE + n → (t.leaf v).pa ∈ X) ∧
        ∀ v w, va / PGSIZE ≤ v → v < w → w < va / PGSIZE + n → (t.leaf v).pa ≠ (t.leaf w).pa) →
      wp (fun _ => False) (uvmunmap root va n doFree) (fun _ s' => ∃ t' : Shape Pte,
        Arena F s' root t' (if doFree = true then X \ rangePages t.leaf (va / PGSIZE) n else X) c ∧
        ∀ v, pageMap t' v
          = if va / PGSIZE ≤ v ∧ v < va / PGSIZE + n then none else pageMap t v) s) ∧
    (∀ va, va < MAXVA → wp (fun _ => False) (walk root va true) (fun r s' => ∃ t' : Shape Pte,
      Arena F s' root t' X c ∧ (∀ v, pageMap t' v = pageMap t v) ∧ t.Extends t' ∧
      (∀ l q p, t'.table l q = some p → t.table l q = none → p ∈ s.free ∧ ∀ i, i < 512 →
        ((s'.mem p).pte i).V = true → ∃ l' q' p', t'.table l' q' = some p' ∧ t.table l' q' = none ∧
          ((s'.mem p).pte i).kind = .branch p') ∧
      (r = none → s'.free = []) ∧
      ∀ e ∈ r, walkTarget s' r = pageMap t (va / PGSIZE)) s) :=
  ⟨fun _ hva => walk_reads h.realises hva,
    fun _ _ _ _ hsize hmax hperm hpa hnew => mappages_adds h hsize hmax hperm hpa hnew,
    fun _ _ doFree hva hmax hmap hdata => uvmunmap_removes h doFree hva hmax hmap hdata,
    fun _ hva => walk_creates h hva⟩

end Map

/-- Three pages mapped into the page table of the first process. -/
theorem page_table_is_map_first : ∃ s' t t', (∀ v, v < 3 → pageMap t v = none) ∧
    (mappages 0x80100 100 (2 * PGSIZE) 0x90000 (PTE_R ||| PTE_W)).run firstVm = .ok (0, s') ∧
    ∀ v, v < 3 → pageMap t' v = some (0x90000 + v, PTE_R ||| PTE_W ||| PTE_V) := by
  obtain ⟨t, h⟩ := firstVm_space
  have hnew (v : Nat) (hv : v < 3) : pageMap t v = none := by
    unfold pageMap
    rw [h.other v (Nat.zero_le v) ?_ ?_, Pte.target_zero]
    · exact (hv.trans (by decide)).ne
    · exact (hv.trans (by decide)).ne
  have hmap := (page_table_is_map h.toArena).2.1 100 (2 * PGSIZE) 0x90000 (PTE_R ||| PTE_W) (by decide)
    (by decide) (by decide) (by decide) fun v _ hv => hnew v (hv.trans_lt (by decide))
  obtain ⟨s', hrun⟩ : ∃ s', (mappages 0x80100 100 (2 * PGSIZE) 0x90000 (PTE_R ||| PTE_W)).run firstVm
      = .ok (0, s') := ok_of_map_fst (by decide +kernel)
  obtain ⟨t', k, -, hpages, hres⟩ := (wp_iff.mp hmap).1 0 s' hrun
  refine ⟨s', t, t', hnew, hrun, fun v hv => ?_⟩
  obtain ⟨-, hk⟩ := hres.resolve_right fun hno => by omega
  have hzero : 100 / PGSIZE = 0 := by decide
  have hlast : (100 + 2 * PGSIZE - 1) / PGSIZE = 2 := by decide
  rw [hpages v, if_pos (by omega), hzero, Nat.sub_zero]

end Xv6
