import Xv6.Lib.Radix
import Xv6.Vm.Vm

/-!
# The pages a computation works with

`Pool F s T X c`: of the pages in `F`, some are free, some are page tables (`T`) and the rest hold
data (`X`); no page is two of these. Pages that are neither free nor tables, inside `F` or not,
have the contents `c`. A function that takes pages, gives them back and writes page tables keeps
`F` and so leaves everything outside of it alone.
-/

namespace Xv6

open Prog Function List

/-! ### Page table entries -/

namespace Pte

variable {pa flags : Nat}

theorem toNat_mk (hpa : pa < 2 ^ 54) (hflags : flags < 1024) :
    (mk pa flags).toNat = pa * 1024 + flags := by
  have hlt : pa * 1024 + flags < UInt64.size := by
    have hsize : UInt64.size = 2 ^ 64 := rfl
    omega
  unfold mk
  exact UInt64.toNat_ofNat_of_lt' hlt

theorem pa_mk (hpa : pa < 2 ^ 54) (hflags : flags < 1024) : (mk pa flags).pa = pa := by
  unfold Pte.pa
  rw [toNat_mk hpa hflags]
  omega

theorem flags_mk (hpa : pa < 2 ^ 54) (hflags : flags < 1024) : (mk pa flags).flags = flags := by
  unfold Pte.flags
  rw [toNat_mk hpa hflags]
  omega

theorem flags_lt (pte : Pte) : pte.flags < 1024 := by
  unfold flags
  omega

def kind (pte : Pte) : Radix.Kind :=
  if pte.V = false then .empty
  else if pte.RWX = false then .branch pte.pa
  else .value

theorem kind_table (hpa : pa < 2 ^ 54) : (mk pa PTE_V).kind = .branch pa := by
  unfold kind V RWX
  rw [flags_mk hpa (by decide), pa_mk hpa (by decide)]
  rfl

variable {pte : Pte}

theorem kind_eq_empty : pte.kind = .empty ↔ pte.V = false := by
  unfold kind
  split
  · simp_all
  · split <;> simp_all

theorem V_zero : V 0 = false := by
  unfold V flags
  rfl

theorem kind_zero : kind 0 = .empty := kind_eq_empty.mpr V_zero

theorem kind_eq_value : pte.kind = .value ↔ pte.V = true ∧ pte.RWX = true := by
  unfold kind
  split
  · simp_all
  · split <;> simp_all

theorem kind_eq_branch {p : Nat} :
    pte.kind = .branch p ↔ pte.V = true ∧ pte.RWX = false ∧ pte.pa = p := by
  unfold kind
  split
  · simp_all
  · split <;> simp_all

theorem flags_ne_of_value (h : pte.kind = .value) : pte.flags ≠ PTE_V := by
  intro hflags
  have hrwx := (kind_eq_value.mp h).2
  unfold RWX at hrwx
  rw [hflags] at hrwx
  exact absurd hrwx (by decide)

theorem U_mk (hpa : pa < 2 ^ 54) (hflags : flags < 1024) (hU : flags / 16 % 2 ≠ 1) :
    (mk pa flags).U = false := by
  unfold U
  rw [flags_mk hpa hflags]
  exact decide_eq_false hU

theorem V_or {perm : Nat} : (perm ||| PTE_V) % 2 = 1 := by
  unfold PTE_V
  rw [Nat.or_mod_two_eq_one]
  exact .inr rfl

theorem or_V_div (perm : Nat) : (perm ||| PTE_V) / 2 = perm / 2 := by
  unfold PTE_V
  rw [Nat.or_div_two]
  simp

theorem or_V_lt {perm : Nat} (h : perm < 1024) : (perm ||| PTE_V) < 1024 :=
  Nat.or_lt_two_pow (n := 10) h (by decide)

theorem kind_leaf {perm : Nat} (hpa : pa < 2 ^ 54) (hperm : perm < 1024) (hrwx : perm / 2 % 8 ≠ 0) :
    (mk pa (perm ||| PTE_V)).kind = .value := by
  rw [kind_eq_value]
  unfold V RWX
  rw [flags_mk hpa (or_V_lt hperm), or_V_div]
  exact ⟨decide_eq_true V_or, decide_eq_true hrwx⟩

theorem or_V_of_V (h : pte.V = true) : pte.flags ||| PTE_V = pte.flags := by
  unfold V at h
  have hodd : pte.flags % 2 = 1 := of_decide_eq_true h
  have hdiv := or_V_div pte.flags
  have hmod : (pte.flags ||| PTE_V) % 2 = 1 := V_or
  omega

theorem kind_flags {p : Nat} (hp : p < 2 ^ 54) (h : pte.kind = .value) :
    (mk p pte.flags).kind = .value := by
  rw [kind_eq_value] at h ⊢
  unfold V RWX at h ⊢
  rwa [flags_mk hp pte.flags_lt]

theorem clearU_value (hpa : pte.pa < 2 ^ 54) (h : pte.kind = .value) :
    pte.clearU.kind = .value ∧ pte.clearU.pa = pte.pa ∧ pte.clearU.U = false := by
  unfold clearU
  split
  · rename_i hU
    obtain ⟨hV, hRWX⟩ := kind_eq_value.mp h
    unfold V at hV
    unfold RWX at hRWX
    unfold U at hU
    have hlt := pte.flags_lt
    simp only [decide_eq_true_eq] at hV hRWX hU
    have hflags : pte.flags - PTE_U < 1024 := by omega
    rw [kind_eq_value, pa_mk hpa hflags]
    unfold V RWX U
    rw [flags_mk hpa hflags]
    unfold PTE_U
    simp only [decide_eq_true_eq, decide_eq_false_iff_not]
    exact ⟨⟨by omega, by omega⟩, trivial, by omega⟩
  · rename_i hU
    exact ⟨h, rfl, by simpa using hU⟩

end Pte

theorem Page.pte_setPte (pg : Page) (i : Nat) (pte : Pte) : (pg.setPte i pte).pte i = pte := by
  unfold Page.pte Page.setPte
  have hlt : pte.toNat < 256 ^ 8 := pte.toNat_lt
  rw [Bytes.getLE_putLE, Nat.mod_eq_of_lt hlt, UInt64.ofNat_toNat]

theorem Page.pte_setPte_ne (pg : Page) {i j : Nat} (pte : Pte) (h : j ≠ i) :
    (pg.setPte i pte).pte j = pg.pte j := by
  unfold Page.pte Page.setPte
  rw [Bytes.getLE_putLE_disjoint]
  omega

theorem Page.pte_zero (i : Nat) : Page.pte (fun _ => 0) i = 0 := by
  unfold Page.pte
  rw [Bytes.getLE_eq (v := 0)]
  · rfl
  · intro j _
    rw [Nat.zero_div]
    rfl

/-- The tables of the source: 512 entries in a page, and the erased page is filled with zeroes. -/
def ptFormat : Radix.Format Page Pte where
  fanout := 512
  pos := by decide
  get := Page.pte
  set := Page.setPte
  kind := Pte.kind
  nil := 0
  kind_nil := Pte.kind_zero
  get_set := Page.pte_setPte
  get_set_ne pg _ _ pte h := Page.pte_setPte_ne pg pte h

@[simp] theorem ptFormat_fanout : ptFormat.fanout = 512 := rfl

@[simp] theorem ptFormat_get : ptFormat.get = Page.pte := rfl

@[simp] theorem ptFormat_set : ptFormat.set = Page.setPte := rfl

@[simp] theorem ptFormat_kind : ptFormat.kind = Pte.kind := rfl

@[simp] theorem ptFormat_nil : ptFormat.nil = 0 := rfl

attribute [irreducible] ptFormat

/-! ### Steps -/

section Steps

def Vm.setPage (s : Vm) (p : Nat) (pg : Page) : Vm :=
  { s with mem := update s.mem p pg }

@[simp] theorem Vm.setPage_mem_self (s : Vm) (p : Nat) (pg : Page) : (s.setPage p pg).mem p = pg :=
  update_self ..

theorem Vm.setPage_mem_ne (s : Vm) {p q : Nat} (h : q ≠ p) (pg : Page) :
    (s.setPage p pg).mem q = s.mem q :=
  update_of_ne h ..

variable {E : VmPanic → Prop} {s : Vm}

theorem wp_loadPage {p : Nat} {Q : Page → Vm → Prop} : wp E (loadPage p) Q s ↔ Q (s.mem p) s :=
  Iff.rfl

variable {Q : Unit → Vm → Prop}

theorem wp_storePage {p : Nat} {pg : Page} : wp E (storePage p pg) Q s ↔ Q () (s.setPage p pg) :=
  Iff.rfl

theorem wp_memset {p : Nat} {b : UInt8} : wp E (memset p b) Q s ↔ Q () (s.setPage p fun _ => b) :=
  Iff.rfl

theorem wp_loadPte {p i : Nat} {Q : Pte → Vm → Prop} :
    wp E (loadPte p i) Q s ↔ Q ((s.mem p).pte i) s :=
  Iff.rfl

theorem wp_storePte {p i : Nat} {pte : Pte} :
    wp E (storePte p i pte) Q s ↔
      Q () (s.setPage p ((s.mem p).setPte i pte)) :=
  Iff.rfl

end Steps

/-! ### Pools -/

/-- The pages of `F` are free, tables or data; `c` is what lies in all pages but the free ones and
the tables. -/
structure Pool (F : Set Nat) (s : Vm) (T X : Set Nat) (c : Nat → Page) : Prop where
  nodup : s.free.Nodup
  cover : ∀ p, p ∈ F ↔ p ∈ s.free ∨ p ∈ T ∨ p ∈ X
  free_table : ∀ p ∈ s.free, p ∉ T
  free_data : ∀ p ∈ s.free, p ∉ X
  table_data : ∀ p ∈ T, p ∉ X
  rest : ∀ p, p ∉ s.free → p ∉ T → s.mem p = c p
  range : ∀ p ∈ F, s.base ≤ p ∧ p * PGSIZE < PHYSTOP
  base : KERNBASE < s.base * PGSIZE

namespace Pool

variable {F T X : Set Nat} {s : Vm} {c c' : Nat → Page} {p : Nat}

variable (h : Pool F s T X c)

include h

theorem mem_table (hp : p ∈ T) : p ∈ F := (h.cover p).mpr (.inr (.inl hp))

theorem mem_data (hp : p ∈ X) : p ∈ F := (h.cover p).mpr (.inr (.inr hp))

theorem table_free (hp : p ∈ T) : p ∉ s.free := fun hf => h.free_table p hf hp

theorem data_free (hp : p ∈ X) : p ∉ s.free := fun hf => h.free_data p hf hp

theorem data_table (hp : p ∈ X) : p ∉ T := fun ht => h.table_data p ht hp

theorem data (hp : p ∈ X) : s.mem p = c p :=
  h.rest p (h.data_free hp) (h.data_table hp)

theorem outside (hp : p ∉ F) : s.mem p = c p :=
  h.rest p (fun hf => hp ((h.cover p).mpr (.inl hf))) fun ht => hp (h.mem_table ht)

theorem pa_lt (hp : p ∈ F) : p < 2 ^ 54 := by
  have hlt := (h.range p hp).2
  unfold PGSIZE PHYSTOP KERNBASE at hlt
  omega

theorem congr (hc : ∀ p, p ∉ s.free → p ∉ T → c' p = c p) : Pool F s T X c' :=
  { h with rest := fun p hf ht => (h.rest p hf ht).trans (hc p hf ht).symm }

theorem write_table (hp : p ∈ T) (pg : Page) : Pool F (s.setPage p pg) T X c :=
  { h with
    rest := fun q hf ht => by
      have hq : q ≠ p := fun heq => ht (heq ▸ hp)
      rw [s.setPage_mem_ne hq]
      exact h.rest q hf ht }

theorem write_data (p : Nat) (pg : Page) :
    Pool F (s.setPage p pg) T X (update c p pg) :=
  { h with
    rest := fun q hf ht => by
      by_cases hq : q = p
      · rw [hq, Vm.setPage_mem_self, update_self]
      · rw [s.setPage_mem_ne hq, update_of_ne hq]
        exact h.rest q hf ht }

omit h

theorem table (h : Pool F s T (insert p X) c) (hX : p ∉ X) (hc : ∀ q, q ≠ p → c q = c' q) :
    Pool F s (insert p T) X c' where
  __ := h
  cover q := by
    rw [h.cover q, Set.mem_insert_iff, Set.mem_insert_iff]
    tauto
  free_table q hq := by
    rintro (rfl | ht)
    · exact h.free_data q hq (Set.mem_insert ..)
    · exact h.free_table q hq ht
  free_data q hq hx := h.free_data q hq (Set.mem_insert_of_mem _ hx)
  table_data q := by
    rintro (rfl | ht)
    · exact hX
    · exact fun hx => h.table_data q ht (Set.mem_insert_of_mem _ hx)
  rest q hf ht := by
    rw [← hc q fun heq => ht (heq ▸ Set.mem_insert ..)]
    exact h.rest q hf fun ht' => ht (Set.mem_insert_of_mem _ ht')

theorem untable (h : Pool F s T X c) : Pool F s ∅ (T ∪ X) s.mem where
  __ := h
  cover q := by
    rw [h.cover q, Set.mem_union]
    exact or_congr_right (or_iff_right (Set.notMem_empty q)).symm
  free_table _ _ := Set.notMem_empty _
  free_data q hq := by
    rintro (ht | hx)
    · exact h.free_table q hq ht
    · exact h.free_data q hq hx
  table_data _ ht := absurd ht (Set.notMem_empty _)
  rest _ _ _ := rfl

end Pool

section Kalloc

variable {F T X : Set Nat} {s : Vm} {c : Nat → Page} {p : Nat} {E : VmPanic → Prop}

/-- `kalloc` takes a page that was free, if there is one. -/
theorem kalloc_spec (h : Pool F s T X c) :
    wp E kalloc (fun r s' => match r with
      | none => s' = s ∧ s.free = []
      | some p => p ∈ F ∧ p ∉ T ∧ p ∉ X ∧ s.free = p :: s'.free ∧
          (∀ q, q ≠ p → s'.mem q = s.mem q) ∧
          Pool F s' T (insert p X) (update c p fun _ => 5)) s := by
  rw [kalloc, wp_bind, wp_get]
  cases hfree : s.free with
  | nil => exact ⟨rfl, rfl⟩
  | cons p rest =>
    have hp : p ∈ s.free := hfree ▸ mem_cons_self ..
    have hnodup := h.nodup
    rw [hfree, nodup_cons] at hnodup
    have hrest : ∀ q ∈ rest, q ∈ s.free := fun q hq => hfree ▸ mem_cons_of_mem _ hq
    refine ⟨(h.cover p).mpr (.inl hp), h.free_table p hp, h.free_data p hp, rfl,
      fun q hq => update_of_ne hq .., ?_⟩
    -- the page goes from the free ones to the data, and is filled with junk
    exact {
      nodup := hnodup.2
      cover := fun q => by
        rw [h.cover q, hfree, mem_cons, Set.mem_insert_iff]
        tauto
      free_table := fun q hq => h.free_table q (hrest q hq)
      free_data := by
        rintro q hq (rfl | hx)
        · exact hnodup.1 hq
        · exact h.free_data q (hrest q hq) hx
      table_data := by
        rintro q ht (rfl | hx)
        · exact h.free_table q hp ht
        · exact h.table_data q ht hx
      rest := fun q hf ht => by
        show update s.mem p _ q = update c p _ q
        by_cases hq : q = p
        · rw [hq, update_self, update_self]
        · rw [update_of_ne hq, update_of_ne hq]
          refine h.rest q (fun hq' => ?_) ht
          rw [hfree, mem_cons] at hq'
          exact hq'.elim hq hf
      range := h.range
      base := h.base }

theorem kfree_spec (h : Pool F s T X c) (hp : p ∈ X) :
    wp E (kfree p) (fun _ s' => s'.free = p :: s.free ∧ (∀ q, q ≠ p → s'.mem q = s.mem q) ∧
      Pool F s' T (X \ {p}) c) s := by
  have hrange := h.range p (h.mem_data hp)
  unfold kfree
  show wp E (if p < s.base ∨ PHYSTOP ≤ p * PGSIZE then _ else _) _ s
  rw [if_neg (by omega)]
  refine ⟨rfl, fun q hq => update_of_ne hq .., ?_⟩
  exact {
    nodup := nodup_cons.mpr ⟨h.data_free hp, h.nodup⟩
    cover := fun q => by
      show _ ↔ q ∈ p :: s.free ∨ q ∈ T ∨ q ∈ X \ {p}
      rw [h.cover q, mem_cons, Set.mem_sdiff, Set.mem_singleton_iff]
      by_cases hq : q = p
      · simp [hq, hp]
      · simp [hq]
    free_table := fun q hq => by
      rcases mem_cons.mp hq with rfl | hq
      · exact h.data_table hp
      · exact h.free_table q hq
    free_data := fun q hq hx => by
      rcases mem_cons.mp hq with rfl | hq
      · exact hx.2 rfl
      · exact h.free_data q hq hx.1
    table_data := fun q ht hx => h.table_data q ht hx.1
    rest := fun q hf ht => by
      have hq : q ≠ p ∧ q ∉ s.free := not_or.mp (mt mem_cons.mpr hf)
      show update s.mem p _ q = c q
      rw [update_of_ne hq.1]
      exact h.rest q hq.2 ht
    range := h.range
    base := h.base }

end Kalloc

end Xv6
