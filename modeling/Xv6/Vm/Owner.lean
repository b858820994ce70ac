import Xv6.Vm.Copy

/-!
# Pages that change hands

A pool is what a call works on: the free pages, and those of one address space. These lemmas go
from one pool to another: what a call leaves alone stays an address space in the pool that the
free pages form after the call.
-/

namespace Xv6

open Prog Radix

/-- The pages of an address space: its tables and its user memory. -/
def owned (t : Shape Pte) (n : Nat) : Set Nat := {p | t.Pages p} ∪ rangePages t.leaf 0 n

def Vm.frees (s : Vm) : Set Nat := {p | p ∈ s.free}

section Pools

variable {F T X : Set Nat} {s s' : Vm} {root n : Nat} {t : Shape Pte} {c : Nat → Page} {p : Nat}

theorem Pool.frees (h : Pool F s T X c) : Pool s.frees s ∅ ∅ s.mem where
  __ := h
  cover q := by
    show q ∈ s.free ↔ _
    simp
  free_table _ _ := Set.notMem_empty _
  free_data _ _ := Set.notMem_empty _
  table_data _ ht := absurd ht (Set.notMem_empty _)
  rest _ _ _ := rfl
  range q hq := h.range q ((h.cover q).mpr (.inl hq))

theorem Pool.frees_eq (h : Pool F s ∅ ∅ c) : s.frees = F := by
  ext q
  rw [h.cover q]
  simp [Vm.frees]

theorem Pool.perm (h : Pool F s T X c) {c' : Nat → Page} (h' : Pool s.frees s' ∅ ∅ c') :
    s'.free.Perm s.free := by
  rw [List.perm_ext_iff_of_nodup h'.nodup h.nodup]
  intro q
  exact Set.ext_iff.mp h'.frees_eq q

end Pools

namespace Space

variable {F : Set Nat} {s s' : Vm} {root n : Nat} {t : Shape Pte} {c : Nat → Page} {p : Nat}

variable (h : Space F s root n t c)

include h

theorem pool_eq : F = s.frees ∪ owned t n := by
  ext q
  rw [h.cover q]
  exact Iff.rfl

theorem owned_free (hp : p ∈ owned t n) : p ∉ s.free := by
  rcases hp with ht | hx
  · exact h.table_free ht
  · exact h.data_free hx

theorem owned_mem (hp : p ∈ owned t n) : p ∈ F := by
  rw [h.pool_eq]
  exact .inr hp

/-- An address space nobody has written to stays one, whatever has become of the free pages. -/
theorem move (hmem : ∀ p ∈ owned t n, s'.mem p = s.mem p) {G : Set Nat} {T X : Set Nat}
    {c' : Nat → Page} (h' : Pool G s' T X c') (hout : ∀ p ∈ owned t n, p ∉ s'.free)
    (hbase : s'.base = s.base) : Space (s'.frees ∪ owned t n) s' root n t s'.mem := by
  refine h.of_leaf ⟨⟨h'.nodup, fun q => Iff.rfl, fun q hq ht => hout q (.inl ht) hq,
    fun q hq hx => hout q (.inr hx) hq, h.table_data, fun _ _ _ => rfl, ?_, h'.base⟩,
    h.realises.frame fun q hq => hmem q (.inl hq)⟩ rfl
  rintro q (hq | hq)
  · exact h'.range q ((h'.cover q).mpr (.inl hq))
  · rw [hbase]
    exact h.range q (h.owned_mem hq)

theorem disjoint {G T X : Set Nat} {c' : Nat → Page} (h' : Pool G s' T X c')
    (hc : ∀ p, p ∉ G → c' p = s.mem p) (hG : ∀ p ∈ owned t n, p ∉ G) (hbase : s'.base = s.base) :
    Space (s'.frees ∪ owned t n) s' root n t s'.mem :=
  h.move (fun q hq => by rw [h'.outside (hG q hq), hc q (hG q hq)]) h'
    (fun q hq hf => hG q hq ((h'.cover q).mpr (.inl hf))) hbase

/-- The same when pages have been taken off the free list and only free pages written to. -/
theorem taken (hmem : ∀ p, p ∉ s.free → s'.mem p = s.mem p) (hnodup : s'.free.Nodup)
    (hfree : ∀ p ∈ s'.free, p ∈ s.free) (hbase : s'.base = s.base) :
    Space (s'.frees ∪ owned t n) s' root n t s'.mem := by
  have hpool : Pool s'.frees s' ∅ ∅ s'.mem :=
    { nodup := hnodup
      cover := fun p => by
        show p ∈ s'.free ↔ _
        simp
      free_table := fun _ _ => Set.notMem_empty _
      free_data := fun _ _ => Set.notMem_empty _
      table_data := fun _ ht => absurd ht (Set.notMem_empty _)
      rest := fun _ _ _ => rfl
      range := fun p hp => by
        rw [hbase]
        exact h.range p ((h.cover p).mpr (.inl (hfree p hp)))
      base := by
        rw [hbase]
        exact h.base }
  exact h.move (fun p hp => hmem p (h.owned_free hp)) hpool
    (fun p hp hf => h.owned_free hp (hfree p hf)) hbase

theorem undone (hmem : ∀ p, p ∉ s.free → s'.mem p = s.mem p) (hperm : s'.free.Perm s.free)
    (hbase : s'.base = s.base) : Space F s' root n t s'.mem := by
  have hF : s'.frees ∪ owned t n = F := by
    rw [h.pool_eq]
    congr 1
    ext p
    exact hperm.mem_iff
  rw [← hF]
  exact h.taken hmem (hperm.nodup_iff.mpr h.nodup) (fun p hp => hperm.mem_iff.mp hp) hbase

end Space

end Xv6
