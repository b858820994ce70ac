import Xv6.Vm.Space

/-!
# Copying to and from user memory

`copyout`, `copyin` and `copyinstr` cut the range at page boundaries and look every page up. Seen
from the address space they store and load consecutive bytes up to the first address that the user
may not use (`Reach`).
-/

namespace Xv6

open Prog Radix List

def userByte (t : Shape Pte) (mem : Nat → Page) (a : Nat) : UInt8 :=
  mem (t.leaf (a / PGSIZE)).pa (a % PGSIZE)

def Reach (t : Shape Pte) (a : Nat) : Prop :=
  a < MAXVA ∧ (t.leaf (a / PGSIZE)).V = true ∧ (t.leaf (a / PGSIZE)).U = true

/-- `m` bytes of `src` have been stored at `dstva` in user memory, and nothing else has changed. -/
structure Stored (t : Shape Pte) (n : Nat) (s s' : Vm) (dstva : Nat) (src : Nat → UInt8) (m : Nat) :
    Prop where
  byte : ∀ a, a / PGSIZE < n → userByte t s'.mem a
    = if dstva ≤ a ∧ a < dstva + m then src (a - dstva) else userByte t s.mem a
  rest : ∀ p, p ∉ rangePages t.leaf 0 n → s'.mem p = s.mem p
  free : s'.free = s.free
  base : s'.base = s.base

section Pages

variable {F : Set Nat} {s s' : Vm} {root n : Nat} {t : Shape Pte} {c : Nat → Page}
  {E : VmPanic → Prop}

theorem Stored.nothing (dstva : Nat) (src : Nat → UInt8) : Stored t n s s dstva src 0 where
  byte a _ := (if_neg (by omega)).symm
  rest _ _ := rfl
  free := rfl
  base := rfl

theorem stored_append (dstva m k a : Nat) (src : Nat → UInt8) (old : UInt8) :
    (if dstva + m ≤ a ∧ a < dstva + m + k then src (m + (a - (dstva + m)))
      else if dstva ≤ a ∧ a < dstva + m then src (a - dstva) else old)
      = if dstva ≤ a ∧ a < dstva + (m + k) then src (a - dstva) else old := by
  by_cases hlow : a < dstva + m
  · rw [if_neg (by omega)]
    exact if_congr (by omega) rfl rfl
  · by_cases hin : a < dstva + m + k
    · have hsub : m + (a - (dstva + m)) = a - dstva := by omega
      rw [if_pos (by omega), if_pos (by omega), hsub]
    · rw [if_neg (by omega), if_neg (by omega), if_neg (by omega)]

variable {src : Nat → UInt8} {m dstva : Nat}

theorem Stored.append {s1 s2 : Vm} {k : Nat} (h : Stored t n s s1 dstva src m)
    (h' : Stored t n s1 s2 (dstva + m) (fun j => src (m + j)) k) :
    Stored t n s s2 dstva src (m + k) where
  byte a ha := by rw [h'.byte a ha, h.byte a ha, stored_append]
  rest p hp := (h'.rest p hp).trans (h.rest p hp)
  free := h'.free.trans h.free
  base := h'.base.trans h.base

theorem Space.self (h : Space F s root n t c) : Space F s root n t s.mem :=
  h.of_leaf ⟨h.toPool.congr fun p hf ht => h.rest p hf ht, h.realises⟩ rfl

theorem Space.reach_lt (h : Space F s root n t c) {a : Nat} (ha : Reach t a) : a / PGSIZE < n := by
  obtain ⟨-, hV, hU⟩ := ha
  by_contra hge
  by_cases htr : a / PGSIZE = TRAMPOLINE / PGSIZE
  · rw [htr, h.kernel.1] at hU
    cases hU
  · by_cases htf : a / PGSIZE = TRAPFRAME / PGSIZE
    · rw [htf, h.kernel.2] at hU
      cases hU
    · rw [h.other _ (by omega) htr htf, Pte.V_zero] at hV
      cases hV

theorem Space.reach_of_flags (h : Space F s root n t c) {a : Nat} (ha : a / PGSIZE < n)
    (hflags : (t.leaf (a / PGSIZE)).flags = userFlags) : Reach t a := by
  have hlt := h.lt
  refine ⟨?_, ?_, ?_⟩
  · rw [Nat.div_lt_iff_lt_mul PGSIZE_pos] at ha
    unfold PGSIZE at ha
    unfold MAXVA
    omega
  · unfold Pte.V
    rw [hflags]
    decide
  · unfold Pte.U
    rw [hflags]
    decide

theorem reach_congr {a b : Nat} (h : a / PGSIZE = b / PGSIZE) : Reach t a ↔ Reach t b := by
  have hmax : ∀ x, x < MAXVA ↔ x / PGSIZE < NVPAGE := fun x => by
    rw [Nat.div_lt_iff_lt_mul PGSIZE_pos]
    exact Iff.rfl
  unfold Reach
  rw [hmax a, hmax b, h]

/-- A page table whose user pages are pages of memory, each mapped once and none of them a table. -/
structure UserTable (s : Vm) (root : Nat) (t : Shape Pte) : Prop where
  realises : Realises ptFormat 2 s.mem root t
  memory : ∀ a, Reach t a → (t.leaf (a / PGSIZE)).pa ≠ 0
  inj : ∀ a b, Reach t a → Reach t b → (t.leaf (a / PGSIZE)).pa = (t.leaf (b / PGSIZE)).pa →
    a / PGSIZE = b / PGSIZE
  apart : ∀ a, Reach t a → ¬ t.Pages (t.leaf (a / PGSIZE)).pa

theorem Space.userTable (h : Space F s root n t c) : UserTable s root t where
  realises := h.realises
  memory a ha hzero := by
    have hrange := h.range _ (h.mem_data (mem_user (h.reach_lt ha)))
    have hbase := h.base
    rw [hzero, Nat.le_zero] at hrange
    rw [hrange.1, Nat.zero_mul] at hbase
    exact absurd hbase (Nat.not_lt_zero _)
  inj a b ha hb heq := by
    by_contra hne
    rcases Nat.lt_or_gt_of_ne hne with hlt | hlt
    · exact h.inj _ _ hlt (h.reach_lt hb) heq
    · exact h.inj _ _ hlt (h.reach_lt ha) heq.symm
  apart a ha := h.data_table (mem_user (h.reach_lt ha))

theorem walkaddr_user (h : UserTable s root t) (va : Nat) :
    wp E (walkaddr root va) (fun r s' => s' = s ∧
      (Reach t va ∧ r = (t.leaf (va / PGSIZE)).pa ∧ r ≠ 0 ∨ ¬ Reach t va ∧ r = 0)) s := by
  refine (walkaddr_spec h.realises va).call ?_
  rintro r s' ⟨rfl, rfl⟩
  refine ⟨rfl, ?_⟩
  by_cases hreach : Reach t va
  · refine .inl ⟨hreach, if_pos hreach, ?_⟩
    rw [if_pos (show _ ∧ _ ∧ _ from hreach)]
    exact h.memory va hreach
  · exact .inr ⟨hreach, if_neg hreach⟩

/-- `m` bytes of `src` have been stored at `dstva`, through the pages that the user may use. -/
structure UserStored (t : Shape Pte) (s s' : Vm) (dstva : Nat) (src : Nat → UInt8) (m : Nat) :
    Prop where
  byte : ∀ a, Reach t a → userByte t s'.mem a
    = if dstva ≤ a ∧ a < dstva + m then src (a - dstva) else userByte t s.mem a
  rest : ∀ p, (∀ a, Reach t a → (t.leaf (a / PGSIZE)).pa ≠ p) → s'.mem p = s.mem p
  free : s'.free = s.free
  base : s'.base = s.base

theorem UserStored.nothing (dstva : Nat) (src : Nat → UInt8) : UserStored t s s dstva src 0 where
  byte a _ := (if_neg (by omega)).symm
  rest _ _ := rfl
  free := rfl
  base := rfl

theorem UserStored.append {s1 s2 : Vm} {k : Nat} (h : UserStored t s s1 dstva src m)
    (h' : UserStored t s1 s2 (dstva + m) (fun j => src (m + j)) k) :
    UserStored t s s2 dstva src (m + k) where
  byte a ha := by rw [h'.byte a ha, h.byte a ha, stored_append]
  rest p hp := (h'.rest p hp).trans (h.rest p hp)
  free := h'.free.trans h.free
  base := h'.base.trans h.base

theorem UserStored.userTable (hw : UserStored t s s' dstva src m) (h : UserTable s root t) :
    UserTable s' root t :=
  { h with
    realises := h.realises.frame fun p hp => hw.rest p fun a ha heq => h.apart a ha (heq ▸ hp) }

theorem UserTable.store (h : UserTable s root t) (hreach : Reach t dstva)
    (hm : dstva % PGSIZE + m ≤ PGSIZE) (src : Nat → UInt8)
    (hs' : s' = s.setPage (t.leaf (dstva / PGSIZE)).pa
      (Bytes.blit (s.mem (t.leaf (dstva / PGSIZE)).pa) (dstva % PGSIZE) m src)) :
    UserStored t s s' dstva src m := by
  subst hs'
  refine ⟨fun a ha => ?_, fun p hp => s.setPage_mem_ne (hp dstva hreach).symm _, rfl, rfl⟩
  have hdst := Nat.div_add_mod' dstva PGSIZE
  have hdiv := Nat.div_add_mod' a PGSIZE
  have hmod := Nat.mod_lt a PGSIZE_pos
  unfold userByte
  by_cases hpage : a / PGSIZE = dstva / PGSIZE
  · rw [hpage, Vm.setPage_mem_self]
    rw [hpage] at hdiv
    by_cases hin : dstva ≤ a ∧ a < dstva + m
    · have hsub : a % PGSIZE - dstva % PGSIZE = a - dstva := by omega
      rw [if_pos hin, Bytes.blit_of_mem (by omega), hsub]
    · rw [if_neg hin, Bytes.blit_of_notMem (by omega)]
  · have hne : (t.leaf (a / PGSIZE)).pa ≠ (t.leaf (dstva / PGSIZE)).pa := fun heq =>
      hpage (h.inj a dstva ha hreach heq)
    rw [s.setPage_mem_ne hne, if_neg]
    -- the range lies in one page, and `a` in another
    rintro ⟨hlo, hhi⟩
    apply hpage
    refine le_antisymm ?_ (Nat.div_le_div_right hlo)
    have hlt : a < (dstva / PGSIZE + 1) * PGSIZE := by
      rw [Nat.add_one_mul]
      omega
    exact Nat.lt_succ_iff.mp (Nat.div_lt_of_lt_mul (by rwa [Nat.mul_comm] at hlt))

theorem Space.wrote (h : Space F s root n t c) (hw : UserStored t s s' dstva src m)
    (hreach : ∀ j, j < m → Reach t (dstva + j)) :
    Space F s' root n t s'.mem ∧ Stored t n s s' dstva src m := by
  have hrest : ∀ p, p ∉ rangePages t.leaf 0 n → s'.mem p = s.mem p := fun p hp =>
    hw.rest p fun a ha heq => hp (heq ▸ mem_user (h.reach_lt ha))
  have hpool : Pool F s' {p | t.Pages p} (rangePages t.leaf 0 n) s'.mem :=
    { nodup := by rw [hw.free]; exact h.nodup
      cover := by rw [hw.free]; exact h.cover
      free_table := by rw [hw.free]; exact h.free_table
      free_data := by rw [hw.free]; exact h.free_data
      table_data := h.table_data
      rest := fun _ _ _ => rfl
      range := by rw [hw.base]; exact h.range
      base := by rw [hw.base]; exact h.base }
  refine ⟨h.of_leaf ⟨hpool, (hw.userTable h.userTable).realises⟩ rfl, ⟨fun a ha => ?_, hrest, hw.free,
    hw.base⟩⟩
  by_cases hra : Reach t a
  · exact hw.byte a hra
  · -- a page that the user may not use
    have hin : ¬ (dstva ≤ a ∧ a < dstva + m) := fun hin => by
      have := hreach (a - dstva) (by omega)
      rw [Nat.add_sub_cancel' hin.1] at this
      exact hra this
    rw [if_neg hin]
    unfold userByte
    rw [hw.rest _ fun b hb heq => hra ?_]
    have hpage : b / PGSIZE = a / PGSIZE := by
      by_contra hne
      rcases Nat.lt_or_gt_of_ne hne with hlt | hlt
      · exact h.inj _ _ hlt ha heq
      · exact h.inj _ _ hlt (h.reach_lt hb) heq.symm
    exact (reach_congr hpage).mp hb

theorem pgrounddown_div (a : Nat) : PGROUNDDOWN a / PGSIZE = a / PGSIZE :=
  Nat.mul_div_cancel _ PGSIZE_pos

theorem sub_pgrounddown (a : Nat) : a - PGROUNDDOWN a = a % PGSIZE := by
  have := Nat.div_add_mod' a PGSIZE
  unfold PGROUNDDOWN
  omega

theorem chunk_div {a j : Nat} (h : a % PGSIZE + j < PGSIZE) :
    (a + j) / PGSIZE = a / PGSIZE ∧ (a + j) % PGSIZE = a % PGSIZE + j := by
  unfold PGSIZE at *
  omega

theorem reach_chunk {a : Nat} (h : Reach t a) (hm : a % PGSIZE + m ≤ PGSIZE) {j : Nat}
    (hj : j < m) : Reach t (a + j) :=
  (reach_congr (chunk_div (by omega)).1).mpr h

theorem next_page {a : Nat} (h : Reach t a) :
    (PGROUNDDOWN a + PGSIZE) % 2 ^ 64 = a + (PGSIZE - a % PGSIZE) := by
  have hle : PGROUNDDOWN a ≤ a := Nat.div_mul_le_self a PGSIZE
  have hlt := h.1
  have hroom : MAXVA + PGSIZE < 2 ^ 64 := by decide
  have hsub := sub_pgrounddown a
  have hoff := Nat.mod_lt a PGSIZE_pos
  rw [Nat.mod_eq_of_lt (by omega)]
  omega

theorem forall_lt_add {P : Nat → Prop} {a k : Nat} (h : ∀ j, j < m → P (a + j))
    (h' : ∀ j, j < k → P (a + m + j)) (j : Nat) (hj : j < m + k) : P (a + j) := by
  by_cases hlow : j < m
  · exact h j hlow
  · have hhigh := h' (j - m) (by omega)
    rwa [Nat.add_assoc, Nat.add_sub_cancel' (by omega)] at hhigh

end Pages

section Copyout

variable {F : Set Nat} {s : Vm} {root n : Nat} {t : Shape Pte} {c : Nat → Page} {E : VmPanic → Prop}

/-- What a copy of `len` bytes to `dstva` does: all bytes, or those before the first that the user
may not use. -/
def UserCopyout (t : Shape Pte) (s : Vm) (dstva : Nat) (src : Nat → UInt8) (len : Nat) (r : Int)
    (s' : Vm) : Prop :=
  ∃ m, UserStored t s s' dstva src m ∧ (∀ j, j < m → Reach t (dstva + j)) ∧
    (r = 0 ∧ m = len ∨ r = -1 ∧ m < len ∧ ¬ Reach t (dstva + m))

def Copyout (F : Set Nat) (root n : Nat) (t : Shape Pte) (s : Vm) (dstva : Nat) (src : Nat → UInt8)
    (len : Nat) (r : Int) (s' : Vm) : Prop :=
  ∃ m, Space F s' root n t s'.mem ∧ Stored t n s s' dstva src m ∧ (∀ j, j < m → Reach t (dstva + j)) ∧
    (r = 0 ∧ m = len ∨ r = -1 ∧ m < len ∧ ¬ Reach t (dstva + m))

theorem copyoutFrom_zero (src : Nat → UInt8) (fuel dstva done : Nat) {Q : Int → Vm → Prop}
    (h : Q 0 s) : wp E (copyoutFrom root src fuel dstva done 0) Q s := by
  cases fuel with
  | zero => exact h
  | succ fuel =>
    unfold copyoutFrom
    rw [if_neg (by omega), wp_pure]
    exact h

theorem copyoutFrom_spec (h : UserTable s root t) (src : Nat → UInt8) {fuel dstva done len : Nat}
    (hfuel : len ≤ fuel) :
    wp E (copyoutFrom root src fuel dstva done len)
      (UserCopyout t s dstva (fun j => src (done + j)) len) s := by
  have hnone : ∀ {s : Vm} (dstva : Nat) (src : Nat → UInt8), UserCopyout t s dstva src 0 0 s :=
    fun dstva src => ⟨0, .nothing .., fun j hj => by omega, .inl ⟨rfl, rfl⟩⟩
  induction fuel generalizing s dstva done len with
  | zero =>
    obtain rfl := Nat.le_zero.mp hfuel
    exact copyoutFrom_zero _ _ _ _ (hnone _ _)
  | succ fuel ih =>
    rcases Nat.eq_zero_or_pos len with rfl | hlen
    · exact copyoutFrom_zero _ _ _ _ (hnone _ _)
    unfold copyoutFrom
    rw [if_pos hlen, wp_bind]
    refine (walkaddr_user h _).call ?_
    rintro r s1 ⟨rfl, hr⟩
    rw [reach_congr (pgrounddown_div dstva), pgrounddown_div] at hr
    rcases hr with ⟨hreach, rfl, hne⟩ | ⟨hreach, rfl⟩
    swap
    · rw [if_pos rfl, wp_pure]
      exact ⟨0, .nothing .., fun j hj => by omega, .inr ⟨rfl, hlen, by rwa [Nat.add_zero]⟩⟩
    rw [if_neg hne, wp_bind, wp_loadPage, sub_pgrounddown, wp_bind, wp_storePage, next_page hreach]
    have hoff := Nat.mod_lt dstva PGSIZE_pos
    have hchunk : dstva % PGSIZE + min (PGSIZE - dstva % PGSIZE) len ≤ PGSIZE := by omega
    have hwrote := h.store hreach hchunk (fun j => src (done + j)) rfl
    have hreach' : ∀ j, j < min (PGSIZE - dstva % PGSIZE) len → Reach t (dstva + j) := fun j hj =>
      reach_chunk hreach hchunk hj
    by_cases hfits : len ≤ PGSIZE - dstva % PGSIZE
    · -- the last page
      rw [min_eq_right hfits] at hwrote hreach' ⊢
      rw [Nat.sub_self]
      exact copyoutFrom_zero _ _ _ _ ⟨len, hwrote, hreach', .inl ⟨rfl, rfl⟩⟩
    · rw [min_eq_left (by omega)] at hwrote hreach' ⊢
      refine (ih (hwrote.userTable h) (by omega)).call ?_
      rintro r s2 ⟨m, hwrote2, hreach2, hr⟩
      refine ⟨PGSIZE - dstva % PGSIZE + m, hwrote.append ?_, forall_lt_add hreach' hreach2, ?_⟩
      · simpa only [Nat.add_assoc] using hwrote2
      · rcases hr with ⟨rfl, rfl⟩ | ⟨rfl, hm, hno⟩
        · exact .inl ⟨rfl, by omega⟩
        · exact .inr ⟨rfl, by omega, by rwa [← Nat.add_assoc]⟩

theorem copyout_user (h : UserTable s root t) (dstva : Nat) (src : Nat → UInt8) (len : Nat) :
    wp E (copyout root dstva src len) (UserCopyout t s dstva src len) s := by
  have hspec : wp E (copyoutFrom root src len dstva 0 len)
      (UserCopyout t s dstva (fun j => src (0 + j)) len) s := copyoutFrom_spec h src le_rfl
  simp only [Nat.zero_add] at hspec
  exact hspec

theorem copyout_spec (h : Space F s root n t c) (dstva : Nat) (src : Nat → UInt8) (len : Nat) :
    wp E (copyout root dstva src len) (Copyout F root n t s dstva src len) s := by
  refine (copyout_user h.userTable dstva src len).call ?_
  rintro r s' ⟨m, hwrote, hreach, hres⟩
  obtain ⟨hspace, hstored⟩ := h.wrote hwrote hreach
  exact ⟨m, hspace, hstored, hreach, hres⟩

end Copyout

section Copyin

variable {F : Set Nat} {s : Vm} {root n : Nat} {t : Shape Pte} {c : Nat → Page} {E : VmPanic → Prop}

/-- The `m` bytes of user memory from `srcva` on. -/
def userBytes (t : Shape Pte) (mem : Nat → Page) (srcva m : Nat) : List UInt8 :=
  (List.range m).map fun j => userByte t mem (srcva + j)

theorem userBytes_add (mem : Nat → Page) (srcva m k : Nat) :
    userBytes t mem srcva (m + k) = userBytes t mem srcva m ++ userBytes t mem (srcva + m) k := by
  unfold userBytes
  rw [range_add, map_append, map_map]
  congr 1
  exact map_congr_left fun j _ => by rw [Function.comp, Nat.add_assoc]

theorem userByte_chunk (mem : Nat → Page) {a m : Nat} (hm : a % PGSIZE + m ≤ PGSIZE) {j : Nat}
    (hj : j < m) : userByte t mem (a + j) = mem (t.leaf (a / PGSIZE)).pa (a % PGSIZE + j) := by
  obtain ⟨hpage, hoff⟩ := chunk_div (a := a) (j := j) (by omega)
  unfold userByte
  rw [hpage, hoff]

/-- What a copy of `len` bytes from `srcva` gives. -/
def Copyin (t : Shape Pte) (s : Vm) (srcva len : Nat) (acc : List UInt8) (r : Int × List UInt8)
    (s' : Vm) : Prop :=
  s' = s ∧ ∃ m, r.2 = acc ++ userBytes t s.mem srcva m ∧ (∀ j, j < m → Reach t (srcva + j)) ∧
    (r.1 = 0 ∧ m = len ∨ r.1 = -1 ∧ m < len ∧ ¬ Reach t (srcva + m))

theorem copyinFrom_zero (fuel srcva : Nat) (acc : List UInt8) {Q : Int × List UInt8 → Vm → Prop}
    (h : Q (0, acc) s) : wp E (copyinFrom root fuel srcva 0 acc) Q s := by
  cases fuel with
  | zero => exact h
  | succ fuel =>
    unfold copyinFrom
    rw [if_neg (by omega), wp_pure]
    exact h

theorem copyinFrom_spec (h : UserTable s root t) {fuel srcva len : Nat} (acc : List UInt8)
    (hfuel : len ≤ fuel) :
    wp E (copyinFrom root fuel srcva len acc) (Copyin t s srcva len acc) s := by
  have hnone : ∀ srcva acc, Copyin t s srcva 0 acc (0, acc) s := fun srcva acc =>
    ⟨rfl, 0, (append_nil acc).symm, fun j hj => by omega, .inl ⟨rfl, rfl⟩⟩
  induction fuel generalizing srcva len acc with
  | zero =>
    obtain rfl := Nat.le_zero.mp hfuel
    exact copyinFrom_zero _ _ _ (hnone ..)
  | succ fuel ih =>
    rcases Nat.eq_zero_or_pos len with rfl | hlen
    · exact copyinFrom_zero _ _ _ (hnone ..)
    unfold copyinFrom
    rw [if_pos hlen, wp_bind]
    refine (walkaddr_user h _).call ?_
    rintro r s1 ⟨rfl, hr⟩
    rw [reach_congr (pgrounddown_div srcva), pgrounddown_div] at hr
    rcases hr with ⟨hreach, rfl, hne⟩ | ⟨hreach, rfl⟩
    swap
    · rw [if_pos rfl, wp_pure]
      exact ⟨rfl, 0, (append_nil acc).symm, fun j hj => by omega,
        .inr ⟨rfl, hlen, by rwa [Nat.add_zero]⟩⟩
    rw [if_neg hne, wp_bind, wp_loadPage, sub_pgrounddown, next_page hreach]
    have hoff := Nat.mod_lt srcva PGSIZE_pos
    -- one round copies up to the end of the page of `srcva`
    have hchunk : srcva % PGSIZE + min (PGSIZE - srcva % PGSIZE) len ≤ PGSIZE := by omega
    have hbytes : ((List.range (min (PGSIZE - srcva % PGSIZE) len)).map fun j =>
        s1.mem (t.leaf (srcva / PGSIZE)).pa (srcva % PGSIZE + j))
        = userBytes t s1.mem srcva (min (PGSIZE - srcva % PGSIZE) len) :=
      map_congr_left fun j hj => (userByte_chunk _ hchunk (mem_range.mp hj)).symm
    have hreach' : ∀ j, j < min (PGSIZE - srcva % PGSIZE) len → Reach t (srcva + j) := fun j hj =>
      reach_chunk hreach hchunk hj
    rw [hbytes]
    by_cases hfits : len ≤ PGSIZE - srcva % PGSIZE
    · rw [min_eq_right hfits] at hreach' ⊢
      rw [Nat.sub_self]
      exact copyinFrom_zero _ _ _ ⟨rfl, len, rfl, hreach', .inl ⟨rfl, rfl⟩⟩
    · rw [min_eq_left (by omega)] at hreach' ⊢
      refine (ih _ (by omega)).call ?_
      rintro r s2 ⟨rfl, m, hr2, hreach2, hr⟩
      refine ⟨rfl, PGSIZE - srcva % PGSIZE + m, ?_, forall_lt_add hreach' hreach2, ?_⟩
      · rw [hr2, userBytes_add, append_assoc]
      · rcases hr with ⟨hr, rfl⟩ | ⟨hr, hm, hno⟩
        · exact .inl ⟨hr, by omega⟩
        · exact .inr ⟨hr, by omega, by rwa [← Nat.add_assoc]⟩

theorem copyin_user (h : UserTable s root t) (srcva len : Nat) :
    wp E (copyin root srcva len) (Copyin t s srcva len []) s :=
  copyinFrom_spec h [] le_rfl

end Copyin

section Copyinstr

variable {F : Set Nat} {s : Vm} {root n : Nat} {t : Shape Pte} {c : Nat → Page} {E : VmPanic → Prop}

/-- The inner loop stops after a NUL, or has copied all bytes and there was none. -/
theorem copyinstrPage_spec (pg : Page) (m p : Nat) :
    (∃ k, k < m ∧ pg (p + k) = 0 ∧ (∀ j, j < k → pg (p + j) ≠ 0) ∧
        copyinstrPage pg m p = (true, (List.range (k + 1)).map fun j => pg (p + j))) ∨
      (∀ j, j < m → pg (p + j) ≠ 0) ∧
        copyinstrPage pg m p = (false, (List.range m).map fun j => pg (p + j)) := by
  induction m generalizing p with
  | zero => exact .inr ⟨fun j hj => by omega, rfl⟩
  | succ m ih =>
    unfold copyinstrPage
    -- the byte at `p`, and the rest one further on
    have hshift : ∀ k, (List.range (k + 1)).map (fun j => pg (p + j))
        = pg p :: (List.range k).map fun j => pg (p + 1 + j) := fun k => by
      rw [range_succ_eq_map, map_cons, map_map]
      refine congrArg _ (map_congr_left fun j _ => ?_)
      rw [Function.comp, Nat.add_right_comm, Nat.add_assoc]
    have hcons : ∀ {k}, (∀ j, j < k → pg (p + 1 + j) ≠ 0) → pg p ≠ 0 →
        ∀ j, j < k + 1 → pg (p + j) ≠ 0 := by
      intro k hk hp j hj
      cases j with
      | zero => exact hp
      | succ j =>
        have := hk j (by omega)
        rwa [Nat.add_right_comm, Nat.add_assoc] at this
    by_cases hp : pg p = 0
    · rw [if_pos hp]
      exact .inl ⟨0, by omega, hp, fun j hj => by omega, by rw [hshift, hp]; rfl⟩
    · rw [if_neg hp]
      rcases ih (p + 1) with ⟨k, hk, hzero, hne, heq⟩ | ⟨hne, heq⟩
      · rw [heq]
        refine .inl ⟨k + 1, by omega, ?_, hcons hne hp, by rw [hshift (k + 1)]⟩
        rwa [Nat.add_right_comm, Nat.add_assoc] at hzero
      · rw [heq, hshift m]
        exact .inr ⟨hcons hne hp, rfl⟩

/-- What a copy of a string of at most `max` bytes gives: the string with its NUL, or the bytes
before the first that the user may not use, or `max` bytes without a NUL. -/
def Copyinstr (t : Shape Pte) (s : Vm) (srcva max : Nat) (acc : List UInt8) (r : Int × List UInt8)
    (s' : Vm) : Prop :=
  s' = s ∧ ∃ m, m ≤ max ∧ r.2 = acc ++ userBytes t s.mem srcva m ∧
    (∀ j, j < m → Reach t (srcva + j)) ∧
    (r.1 = 0 ∧ (∃ k, m = k + 1 ∧ userByte t s.mem (srcva + k) = 0 ∧
        ∀ j, j < k → userByte t s.mem (srcva + j) ≠ 0) ∨
      r.1 = -1 ∧ (∀ j, j < m → userByte t s.mem (srcva + j) ≠ 0) ∧
        (m = max ∨ ¬ Reach t (srcva + m)))

theorem copyinstrFrom_zero (fuel srcva : Nat) (acc : List UInt8) {Q : Int × List UInt8 → Vm → Prop}
    (h : Q (-1, acc) s) : wp E (copyinstrFrom root fuel srcva 0 acc) Q s := by
  cases fuel with
  | zero => exact h
  | succ fuel =>
    unfold copyinstrFrom
    rw [if_neg (by omega), wp_pure]
    exact h

theorem copyinstrFrom_spec (h : UserTable s root t) {fuel srcva max : Nat} (acc : List UInt8)
    (hfuel : max ≤ fuel) :
    wp E (copyinstrFrom root fuel srcva max acc) (Copyinstr t s srcva max acc) s := by
  have hnone : ∀ srcva acc, Copyinstr t s srcva 0 acc (-1, acc) s := fun srcva acc =>
    ⟨rfl, 0, le_rfl, (append_nil acc).symm, fun j hj => by omega,
      .inr ⟨rfl, fun j hj => by omega, .inl rfl⟩⟩
  induction fuel generalizing srcva max acc with
  | zero =>
    obtain rfl := Nat.le_zero.mp hfuel
    exact copyinstrFrom_zero _ _ _ (hnone ..)
  | succ fuel ih =>
    rcases Nat.eq_zero_or_pos max with rfl | hmax
    · exact copyinstrFrom_zero _ _ _ (hnone ..)
    unfold copyinstrFrom
    rw [if_pos hmax, wp_bind]
    refine (walkaddr_user h _).call ?_
    rintro r s1 ⟨rfl, hr⟩
    rw [reach_congr (pgrounddown_div srcva), pgrounddown_div] at hr
    rcases hr with ⟨hreach, rfl, hne⟩ | ⟨hreach, rfl⟩
    swap
    · rw [if_pos rfl, wp_pure]
      exact ⟨rfl, 0, Nat.zero_le _, (append_nil acc).symm, fun j hj => by omega,
        .inr ⟨rfl, fun j hj => by omega, .inr (by rwa [Nat.add_zero])⟩⟩
    rw [if_neg hne, wp_bind, wp_loadPage, sub_pgrounddown, next_page hreach]
    have hoff := Nat.mod_lt srcva PGSIZE_pos
    -- one round looks at the bytes up to the end of the page of `srcva`
    generalize hm : min (PGSIZE - srcva % PGSIZE) max = m
    have hchunk : srcva % PGSIZE + m ≤ PGSIZE := by omega
    have hbyte : ∀ j, j < m → userByte t s1.mem (srcva + j)
        = s1.mem (t.leaf (srcva / PGSIZE)).pa (srcva % PGSIZE + j) := fun j hj =>
      userByte_chunk _ hchunk hj
    have hbytes : ∀ k, k ≤ m → ((List.range k).map fun j =>
        s1.mem (t.leaf (srcva / PGSIZE)).pa (srcva % PGSIZE + j)) = userBytes t s1.mem srcva k :=
      fun k hk => map_congr_left fun j hj =>
        (hbyte j (by have := mem_range.mp hj; omega)).symm
    have hreach' : ∀ j, j < m → Reach t (srcva + j) := fun j hj => reach_chunk hreach hchunk hj
    rcases copyinstrPage_spec (s1.mem (t.leaf (srcva / PGSIZE)).pa) m (srcva % PGSIZE) with
      ⟨k, hk, hzero, hnz, heq⟩ | ⟨hnz, heq⟩
    · rw [heq, hbytes (k + 1) hk, if_pos rfl, wp_pure]
      refine ⟨rfl, k + 1, by omega, rfl, fun j hj => hreach' j (by omega), .inl ⟨rfl, k, rfl, ?_,
        fun j hj => ?_⟩⟩
      · rw [hbyte k hk, hzero]
      · rw [hbyte j (by omega)]
        exact hnz j hj
    · rw [heq, hbytes m le_rfl, if_neg Bool.false_ne_true]
      have hnz' : ∀ j, j < m → userByte t s1.mem (srcva + j) ≠ 0 := fun j hj => by
        rw [hbyte j hj]
        exact hnz j hj
      by_cases hfits : max ≤ PGSIZE - srcva % PGSIZE
      · obtain rfl : m = max := by omega
        rw [Nat.sub_self]
        exact copyinstrFrom_zero _ _ _ ⟨rfl, m, le_rfl, rfl, hreach', .inr ⟨rfl, hnz', .inl rfl⟩⟩
      · rw [show PGSIZE - srcva % PGSIZE = m by omega]
        refine (ih _ (by omega)).call ?_
        rintro r s2 ⟨rfl, m2, hm2, hr2, hreach2, hr⟩
        -- no NUL in this page, and none in the bytes the rest has passed
        have hnz2 := fun k => forall_lt_add (k := k) (P := (userByte t s2.mem · ≠ 0)) hnz'
        refine ⟨rfl, m + m2, by omega, ?_, forall_lt_add hreach' hreach2, ?_⟩
        · rw [hr2, userBytes_add, append_assoc]
        · rcases hr with ⟨hr, k, rfl, hzero, hk⟩ | ⟨hr, hk, hend⟩
          · refine .inl ⟨hr, m + k, by omega, by rwa [← Nat.add_assoc], hnz2 k hk⟩
          · refine .inr ⟨hr, hnz2 m2 hk, hend.imp (by omega) ?_⟩
            rw [Nat.add_assoc]
            exact id

theorem copyinstr_user (h : UserTable s root t) (srcva max : Nat) :
    wp E (copyinstr root srcva max) (Copyinstr t s srcva max []) s :=
  copyinstrFrom_spec h [] le_rfl

end Copyinstr

section Exact

variable {s : Vm} {root : Nat} {t : Shape Pte}

theorem copyout_exact (h : UserTable s root t) (va : Nat) (src : Nat → UInt8) (len : Nat) :
    wp (fun _ => False) (copyout root va src len) (fun r s' => UserTable s' root t ∧
      (r = 0 ∨ r = -1) ∧ (r = 0 ↔ ∀ j, j < len → Reach t (va + j)) ∧
      ∃ m, m ≤ len ∧ (r = 0 → m = len) ∧ (∀ j, j < m → Reach t (va + j)) ∧
        UserStored t s s' va src m) s := by
  refine (copyout_user h va src len).call ?_
  rintro r s' ⟨m, hstored, hreach, ⟨rfl, rfl⟩ | ⟨rfl, hm, hno⟩⟩
  · exact ⟨hstored.userTable h, .inl rfl, iff_of_true rfl hreach, m, le_rfl, fun _ => rfl, hreach,
      hstored⟩
  · exact ⟨hstored.userTable h, .inr rfl, iff_of_false (by decide) fun hall => hno (hall m hm), m,
      hm.le, fun hr => absurd hr (by decide), hreach, hstored⟩

theorem copyin_exact (h : UserTable s root t) (va len : Nat) :
    wp (fun _ => False) (copyin root va len) (fun r s' => s' = s ∧
      (r.1 = 0 ∨ r.1 = -1) ∧ (r.1 = 0 ↔ ∀ j, j < len → Reach t (va + j)) ∧
      ∃ m, m ≤ len ∧ (r.1 = 0 → m = len) ∧ (∀ j, j < m → Reach t (va + j)) ∧
        r.2 = userBytes t s.mem va m) s := by
  refine (copyin_user h va len).call ?_
  rintro ⟨r, dst⟩ s' ⟨rfl, m, hdst, hreach, ⟨hr, rfl⟩ | ⟨hr, hm, hno⟩⟩
  · exact ⟨rfl, .inl hr, iff_of_true hr hreach, m, le_rfl, fun _ => rfl, hreach, hdst⟩
  · have hne : r ≠ 0 := by
      rw [show r = -1 from hr]
      decide
    exact ⟨rfl, .inr hr, iff_of_false hne fun hall => hno (hall m hm), m, hm.le,
      fun hr => absurd hr hne, hreach, hdst⟩

theorem UserStored.userBytes {s' : Vm} {va len : Nat} {src : Nat → UInt8}
    (h : UserStored t s s' va src len) (hreach : ∀ j, j < len → Reach t (va + j)) :
    Xv6.userBytes t s'.mem va len = (List.range len).map src := by
  refine map_congr_left fun j hj => ?_
  have hlt : j < len := mem_range.mp hj
  rw [h.byte _ (hreach j hlt), if_pos (by omega), Nat.add_sub_cancel_left]

theorem copyinstr_exact (h : UserTable s root t) (va max : Nat) :
    wp (fun _ => False) (copyinstr root va max) (fun r s' => s' = s ∧
      (r.1 = 0 ∨ r.1 = -1) ∧
      (r.1 = 0 ↔ ∃ k, k < max ∧ (∀ j, j ≤ k → Reach t (va + j)) ∧ userByte t s.mem (va + k) = 0) ∧
      (r.1 = 0 → ∃ k, k < max ∧ r.2 = userBytes t s.mem va (k + 1) ∧
        userByte t s.mem (va + k) = 0 ∧ ∀ j, j < k → userByte t s.mem (va + j) ≠ 0) ∧
      ∃ m, m ≤ max ∧ (∀ j, j < m → Reach t (va + j)) ∧ r.2 = userBytes t s.mem va m) s := by
  refine (copyinstr_user h va max).call ?_
  rintro ⟨r, dst⟩ s' ⟨rfl, m, hm, hdst, hreach, ⟨hr, k, rfl, hnul, hnz⟩ | ⟨hr, hnz, hstop⟩⟩
  · exact ⟨rfl, .inl hr, iff_of_true hr ⟨k, hm, fun j hj => hreach j (by omega), hnul⟩,
      fun _ => ⟨k, hm, hdst, hnul, hnz⟩, k + 1, hm, hreach, hdst⟩
  · have hne : r ≠ 0 := by
      rw [show r = -1 from hr]
      decide
    refine ⟨rfl, .inr hr, iff_of_false hne ?_, fun hr => absurd hr hne, m, hm, hreach, hdst⟩
    rintro ⟨k, hk, hall, hnul⟩
    -- the bytes before `m` are not NUL, and the one at `m` is out of reach or one too many
    have hmk : m ≤ k := by
      by_contra hlt
      exact hnz k (by omega) hnul
    rcases hstop with rfl | hno
    · omega
    · exact hno (hall m hmk)

/-- **Copies to and from user memory are exact** and stay within the pages that the user may use.
`copyout` and `copyin` return 0 exactly when every byte of the range is such a byte, and otherwise
stop at the first that is not; `copyin` after a `copyout` gives back what was stored; `copyinstr`
returns 0 exactly when there is a NUL to be found, and then the string up to it. -/
theorem user_copies_exact (h : UserTable s root t) (va len : Nat) :
    (∀ src, wp (fun _ => False) (copyout root va src len) (fun r s' => UserTable s' root t ∧
      (r = 0 ∨ r = -1) ∧ (r = 0 ↔ ∀ j, j < len → Reach t (va + j)) ∧
      (∃ m, m ≤ len ∧ (r = 0 → m = len) ∧ (∀ j, j < m → Reach t (va + j)) ∧
        UserStored t s s' va src m) ∧
      (r = 0 → wp (fun _ => False) (copyin root va len)
        (fun r' s'' => s'' = s' ∧ r' = (0, (List.range len).map src)) s')) s) ∧
    wp (fun _ => False) (copyin root va len) (fun r s' => s' = s ∧
      (r.1 = 0 ∨ r.1 = -1) ∧ (r.1 = 0 ↔ ∀ j, j < len → Reach t (va + j)) ∧
      ∃ m, m ≤ len ∧ (r.1 = 0 → m = len) ∧ (∀ j, j < m → Reach t (va + j)) ∧
        r.2 = userBytes t s.mem va m) s ∧
    wp (fun _ => False) (copyinstr root va len) (fun r s' => s' = s ∧
      (r.1 = 0 ∨ r.1 = -1) ∧
      (r.1 = 0 ↔ ∃ k, k < len ∧ (∀ j, j ≤ k → Reach t (va + j)) ∧ userByte t s.mem (va + k) = 0) ∧
      (r.1 = 0 → ∃ k, k < len ∧ r.2 = userBytes t s.mem va (k + 1) ∧
        userByte t s.mem (va + k) = 0 ∧ ∀ j, j < k → userByte t s.mem (va + j) ≠ 0) ∧
      ∃ m, m ≤ len ∧ (∀ j, j < m → Reach t (va + j)) ∧ r.2 = userBytes t s.mem va m) s := by
  refine ⟨fun src => ?_, copyin_exact h va len, copyinstr_exact h va len⟩
  refine (copyout_exact h va src len).call ?_
  rintro r s' ⟨h', hr, hiff, m, hm, hall, hreach, hstored⟩
  refine ⟨h', hr, hiff, ⟨m, hm, hall, hreach, hstored⟩, fun hzero => ?_⟩
  -- a `copyout` that returns 0 has stored all bytes, so they can all be loaded
  obtain rfl := hall hzero
  refine (copyin_exact h' va m).call ?_
  rintro ⟨r', dst⟩ s'' ⟨rfl, -, hiff', m', -, hall', -, hdst⟩
  have hr' : r' = 0 := hiff'.mpr hreach
  obtain rfl := hall' hr'
  rw [hstored.userBytes hreach] at hdst
  exact ⟨rfl, Prod.ext hr' hdst⟩

end Exact

def twoPageVm : Vm :=
  match (uvmalloc 0x80100 0 (2 * PGSIZE)).run firstVm with
  | .ok (_, s) => s
  | .error _ => firstVm

theorem twoPageVm_space : ∃ (t : Shape Pte) (c : Nat → Page),
    Space {p | p ∈ bootVm.free} twoPageVm 0x80100 2 t c ∧ ∀ a, a < 2 * PGSIZE → Reach t a := by
  obtain ⟨t, h⟩ := firstVm_space
  obtain ⟨s, hrun⟩ : ∃ s, (uvmalloc 0x80100 0 (2 * PGSIZE)).run firstVm = .ok (2 * PGSIZE, s) :=
    ok_of_map_fst (by decide +kernel)
  obtain ⟨t', c', -, hres⟩ :=
    (wp_iff.mp (uvmalloc_spec (E := fun _ => False) h rfl (2 * PGSIZE))).1 _ _ hrun
  obtain ⟨-, hgrown, h'⟩ := hres.resolve_left fun hno => absurd hno.1 (by decide)
  have hvm : twoPageVm = s := by
    unfold twoPageVm
    rw [hrun]
  rw [hvm]
  refine ⟨t', c', h', fun a ha => ?_⟩
  have hpage : a / PGSIZE < 2 := Nat.div_lt_of_lt_mul (by rwa [Nat.mul_comm] at ha)
  exact h'.reach_of_flags hpage (hgrown.flags _ (Nat.zero_le _) hpage)

/-- Ten bytes across a page boundary come back. -/
theorem user_copies_exact_two_pages : ∃ t : Shape Pte, UserTable twoPageVm 0x80100 t ∧
    ∃ s', (copyout 0x80100 4090 (fun j => j.toUInt8) 10).run twoPageVm = .ok (0, s') ∧
      (copyin 0x80100 4090 10).run s' = .ok ((0, [0, 1, 2, 3, 4, 5, 6, 7, 8, 9]), s') := by
  obtain ⟨t, c, h, hreach⟩ := twoPageVm_space
  refine ⟨t, h.userTable, ?_⟩
  have hall : ∀ j, j < 10 → Reach t (4090 + j) := fun j hj => hreach _ (by unfold PGSIZE; omega)
  obtain ⟨r, s', hrun, -, -, hiff, -, hin⟩ :=
    ((user_copies_exact h.userTable 4090 10).1 fun j => j.toUInt8).returns
  obtain rfl : r = 0 := hiff.mpr hall
  obtain ⟨r', s'', hrun', rfl, rfl⟩ := (hin rfl).returns
  exact ⟨_, hrun, hrun'⟩

end Xv6
