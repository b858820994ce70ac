import Xv6.Vm.Owner
import Xv6.Vm.Base
import Mathlib.Order.CompletePartialOrder

/-!
# Copies of an address space

`uvmcopy` gives the child of `fork` the memory of its parent, page by page in pages of its own.
-/

namespace Xv6

open Prog Radix Function

/-! ### The copy -/

section Copy

variable {F : Set Nat} {s : Vm} {old new n k : Nat} {t₀ t₁ t : Shape Pte} {m c : Nat → Page}

/-- The address space that is copied: no page of it is in the pool `F`, so that it holds what it
held in memory `m`. -/
structure Parent (F : Set Nat) (m : Nat → Page) (old n : Nat) (t₁ : Shape Pte) : Prop where
  realises : Realises ptFormat 2 m old t₁
  user : ∀ v, v < n → (t₁.leaf v).kind = .value
  apart : ∀ p ∈ owned t₁ n, p ∉ F

/-- The first `k` pages have the permissions and the content of the parent's. -/
def Copied (t₁ t : Shape Pte) (m c : Nat → Page) (k : Nat) : Prop :=
  ∀ v, v < k → (t.leaf v).flags = (t₁.leaf v).flags ∧ c (t.leaf v).pa = m (t₁.leaf v).pa

theorem Copied.next {p : Nat} {pg : Page} {t' : Shape Pte} (h : Copied t₁ t m c k)
    (hnew : ∀ v, v < k → (t.leaf v).pa ≠ p)
    (hleaf : t'.leaf = update t.leaf k (Pte.mk p (t₁.leaf k).flags)) (hp : p < 2 ^ 54)
    (hpg : pg = m (t₁.leaf k).pa) : Copied t₁ t' m (update c p pg) (k + 1) := by
  intro v hv
  by_cases hvk : v = k
  · have hlt := (t₁.leaf k).flags_lt
    rw [hvk, hleaf, update_self, Pte.flags_mk hp hlt, Pte.pa_mk hp hlt, update_self]
    exact ⟨rfl, hpg⟩
  · rw [hleaf, update_of_ne hvk, update_of_ne (hnew v (by omega))]
    exact h v (by omega)

/-- What `uvmcopy` does to the page table it fills. -/
def Uvmcopy (F : Set Nat) (new n : Nat) (t₀ t₁ : Shape Pte) (m : Nat → Page) (r : Int) (s' : Vm) :
    Prop :=
  ∃ (t' : Shape Pte) (c' : Nat → Page), (∀ p, p ∉ F → c' p = m p) ∧
    (r = 0 ∧ t₀.Extends t' ∧ Space F s' new n t' c' ∧ Copied t₁ t' m c' n ∨
      r = -1 ∧ Space F s' new 0 t' c')

theorem uvmcopy_fail (h : Space F s new k t c) (hc : ∀ p, p ∉ F → c p = m p) :
    wp (fun _ => False) (do uvmunmap new 0 (k * PGSIZE / PGSIZE) true; return -1)
      (Uvmcopy F new n t₀ t₁ m) s := by
  rw [Nat.mul_div_cancel k PGSIZE_pos, wp_bind]
  have hunmap := uvmunmap_spec (E := fun _ => False) h (Nat.zero_le k)
  rw [Nat.zero_mul, Nat.sub_zero] at hunmap
  refine hunmap.call ?_
  rintro _ s' ⟨t', -, h'⟩
  exact ⟨t', c, hc, .inr ⟨rfl, h'⟩⟩

/-- The loop of `uvmcopy`, with the pages copied so far as its invariant. -/
theorem uvmcopyFrom_spec (hpar : Parent F m old n t₁) (h : Space F s new k t c)
    (hc : ∀ p, p ∉ F → c p = m p) (hext : t₀.Extends t) (hcopied : Copied t₁ t m c k) {j : Nat}
    (hj : k + j = n) :
    wp (fun _ => False) (uvmcopyFrom old new j (k * PGSIZE)) (Uvmcopy F new n t₀ t₁ m) s := by
  induction j generalizing s k t c with
  | zero =>
    obtain rfl : k = n := hj
    unfold uvmcopyFrom
    rw [wp_pure]
    exact ⟨t, c, hc, .inl ⟨rfl, hext, h, hcopied⟩⟩
  | succ j ih =>
    have hk := h.lt
    have hva : k * PGSIZE < MAXVA := by
      unfold PGSIZE MAXVA
      omega
    have hdiv : k * PGSIZE / PGSIZE = k := Nat.mul_div_cancel k PGSIZE_pos
    have hvalue := hpar.user k (by omega)
    obtain ⟨hV, hrwx⟩ := Pte.kind_eq_value.mp hvalue
    -- the parent's pages are not in the pool, so nothing has changed there
    have hmem : ∀ p ∈ owned t₁ n, s.mem p = m p := fun p hp => by
      have hout := hpar.apart p hp
      rw [h.outside hout, hc p hout]
    have hreal : Realises ptFormat 2 s.mem old t₁ := hpar.realises.frame fun p hp => hmem p (.inl hp)
    unfold uvmcopyFrom
    rw [wp_bind]
    refine (walk_valid hreal hva (by rwa [hdiv])).call ?_
    rintro r s' ⟨rfl, q, rfl, -, hpte⟩
    rw [hdiv] at hpte ⊢
    dsimp only
    rw [wp_bind, wp_loadPte, hpte, hV, if_neg (by decide), wp_bind]
    refine (kalloc_spec h.toPool).call fun r s1 hpost => ?_
    cases r with
    | none =>
      obtain ⟨rfl, -⟩ := hpost
      simpa only [hdiv] using uvmcopy_fail h hc
    | some p =>
      obtain ⟨hpF, hpT, hpX, -, hmem1, hpool⟩ := hpost
      have hin : (t₁.leaf k).pa ∈ owned t₁ n := .inr (mem_user (by omega))
      have hne : (t₁.leaf k).pa ≠ p := fun heq => hpar.apart _ hin (heq ▸ hpF)
      have hflags : (t₁.leaf k).flags ||| PTE_V = (t₁.leaf k).flags := Pte.or_V_of_V hV
      have hpg : s1.mem (t₁.leaf k).pa = m (t₁.leaf k).pa := by rw [hmem1 _ hne, hmem _ hin]
      dsimp only
      rw [wp_bind, wp_loadPage, wp_bind, wp_storePage, wp_bind]
      refine (h.map_page hpF hpT hpX hmem1 hpool _ (hflags.symm ▸ (t₁.leaf k).flags_lt)
        (hflags.symm ▸ Pte.kind_flags (h.pa_lt hpF) hvalue)).call ?_
      rw [hflags]
      rintro r s2 ⟨t₂, hext2, ⟨rfl, hleaf, h2⟩ | ⟨rfl, hleaf, hfree⟩⟩
      · rw [if_neg (by decide), ← Nat.succ_mul]
        refine ih h2 (fun q hq => ?_) (hext.trans hext2) (hcopied.next (fun v hv heq => ?_) hleaf
          (h.pa_lt hpF) hpg) (by omega)
        · have hqp : q ≠ p := fun heq => hq (heq ▸ hpF)
          rw [update_of_ne hqp]
          exact hc q hq
        · exact hpX (heq ▸ mem_user hv)
      · rw [if_pos (by decide), wp_bind]
        refine hfree.call fun _ s3 h3 => ?_
        simpa only [hdiv] using uvmcopy_fail h3 hc

end Copy

/-! ### Isolation -/

/-- A store of the user, or of the kernel on its behalf. -/
structure UserWrite where
  va : Nat
  src : Nat → UInt8
  len : Nat

/-- Stores one after the other, each through the page table that goes with it. -/
def userWrites : List (Nat × UserWrite) → VmM Unit
  | [] => return
  | (root, w) :: ws => do
    let _ ← copyout root w.va w.src w.len
    userWrites ws

theorem userWrites_cons (root : Nat) (w : UserWrite) (ws : List (Nat × UserWrite)) :
    userWrites ((root, w) :: ws) = copyout root w.va w.src w.len >>= fun _ => userWrites ws :=
  rfl

/-- What the user sees through `t` is the same. -/
def SameView (t : Shape Pte) (s s' : Vm) : Prop :=
  ∀ a, Reach t a → userByte t s.mem a = userByte t s'.mem a

/-- No page that the user may use through `t₁` belongs to the other page table. -/
structure NoneShared (t₁ t₂ : Shape Pte) : Prop where
  user : ∀ a b, Reach t₁ a → Reach t₂ b → (t₁.leaf (a / PGSIZE)).pa ≠ (t₂.leaf (b / PGSIZE)).pa
  table : ∀ a, Reach t₁ a → ¬ t₂.Pages (t₁.leaf (a / PGSIZE)).pa

section Isolation

variable {s s' s₀ s₀' : Vm} {r₁ r₂ : Nat} {t₁ t₂ : Shape Pte} {va m : Nat} {src : Nat → UInt8}

theorem UserStored.other (h : UserStored t₂ s s' va src m) (hshare : NoneShared t₁ t₂) :
    SameView t₁ s' s := by
  intro a ha
  unfold userByte
  rw [h.rest _ fun b hb heq => hshare.user a b ha hb heq.symm]

theorem UserStored.otherTable (h : UserStored t₂ s s' va src m) (hshare : NoneShared t₂ t₁)
    (h1 : UserTable s r₁ t₁) : UserTable s' r₁ t₁ :=
  { h1 with
    realises := h1.realises.frame fun p hp => h.rest p fun b hb heq =>
      hshare.table b hb (heq ▸ hp) }

theorem UserCopyout.unique {len : Nat} {r r' : Int} (h : UserCopyout t₁ s va src len r s')
    (h' : UserCopyout t₁ s₀ va src len r' s₀') (hsame : SameView t₁ s s₀) : SameView t₁ s' s₀' := by
  obtain ⟨m, hst, hreach, hres⟩ := h
  obtain ⟨m', hst', hreach', hres'⟩ := h'
  have hle : ¬ m < m' := fun hlt => by
    rcases hres with ⟨-, rfl⟩ | ⟨-, -, hno⟩
    · rcases hres' with ⟨-, rfl⟩ | ⟨-, hlt', -⟩ <;> omega
    · exact hno (hreach' m hlt)
  have hge : ¬ m' < m := fun hlt => by
    rcases hres' with ⟨-, rfl⟩ | ⟨-, -, hno⟩
    · rcases hres with ⟨-, rfl⟩ | ⟨-, hlt', -⟩ <;> omega
    · exact hno (hreach m' hlt)
  obtain rfl : m = m' := by omega
  intro a ha
  rw [hst.byte a ha, hst'.byte a ha, hsame a ha]

/-- What is seen through `t₁` after stores through both page tables is what the stores through `t₁`
alone would have left there. -/
theorem writes_isolated (h1 : UserTable s r₁ t₁) (h2 : UserTable s r₂ t₂) (h0 : UserTable s₀ r₁ t₁)
    (h12 : NoneShared t₁ t₂) (h21 : NoneShared t₂ t₁) (hsame : SameView t₁ s s₀) (hne : r₂ ≠ r₁)
    {ws : List (Nat × UserWrite)} (hws : ∀ w ∈ ws, w.1 = r₁ ∨ w.1 = r₂) :
    wp (fun _ => False) (userWrites ws) (fun _ s' =>
      wp (fun _ => False) (userWrites (ws.filter fun w => w.1 = r₁))
        (fun _ s₀' => SameView t₁ s' s₀') s₀) s := by
  induction ws generalizing s s₀ with
  | nil => exact hsame
  | cons w ws ih =>
    obtain ⟨root, w⟩ := w
    have hws' : ∀ w ∈ ws, w.1 = r₁ ∨ w.1 = r₂ := fun w hw => hws w (List.mem_cons_of_mem _ hw)
    rw [userWrites_cons, wp_bind]
    rcases hws _ List.mem_cons_self with hroot | hroot
    · -- the same store on both sides
      obtain rfl : root = r₁ := hroot
      refine (copyout_user h1 w.va w.src w.len).call fun r s' hpost => ?_
      obtain ⟨r', s₀', hrun0, hpost0⟩ :=
        (copyout_user (E := fun _ => False) h0 w.va w.src w.len).returns
      have hview := hpost.unique hpost0 hsame
      obtain ⟨m, hst, -⟩ := hpost
      obtain ⟨m0, hst0, -⟩ := hpost0
      refine (ih (hst.userTable h1) (hst.otherTable h12 h2) (hst0.userTable h0) hview hws').call
        fun _ s'' hrest => ?_
      rw [List.filter_cons_of_pos (by simp), userWrites_cons, wp_bind, wp_of_run hrun0]
      exact hrest
    · obtain rfl : root = r₂ := hroot
      rw [List.filter_cons_of_neg (by simpa using hne)]
      refine (copyout_user h2 w.va w.src w.len).call ?_
      rintro r s' ⟨m, hst, -⟩
      refine ih (hst.otherTable h21 h1) (hst.userTable h2) h0 (fun a ha => ?_) hws'
      rw [hst.other h12 a ha, hsame a ha]

end Isolation

/-! ### The child of `fork` -/

section Fork

variable {F F₁ F₂ : Set Nat} {s s' : Vm} {old new n n₁ n₂ : Nat} {t t' t₁ t₂ : Shape Pte}
  {c c₁ c₂ : Nat → Page}

theorem Space.noneShared (h1 : Space F₁ s old n₁ t₁ c₁) (h2 : Space F₂ s new n₂ t₂ c₂)
    (hdisj : Disjoint (owned t₁ n₁) (owned t₂ n₂)) : NoneShared t₁ t₂ where
  user a b ha hb heq := by
    have hb' : (t₂.leaf (b / PGSIZE)).pa ∈ owned t₂ n₂ := .inr (mem_user (h2.reach_lt hb))
    exact Set.disjoint_left.mp hdisj (.inr (mem_user (h1.reach_lt ha))) (heq ▸ hb')
  table a ha hp := Set.disjoint_left.mp hdisj (.inr (mem_user (h1.reach_lt ha))) (.inl hp)

/-- Stores through the page tables of two processes: each sees its own, and only those. -/
theorem Space.isolated (h1 : Space F₁ s old n₁ t₁ c₁) (h2 : Space F₂ s new n₂ t₂ c₂)
    (hdisj : Disjoint (owned t₁ n₁) (owned t₂ n₂)) {ws : List (Nat × UserWrite)}
    (hws : ∀ w ∈ ws, w.1 = old ∨ w.1 = new) :
    wp (fun _ => False) (userWrites ws) (fun _ s' =>
      wp (fun _ => False) (userWrites (ws.filter fun w => w.1 = old))
        (fun _ s₀ => SameView t₁ s' s₀) s) s := by
  refine writes_isolated h1.userTable h2.userTable h1.userTable (h1.noneShared h2 hdisj)
    (h2.noneShared h1 hdisj.symm) (fun _ _ => rfl) ?_ hws
  rintro rfl
  exact Set.disjoint_left.mp hdisj (.inl ⟨_, _, h1.realises.root⟩) (.inl ⟨_, _, h2.realises.root⟩)

/-- **`fork` copies memory.** `uvmcopy` copies the memory of the parent to free pages, with the same
flags, or takes back what it has mapped; the parent keeps its own. From then on neither sees what
the other stores: after any stores through both page tables, each process sees what its own stores
alone would have left. -/
theorem uvmcopy_isolates (h₁ : Space F₁ s old n t₁ c₁) (h₂ : Space F₂ s new 0 t₂ c₂)
    (hdisj : Disjoint (owned t₁ n) (owned t₂ 0)) {sz : Nat} (hsz : npages sz = n) :
    wp (fun _ => False) (uvmcopy old new sz) (fun r s' =>
      (∀ p ∈ owned t₁ n, s'.mem p = s.mem p) ∧ Space (s'.frees ∪ owned t₁ n) s' old n t₁ s'.mem ∧
      ∃ t' : Shape Pte,
        (r = 0 ∧ Space F₂ s' new n t' s'.mem ∧
          (∀ v, v < n → (t'.leaf v).flags = (t₁.leaf v).flags ∧
            s'.mem (t'.leaf v).pa = s.mem (t₁.leaf v).pa ∧ (t'.leaf v).pa ∈ s.free) ∧
          ∀ ws : List (Nat × UserWrite), (∀ w ∈ ws, w.1 = old ∨ w.1 = new) →
            wp (fun _ => False) (userWrites ws) (fun _ s'' =>
              wp (fun _ => False) (userWrites (ws.filter fun w => w.1 = old))
                (fun _ s₀ => SameView t₁ s'' s₀) s' ∧
              wp (fun _ => False) (userWrites (ws.filter fun w => w.1 = new))
                (fun _ s₀ => SameView t' s'' s₀) s') s') ∨
        (r = -1 ∧ Space F₂ s' new 0 t' s'.mem ∧ (∀ p ∈ s.free, p ∈ s'.free ∨ t'.Pages p))) s := by
  have hout : ∀ p ∈ owned t₁ n, p ∉ F₂ := fun p hp hF => by
    rw [h₂.pool_eq] at hF
    rcases hF with hfree | hown
    · exact h₁.owned_free hp hfree
    · exact Set.disjoint_left.mp hdisj hp hown
  -- the loop works on the pages of the child, and those of the parent are none of them
  have hpar : Parent F₂ s.mem old n t₁ := ⟨h₁.realises, h₁.user, hout⟩
  have hloop : wp (fun _ => False) (uvmcopy old new sz) (Uvmcopy F₂ new n t₂ t₁ s.mem) s := by
    unfold uvmcopy
    rw [show (sz + (PGSIZE - 1)) / PGSIZE = n from hsz]
    exact uvmcopyFrom_spec (k := 0) hpar h₂.self (fun p _ => rfl) (.refl t₂)
      (fun v hv => by omega) (Nat.zero_add n)
  refine (hloop.and ((uvmcopy_base ..).spec s)).call ?_
  rintro r s' ⟨⟨t', c', hc, hres⟩, hbase⟩
  have hpool : ∃ (T X : Set Nat), Pool F₂ s' T X c' := by
    rcases hres with ⟨-, -, h', -⟩ | ⟨-, h'⟩
    · exact ⟨_, _, h'.toPool⟩
    · exact ⟨_, _, h'.toPool⟩
  obtain ⟨T, X, hpool⟩ := hpool
  have hold := h₁.disjoint hpool hc hout hbase
  refine ⟨fun p hp => by rw [hpool.outside (hout p hp), hc p (hout p hp)], hold, t', ?_⟩
  rcases hres with ⟨rfl, hext, h', hcopied⟩ | ⟨rfl, h'⟩
  · have hdisj' : Disjoint (owned t₁ n) (owned t' n) :=
      Set.disjoint_left.mpr fun p hp hp' => hout p hp (h'.owned_mem hp')
    refine .inl ⟨rfl, h'.self, fun v hv => ⟨(hcopied v hv).1, ?_, ?_⟩, fun ws hws => ?_⟩
    · rw [h'.user_mem hv, (hcopied v hv).2]
    · -- a page of the pool that was no table then
      have hin := h'.mem_data (mem_user hv)
      rw [h₂.pool_eq] at hin
      rcases hin with hfree | ⟨l, q, ht⟩ | ⟨w, -, hw, -⟩
      · exact hfree
      · exact absurd ⟨l, q, hext l q _ ht⟩ (h'.data_table (mem_user hv))
      · omega
    · exact (hold.isolated h'.self hdisj' hws).and
        (h'.self.isolated hold hdisj'.symm fun w hw => (hws w hw).symm)
  · refine .inr ⟨rfl, h'.self, fun p hp => ?_⟩
    have hin : p ∈ F₂ := (h₂.cover p).mpr (.inl hp)
    rw [h'.pool_eq] at hin
    rcases hin with hfree | ht | ⟨w, -, hw, -⟩
    · exact .inl hfree
    · exact .inr ht
    · omega

end Fork

/-- A child without memory next to the process with two pages. -/
def forkVm : Vm :=
  match (procPagetable 0x80007 0x80201).run twoPageVm with
  | .ok (_, s) => s
  | .error _ => twoPageVm

theorem forkVm_spaces : ∃ (F₁ F₂ : Set Nat) (t₁ t₂ : Shape Pte) (c₂ : Nat → Page),
    Space F₁ forkVm 0x80100 2 t₁ forkVm.mem ∧ Space F₂ forkVm 0x80107 0 t₂ c₂ ∧
      Disjoint (owned t₁ 2) (owned t₂ 0) := by
  obtain ⟨t, c, h, -⟩ := twoPageVm_space
  obtain ⟨s, hrun⟩ : ∃ s, (procPagetable 0x80007 0x80201).run twoPageVm = .ok (some 0x80107, s) :=
    ok_of_map_fst (by decide +kernel)
  have hspec := (procPagetable_spec (E := fun _ => True) h.toPool.frees
    (show 0x80007 < 2 ^ 54 by decide) (show 0x80201 < 2 ^ 54 by decide)).and
    ((procPagetable_base 0x80007 0x80201).spec twoPageVm)
  obtain ⟨⟨t₂, h2⟩, hbase⟩ := (wp_iff.mp hspec).1 _ _ hrun
  have hvm : forkVm = s := by
    unfold forkVm
    rw [hrun]
  rw [hvm]
  have hout : ∀ p ∈ owned t 2, p ∉ twoPageVm.frees := fun p hp => h.owned_free hp
  exact ⟨_, _, t, t₂, _, h.disjoint h2.toPool (fun _ _ => rfl) hout hbase, h2,
    Set.disjoint_left.mpr fun p hp hp' => hout p hp (h2.owned_mem hp')⟩

set_option maxRecDepth 2000 in
theorem forkVm_uvmcopy : ∃ s', (uvmcopy 0x80100 0x80107 (2 * PGSIZE)).run forkVm = .ok (0, s') :=
  ok_of_map_fst (by decide +kernel)

theorem uvmcopy_isolates_two_pages : ∃ (F : Set Nat) (s' : Vm) (t₁ t' : Shape Pte),
    (uvmcopy 0x80100 0x80107 (2 * PGSIZE)).run forkVm = .ok (0, s') ∧
      Space F s' 0x80107 2 t' s'.mem ∧ ∀ v, v < 2 →
        s'.mem (t'.leaf v).pa = forkVm.mem (t₁.leaf v).pa ∧ (t'.leaf v).pa ∈ forkVm.free := by
  obtain ⟨F₁, F₂, t₁, t₂, c₂, h1, h2, hdisj⟩ := forkVm_spaces
  obtain ⟨s', hrun⟩ := forkVm_uvmcopy
  obtain ⟨-, -, t', hres⟩ := (wp_iff.mp
    (uvmcopy_isolates h1 h2 hdisj (show npages (2 * PGSIZE) = 2 by decide))).1 0 s' hrun
  obtain ⟨-, h', hpages, -⟩ := hres.resolve_right fun hno => absurd hno.1 (by decide)
  exact ⟨F₂, s', t₁, t', hrun, h', fun v hv => (hpages v hv).2⟩

end Xv6
