import Mathlib.Tactic

/-!
# Radix trees in pages

A map from numbers to entries, kept in pages of `fanout` entries each. The pages form a tree: an
entry of a page above level 0 is empty or leads to a page one level down, and the digits of a key
pick the entries on the way.
-/

namespace Radix

open Function List

/-- What an entry says: nothing, a page one level down, or a value. -/
inductive Kind where
  | empty
  | branch (p : Nat)
  | value
  deriving DecidableEq, Repr

/-- What the entry above a page, or above no page, has to be. -/
def Kind.above : Option Nat → Kind
  | some c => .branch c
  | none => .empty

structure Format (Page Entry : Type) where
  fanout : Nat
  pos : 0 < fanout
  get : Page → Nat → Entry
  set : Page → Nat → Entry → Page
  kind : Entry → Kind
  -- The entries of an erased page.
  nil : Entry
  kind_nil : kind nil = .empty
  get_set : ∀ pg i e, get (set pg i e) i = e
  get_set_ne : ∀ pg i j e, j ≠ i → get (set pg i e) j = get pg j

/-- Which page serves which prefix of the keys, and the entry of every key: `table l q` is the page
at level `l` for the keys that start with `q`. -/
structure Shape (Entry : Type) where
  table : Nat → Nat → Option Nat
  leaf : Nat → Entry

namespace Shape

variable {Entry : Type}

def Pages (t : Shape Entry) (p : Nat) : Prop := ∃ l q, t.table l q = some p

def setLeaf (t : Shape Entry) (v : Nat) (e : Entry) : Shape Entry :=
  { t with leaf := update t.leaf v e }

/-- With page `c` for the prefix `q` at level `l`. -/
def graft (t : Shape Entry) (l q c : Nat) : Shape Entry :=
  { t with table := fun l' q' => if l' = l ∧ q' = q then some c else t.table l' q' }

/-- One page at level `d`, with nothing in it. -/
def single (nil : Entry) (d root : Nat) : Shape Entry where
  table l q := if l = d ∧ q = 0 then some root else none
  leaf _ := nil

@[simp] theorem setLeaf_leaf (t : Shape Entry) (v : Nat) (e : Entry) :
    (t.setLeaf v e).leaf = update t.leaf v e := rfl

@[simp] theorem graft_leaf (t : Shape Entry) (l q c : Nat) : (t.graft l q c).leaf = t.leaf := rfl

theorem graft_table (t : Shape Entry) (l q c l' q' : Nat) :
    (t.graft l q c).table l' q' = if l' = l ∧ q' = q then some c else t.table l' q' := rfl

theorem graft_table_self (t : Shape Entry) (l q c : Nat) : (t.graft l q c).table l q = some c :=
  if_pos ⟨rfl, rfl⟩

variable {l q c : Nat}

theorem graft_table_ne (t : Shape Entry) {l' q' : Nat} (h : ¬ (l' = l ∧ q' = q)) :
    (t.graft l q c).table l' q' = t.table l' q' :=
  if_neg h

theorem pages_graft (t : Shape Entry) (hnone : t.table l q = none) (p : Nat) :
    (t.graft l q c).Pages p ↔ t.Pages p ∨ p = c := by
  constructor
  · rintro ⟨l', q', h⟩
    rw [graft_table] at h
    split at h
    · exact .inr (Option.some.inj h).symm
    · exact .inl ⟨l', q', h⟩
  · rintro (⟨l', q', h⟩ | rfl)
    · refine ⟨l', q', ?_⟩
      rw [graft_table_ne _ fun heq => ?_]
      · exact h
      · rw [heq.1, heq.2, hnone] at h
        cases h
    · exact ⟨l, q, graft_table_self ..⟩

/-- The pages of `t` are where they were. -/
def Extends (t t' : Shape Entry) : Prop := ∀ l q p, t.table l q = some p → t'.table l q = some p

theorem Extends.refl (t : Shape Entry) : t.Extends t := fun _ _ _ h => h

theorem Extends.trans {t t₁ t₂ : Shape Entry} (h : t.Extends t₁) (h1 : t₁.Extends t₂) :
    t.Extends t₂ :=
  fun l q p hp => h1 l q p (h l q p hp)

theorem extends_graft (t : Shape Entry) (hnone : t.table l q = none) :
    t.Extends (t.graft l q c) := by
  intro l' q' p hp
  rw [graft_table_ne _ fun heq => ?_]
  · exact hp
  · rw [heq.1, heq.2, hnone] at hp
    cases hp

theorem pages_single (nil : Entry) (d root p : Nat) : (single nil d root).Pages p ↔ p = root := by
  constructor
  · rintro ⟨l, q, h⟩
    unfold single at h
    dsimp only at h
    split at h
    · exact (Option.some.inj h).symm
    · cases h
  · rintro rfl
    exact ⟨d, 0, if_pos ⟨rfl, rfl⟩⟩

end Shape

variable {i n : Nat}

theorem key_div (q : Nat) (hi : i < n) : (q * n + i) / n = q := by
  rw [Nat.mul_comm, Nat.mul_add_div (Nat.zero_lt_of_lt hi), Nat.div_eq_of_lt hi, Nat.add_zero]

theorem key_mod (q : Nat) (hi : i < n) : (q * n + i) % n = i := by
  rw [Nat.mul_comm, Nat.mul_add_mod, Nat.mod_eq_of_lt hi]

section Realises

variable {Page Entry : Type} {F : Format Page Entry} {d : Nat} {mem mem' : Nat → Page} {root : Nat}
  {t : Shape Entry}

/-- The memory holds the tree, with page `root` at the top level `d`, and no page is used twice.
Writing to other pages, writing the entry of a key and hanging in an erased page each have a
lemma. -/
structure Realises (F : Format Page Entry) (d : Nat) (mem : Nat → Page) (root : Nat)
    (t : Shape Entry) : Prop where
  root : t.table d 0 = some root
  top : ∀ {l q p}, t.table l q = some p → l ≤ d ∧ (l = d → q = 0)
  parent : ∀ {l q p}, t.table l q = some p → l < d → ∃ p', t.table (l + 1) (q / F.fanout) = some p'
  inner : ∀ {l q p}, t.table (l + 1) q = some p → ∀ i < F.fanout,
    F.kind (F.get (mem p) i) = .above (t.table l (q * F.fanout + i))
  bottom : ∀ {q p}, t.table 0 q = some p → ∀ i < F.fanout,
    F.get (mem p) i = t.leaf (q * F.fanout + i)
  missing : ∀ {v}, t.table 0 (v / F.fanout) = none → t.leaf v = F.nil
  inj : ∀ {l q l' q' p}, t.table l q = some p → t.table l' q' = some p → l = l' ∧ q = q'

variable (h : Realises F d mem root t)

include h

variable {p l q : Nat}

/-- A page that has been added holds nothing but links to other added pages. -/
theorem Realises.added {t' : Shape Entry} (h' : Realises F d mem' root t')
    (hleaf : t'.leaf = t.leaf) (hp : t'.table l q = some p) (hnew : t.table l q = none)
    (hi : i < F.fanout) :
    F.get (mem' p) i = F.nil ∨ F.kind (F.get (mem' p) i) = .empty ∨
      ∃ l' q' p', F.kind (F.get (mem' p) i) = .branch p' ∧ t'.table l' q' = some p' ∧
        t.table l' q' = none := by
  cases l with
  | zero =>
    refine .inl ?_
    rw [h'.bottom hp i hi, hleaf]
    refine h.missing ?_
    rwa [key_div q hi]
  | succ l =>
    have hkind := h'.inner hp i hi
    cases hchild : t'.table l (q * F.fanout + i) with
    | none =>
      rw [hchild] at hkind
      exact .inr (.inl hkind)
    | some p' =>
      rw [hchild] at hkind
      refine .inr (.inr ⟨l, _, p', hkind, hchild, ?_⟩)
      -- a page of `t` has its parent in `t`
      by_contra hold
      obtain ⟨p0, hp0⟩ := Option.ne_none_iff_exists'.mp hold
      obtain ⟨p1, hp1⟩ := h.parent hp0 (Nat.lt_of_succ_le (h'.top hp).1)
      rw [key_div q hi, hnew] at hp1
      cases hp1

theorem Realises.frame (hmem : ∀ p, t.Pages p → mem' p = mem p) :
    Realises F d mem' root t where
  __ := h
  inner {l q p} hp := by
    rw [hmem p ⟨l + 1, q, hp⟩]
    exact h.inner hp
  bottom {q p} hp := by
    rw [hmem p ⟨0, q, hp⟩]
    exact h.bottom hp

theorem Realises.inner_key (hp : t.table (l + 1) (q / F.fanout) = some p) :
    F.kind (F.get (mem p) (q % F.fanout)) = .above (t.table l q) := by
  have hq : q / F.fanout * F.fanout + q % F.fanout = q := Nat.div_add_mod' q F.fanout
  rw [h.inner hp _ (Nat.mod_lt q F.pos), hq]

theorem Realises.bottom_key {v : Nat} (hp : t.table 0 (v / F.fanout) = some p) :
    F.get (mem p) (v % F.fanout) = t.leaf v := by
  have hv : v / F.fanout * F.fanout + v % F.fanout = v := Nat.div_add_mod' v F.fanout
  rw [h.bottom hp _ (Nat.mod_lt v F.pos), hv]

theorem Realises.none_below (hl : l < d) (hnone : t.table (l + 1) q = none) (hi : i < F.fanout) :
    t.table l (q * F.fanout + i) = none := by
  by_contra hsome
  obtain ⟨p, hp⟩ := Option.ne_none_iff_exists'.mp hsome
  obtain ⟨p', hp'⟩ := h.parent hp hl
  rw [key_div q hi, hnone] at hp'
  cases hp'

/-- The page that serves a longer prefix is below the one that serves a shorter prefix. -/
theorem Realises.ancestor (hp : t.table l q = some p) {k : Nat} (hk : l + k ≤ d) :
    ∃ p', t.table (l + k) (q / F.fanout ^ k) = some p' := by
  induction k with
  | zero => exact ⟨p, by rwa [pow_zero, Nat.div_one, Nat.add_zero]⟩
  | succ k ih =>
    obtain ⟨p1, hp1⟩ := ih (by omega)
    obtain ⟨p2, hp2⟩ := h.parent hp1 (by omega)
    rw [Nat.div_div_eq_div_mul, ← pow_succ] at hp2
    exact ⟨p2, hp2⟩

omit h

theorem Realises.fresh {mem : Nat → Page} {root : Nat}
    (hnil : ∀ i < F.fanout, F.get (mem root) i = F.nil) :
    Realises F d mem root (.single F.nil d root) where
  root := if_pos ⟨rfl, rfl⟩
  top {l q p} hp := by
    unfold Shape.single at hp
    dsimp only at hp
    split at hp
    · next heq => exact ⟨heq.1.le, fun _ => heq.2⟩
    · cases hp
  parent {l q p} hp hl := by
    unfold Shape.single at hp
    dsimp only at hp
    split at hp
    · next heq => exact absurd heq.1 hl.ne
    · cases hp
  inner {l q p} hp i hi := by
    unfold Shape.single at hp ⊢
    dsimp only at hp ⊢
    split at hp
    · next heq =>
      obtain rfl := Option.some.inj hp
      have hno : ¬ (l = d ∧ q * F.fanout + i = 0) := by omega
      rw [hnil i hi, F.kind_nil, if_neg hno]
      rfl
    · cases hp
  bottom {q p} hp i hi := by
    unfold Shape.single at hp
    dsimp only at hp
    split at hp
    · obtain rfl := Option.some.inj hp
      exact hnil i hi
    · cases hp
  missing _ := rfl
  inj {l q l' q' p} hp hp' := by
    unfold Shape.single at hp hp'
    dsimp only at hp hp'
    split at hp
    · split at hp'
      · next h h' => exact ⟨h.1.trans h'.1.symm, h.2.trans h'.2.symm⟩
      · cases hp'
    · cases hp

theorem Realises.setLeaf (h : Realises F d mem root t) {v : Nat}
    (hp : t.table 0 (v / F.fanout) = some p) (e : Entry) :
    Realises F d (update mem p (F.set (mem p) (v % F.fanout) e)) root (t.setLeaf v e) where
  __ := h
  inner {l q p'} hp' := by
    have hne : p' ≠ p := by
      rintro rfl
      exact absurd (h.inj hp hp').1 (Nat.succ_ne_zero l).symm
    rw [update_of_ne hne]
    exact h.inner hp'
  bottom {q p'} hp' i hi := by
    rw [Shape.setLeaf_leaf]
    by_cases hpp : p' = p
    · subst hpp
      have hq : v / F.fanout = q := (h.inj hp hp').2
      rw [update_self]
      by_cases hiv : i = v % F.fanout
      · have hv : q * F.fanout + i = v := by
          rw [← hq, hiv]
          exact Nat.div_add_mod' v F.fanout
        rw [hv, update_self, hiv, F.get_set]
      · have hv : q * F.fanout + i ≠ v := by
          rintro rfl
          exact hiv (key_mod q hi).symm
        rw [update_of_ne hv, F.get_set_ne _ _ _ _ hiv]
        exact h.bottom hp' i hi
    · have hv : q * F.fanout + i ≠ v := by
        rintro rfl
        rw [key_div q hi] at hp
        exact hpp (Option.some.inj (hp'.symm.trans hp))
      rw [update_of_ne hpp, update_of_ne hv]
      exact h.bottom hp' i hi
  missing {v'} hnone := by
    have hne : v' ≠ v := by
      rintro rfl
      exact absurd (hp.symm.trans hnone) (Option.some_ne_none p)
    rw [Shape.setLeaf_leaf, update_of_ne hne]
    exact h.missing hnone

theorem Realises.graft (h : Realises F d mem root t) {c : Nat} {e : Entry} (hl : l < d)
    (hp : t.table (l + 1) (q / F.fanout) = some p) (hnone : t.table l q = none) (hc : ¬ t.Pages c)
    (hnil : ∀ i < F.fanout, F.get (mem c) i = F.nil) (hkind : F.kind e = .branch c) :
    Realises F d (update mem p (F.set (mem p) (q % F.fanout) e)) root (t.graft l q c) := by
  have hcp : c ≠ p := by
    rintro rfl
    exact hc ⟨_, _, hp⟩
  -- pages that were there are not the new one
  have hold : ∀ {l' q' p'}, (t.graft l q c).table l' q' = some p' →
      (l' = l ∧ q' = q ∧ p' = c) ∨ (¬ (l' = l ∧ q' = q) ∧ t.table l' q' = some p') := by
    intro l' q' p' hp'
    by_cases heq : l' = l ∧ q' = q
    · rw [heq.1, heq.2, Shape.graft_table_self] at hp'
      exact .inl ⟨heq.1, heq.2, (Option.some.inj hp').symm⟩
    · rw [Shape.graft_table_ne _ heq] at hp'
      exact .inr ⟨heq, hp'⟩
  have hkeep : ∀ {l' q' p'}, t.table l' q' = some p' → (t.graft l q c).table l' q' = some p' := by
    intro l' q' p' hp'
    rw [Shape.graft_table_ne _ fun heq => ?_]
    · exact hp'
    · rw [heq.1, heq.2, hnone] at hp'
      cases hp'
  refine ⟨hkeep h.root, fun {l' q' p'} hp' => ?_, fun {l' q' p'} hp' hl' => ?_,
    fun {l' q' p'} hp' i hi => ?_, fun {q' p'} hp' i hi => ?_, fun {v} hv => ?_,
    fun {l1 q1 l2 q2 p'} h1 h2 => ?_⟩
  · rcases hold hp' with ⟨rfl, -, -⟩ | ⟨-, hp'⟩
    · exact ⟨hl.le, fun heq => absurd heq hl.ne⟩
    · exact h.top hp'
  · rcases hold hp' with ⟨rfl, rfl, -⟩ | ⟨-, hp'⟩
    · exact ⟨p, hkeep hp⟩
    · obtain ⟨p1, hp1⟩ := h.parent hp' hl'
      exact ⟨p1, hkeep hp1⟩
  · rcases hold hp' with ⟨hl', rfl, rfl⟩ | ⟨-, hold'⟩
    · -- the new page is erased, and nothing hangs below it
      subst hl'
      have hbelow := h.none_below (Nat.lt_of_succ_lt hl) hnone hi
      have hno : ¬ (l' = l' + 1 ∧ q' * F.fanout + i = q') := fun heq =>
        absurd heq.1 (Nat.succ_ne_self l').symm
      rw [update_of_ne hcp, hnil i hi, F.kind_nil, Shape.graft_table_ne _ hno, hbelow]
      rfl
    · by_cases hpp : p' = p
      · -- the page that leads to the new one
        subst hpp
        obtain ⟨hll, hqq⟩ := h.inj hp hold'
        obtain rfl : l = l' := Nat.succ.inj hll
        subst hqq
        rw [update_self]
        by_cases hiq : i = q % F.fanout
        · have hq : q / F.fanout * F.fanout + i = q := by
            rw [hiq]
            exact Nat.div_add_mod' q F.fanout
          rw [hq, Shape.graft_table_self, hiq, F.get_set, hkind]
          rfl
        · have hq : ¬ (l = l ∧ q / F.fanout * F.fanout + i = q) := by
            rintro ⟨-, heq⟩
            have hmod := Nat.div_add_mod' q F.fanout
            exact hiq (by omega)
          rw [F.get_set_ne _ _ _ _ hiq, Shape.graft_table_ne _ hq]
          exact h.inner hold' i hi
      · have hno : ¬ (l' = l ∧ q' * F.fanout + i = q) := by
          rintro ⟨hl', hq'⟩
          rw [← hl', ← hq', key_div q' hi] at hp
          exact hpp (Option.some.inj (hold'.symm.trans hp))
        rw [update_of_ne hpp, Shape.graft_table_ne _ hno]
        exact h.inner hold' i hi
  · rcases hold hp' with ⟨hl', rfl, rfl⟩ | ⟨-, hold'⟩
    · subst hl'
      rw [update_of_ne hcp, hnil i hi, Shape.graft_leaf, h.missing]
      rw [key_div q' hi, hnone]
    · have hpp : p' ≠ p := by
        rintro rfl
        exact absurd (h.inj hp hold').1 (Nat.succ_ne_zero l)
      rw [update_of_ne hpp, Shape.graft_leaf]
      exact h.bottom hold' i hi
  · by_cases heq : 0 = l ∧ v / F.fanout = q
    · rw [heq.1, heq.2, Shape.graft_table_self] at hv
      cases hv
    · rw [Shape.graft_table_ne _ heq] at hv
      exact h.missing hv
  · rcases hold h1 with ⟨rfl, rfl, rfl⟩ | ⟨-, hold1⟩
    · rcases hold h2 with ⟨rfl, rfl, -⟩ | ⟨-, hold2⟩
      · exact ⟨rfl, rfl⟩
      · exact absurd ⟨_, _, hold2⟩ hc
    · rcases hold h2 with ⟨-, -, rfl⟩ | ⟨-, hold2⟩
      · exact absurd ⟨_, _, hold1⟩ hc
      · exact h.inj hold1 hold2

end Realises

/-! ### Subtrees -/

section Under

variable {Page Entry : Type} {F : Format Page Entry} {d : Nat} {mem : Nat → Page} {root : Nat}
  {t : Shape Entry}

/-- The pages at level `l` and below for the prefix `q`, children first. -/
def under (n : Nat) (t : Shape Entry) : Nat → Nat → List Nat
  | 0, q => (t.table 0 q).toList
  | l + 1, q =>
    ((List.range n).flatMap fun i => under n t l (q * n + i)) ++ (t.table (l + 1) q).toList

theorem mem_under (hn : 0 < n) {l q p : Nat} :
    p ∈ under n t l q ↔ ∃ l' q', l' ≤ l ∧ q' / n ^ (l - l') = q ∧ t.table l' q' = some p := by
  induction l generalizing q with
  | zero =>
    unfold under
    rw [Option.mem_toList]
    constructor
    · intro h
      exact ⟨0, q, le_rfl, by simp, h⟩
    · rintro ⟨l', q', hl', hq', h⟩
      obtain rfl := Nat.le_zero.mp hl'
      rw [Nat.sub_zero, pow_zero, Nat.div_one] at hq'
      rwa [← hq']
  | succ l ih =>
    unfold under
    rw [mem_append, mem_flatMap, Option.mem_toList]
    constructor
    · rintro (⟨i, hi, h⟩ | h)
      · obtain ⟨l', q', hl', hq', h⟩ := ih.mp h
        refine ⟨l', q', by omega, ?_, h⟩
        rw [Nat.succ_sub hl', pow_succ, ← Nat.div_div_eq_div_mul, hq',
          key_div q (mem_range.mp hi)]
      · exact ⟨l + 1, q, le_rfl, by simp, h⟩
    · rintro ⟨l', q', hl', hq', h⟩
      rcases hl'.eq_or_lt with rfl | hlt
      · rw [Nat.sub_self, pow_zero, Nat.div_one] at hq'
        exact .inr (hq' ▸ h)
      · have hl : l' ≤ l := Nat.lt_succ_iff.mp hlt
        refine .inl ⟨q' / n ^ (l - l') % n, mem_range.mpr (Nat.mod_lt _ hn), ih.mpr
          ⟨l', q', hl, ?_, h⟩⟩
        rw [← hq', Nat.succ_sub hl, pow_succ, ← Nat.div_div_eq_div_mul]
        exact (Nat.div_add_mod' _ _).symm

theorem Realises.mem_under_root (h : Realises F d mem root t) {p : Nat} :
    p ∈ under F.fanout t d 0 ↔ t.Pages p := by
  rw [mem_under F.pos]
  constructor
  · rintro ⟨l, q, -, -, hp⟩
    exact ⟨l, q, hp⟩
  · rintro ⟨l, q, hp⟩
    refine ⟨l, q, (h.top hp).1, ?_, hp⟩
    obtain ⟨p', hp'⟩ := h.ancestor hp (k := d - l) (by have := (h.top hp).1; omega)
    exact (h.top hp').2 (by have := (h.top hp).1; omega)

theorem Realises.under_none (h : Realises F d mem root t) {l q : Nat} (hl : l ≤ d)
    (hnone : t.table l q = none) : under F.fanout t l q = [] := by
  refine eq_nil_iff_forall_not_mem.mpr fun p hp => ?_
  obtain ⟨l', q', hl', hq', hp'⟩ := (mem_under F.pos).mp hp
  obtain ⟨p1, hp1⟩ := h.ancestor hp' (k := l - l') (by omega)
  rw [Nat.add_sub_cancel' hl', hq', hnone] at hp1
  cases hp1

theorem Realises.nodup_under (h : Realises F d mem root t) (l q : Nat) :
    (under F.fanout t l q).Nodup := by
  induction l generalizing q with
  | zero =>
    unfold under
    cases t.table 0 q with
    | none => exact nodup_nil
    | some p => exact nodup_singleton p
  | succ l ih =>
    unfold under
    rw [nodup_append']
    refine ⟨nodup_flatMap.mpr ⟨fun i _ => ih _, ?_⟩, ?_, ?_⟩
    · refine nodup_range.pairwise_of_forall_ne fun i hi j hj hij p hpi hpj => hij ?_
      obtain ⟨l1, q1, hl1, hq1, h1⟩ := (mem_under F.pos).mp hpi
      obtain ⟨l2, q2, hl2, hq2, h2⟩ := (mem_under F.pos).mp hpj
      obtain ⟨rfl, rfl⟩ := h.inj h1 h2
      exact Nat.add_left_cancel (hq1.symm.trans hq2)
    · cases t.table (l + 1) q with
      | none => exact nodup_nil
      | some p => exact nodup_singleton p
    · intro p hp hp'
      obtain ⟨i, -, hp⟩ := mem_flatMap.mp hp
      obtain ⟨l', q', hl', -, h'⟩ := (mem_under F.pos).mp hp
      have heq := (h.inj h' (Option.mem_toList.mp hp')).1
      omega

end Under

end Radix
