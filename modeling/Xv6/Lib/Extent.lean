import Mathlib.Tactic

/-!
# Extents: address ranges, what they cover, and coalescing lists of them

An allocator's free space is a list of extents sorted by address. Two ways of looking at such a
list carry the proofs:

* `cover L x` counts the extents of `L` that contain the address `x`. That lists of extents are
  pairwise disjoint and together make up a given space is one equation between counts, and every
  operation on extents is a statement about the count.
* `Spaced L` says that the list is sorted and that consecutive extents do not even touch.

`pushFront b L` puts an extent in front of a list and merges it with the first one if they
touch; it adds exactly `b` to the cover and keeps the list spaced.
-/

namespace Extents

open List

structure Extent where
  start : Nat
  len : Nat
  deriving DecidableEq, Repr

namespace Extent

def stop (e : Extent) : Nat := e.start + e.len

def Has (e : Extent) (x : Nat) : Prop := e.start ≤ x ∧ x < e.stop

instance (e : Extent) (x : Nat) : Decidable (e.Has x) := inferInstanceAs (Decidable (_ ∧ _))

def Apart (e f : Extent) : Prop := ∀ x, ¬ (e.Has x ∧ f.Has x)

/-- The extent that begins where `a` begins and is as long as both together. -/
def join (a b : Extent) : Extent := ⟨a.start, a.len + b.len⟩

theorem has_join {b q : Extent} (h : b.stop = q.start) {x : Nat} :
    (b.join q).Has x ↔ b.Has x ∨ q.Has x := by
  simp only [Has, join, stop] at h ⊢
  omega

theorem Apart.start_ne {e f : Extent} (h : e.Apart f) (he : 0 < e.len) (hf : 0 < f.len) :
    e.start ≠ f.start := by
  intro heq
  apply h e.start
  simp only [Has, stop]
  omega

theorem Apart.stop_le {e f : Extent} (h : e.Apart f) (hf : 0 < f.len) (hlt : e.start < f.start) :
    e.stop ≤ f.start := by
  by_contra hgt
  apply h f.start
  simp only [Has, stop] at *
  omega

theorem Apart.symm {e f : Extent} (h : e.Apart f) : f.Apart e := fun x hx => h x hx.symm

end Extent

/-- The number of extents of the list that contain `x`. -/
def cover (L : List Extent) (x : Nat) : Nat := L.countP (fun e => e.Has x)

@[simp] theorem cover_nil (x : Nat) : cover [] x = 0 := rfl

@[simp] theorem cover_append (L M : List Extent) (x : Nat) :
    cover (L ++ M) x = cover L x + cover M x := countP_append

theorem cover_cons (e : Extent) (L : List Extent) (x : Nat) :
    cover (e :: L) x = cover L x + if e.Has x then 1 else 0 := by
  simp [cover, countP_cons]

variable {L : List Extent}

theorem cover_perm {M : List Extent} (h : L.Perm M) (x : Nat) : cover L x = cover M x :=
  h.countP_eq _

theorem cover_pos {x : Nat} : 0 < cover L x ↔ ∃ e ∈ L, e.Has x := by
  simp [cover, countP_pos_iff]

variable {e : Extent}

theorem cover_of_empty (h : e.len = 0) (L : List Extent) (x : Nat) :
    cover (e :: L) x = cover L x := by
  have : ¬ e.Has x := by
    simp only [Extent.Has, Extent.stop, h]
    omega
  simp [cover_cons, this]

theorem pairwise_apart_of_cover (h : ∀ x, cover L x ≤ 1) : L.Pairwise Extent.Apart := by
  induction L with
  | nil => exact .nil
  | cons e L ih =>
    have htail : ∀ x, cover L x ≤ 1 := fun x => by
      have := h x
      rw [cover_cons] at this
      omega
    refine .cons (fun f hf x ⟨hx, hx'⟩ => ?_) (ih htail)
    have hpos : 0 < cover L x := cover_pos.2 ⟨f, hf, hx'⟩
    have := h x
    rw [cover_cons, if_pos hx] at this
    omega

/-- Sorted by address, and no extent touches the next one. -/
def Spaced (L : List Extent) : Prop := L.Pairwise (fun a b => a.stop < b.start)

theorem Spaced.start_lt (h : Spaced L) : L.Pairwise (fun a b => a.start < b.start) :=
  h.imp fun {a _} hab => lt_of_le_of_lt (Nat.le_add_right a.start a.len) hab

theorem Spaced.eq_of_start (h : Spaced L) {f : Extent} (he : e ∈ L) (hf : f ∈ L)
    (heq : e.start = f.start) : e = f := by
  by_contra hne
  have hlt : L.Pairwise (fun a b => a.start ≠ b.start) := h.start_lt.imp fun h => h.ne
  have : Std.Symm fun a b : Extent => a.start ≠ b.start := ⟨fun _ _ h => h.symm⟩
  exact hlt.forall he hf hne heq

/-- Put an extent in front of the list, merged with the first one if they touch. -/
def pushFront (b : Extent) : List Extent → List Extent
  | [] => [b]
  | q :: L => if b.stop = q.start then b.join q :: L else b :: q :: L

theorem pushFront_cons (b q : Extent) (L : List Extent) :
    pushFront b (q :: L) = if b.stop = q.start then b.join q :: L else b :: q :: L := rfl

variable {b : Extent}

theorem pushFront_of_lt (h : ∀ q ∈ L, b.stop < q.start) : pushFront b L = b :: L := by
  cases L with
  | nil => rfl
  | cons q L => rw [pushFront_cons, if_neg (h q mem_cons_self).ne]

theorem start_pushFront (h : e ∈ pushFront b L) : e.start = b.start ∨ e ∈ L := by
  cases L with
  | nil => simp_all [pushFront]
  | cons q L =>
    rw [pushFront_cons] at h
    split at h
    · rcases mem_cons.1 h with rfl | h
      · exact .inl rfl
      · exact .inr (mem_cons_of_mem _ h)
    · rcases mem_cons.1 h with rfl | h
      · exact .inl rfl
      · exact .inr h

theorem exists_start_pushFront (b : Extent) (L : List Extent) :
    ∃ e ∈ pushFront b L, e.start = b.start := by
  cases L with
  | nil => exact ⟨b, mem_cons_self, rfl⟩
  | cons q L =>
    rw [pushFront_cons]
    split
    · exact ⟨_, mem_cons_self, rfl⟩
    · exact ⟨b, mem_cons_self, rfl⟩

theorem stop_pushFront {n : Nat} (hb : b.stop < n) (hL : ∀ e ∈ L, e.stop < n) :
    ∀ e ∈ pushFront b L, e.stop < n := by
  intro e he
  cases L with
  | nil => simp_all [pushFront]
  | cons q L =>
    rw [pushFront_cons] at he
    split at he
    case isTrue h =>
      rcases mem_cons.1 he with rfl | he
      · have := hL q mem_cons_self
        simp only [Extent.join, Extent.stop] at *
        omega
      · exact hL e (mem_cons_of_mem _ he)
    case isFalse =>
      rcases mem_cons.1 he with rfl | he
      · exact hb
      · exact hL e he

theorem len_pushFront (h : ∀ e ∈ b :: L, 0 < e.len) : ∀ e ∈ pushFront b L, 0 < e.len := by
  intro e he
  cases L with
  | nil => exact h e he
  | cons q L =>
    rw [pushFront_cons] at he
    split at he
    · rcases mem_cons.1 he with rfl | he
      · exact Nat.lt_of_lt_of_le (h b mem_cons_self) (Nat.le_add_right _ _)
      · exact h e (mem_cons_of_mem _ (mem_cons_of_mem _ he))
    · exact h e he

theorem cover_pushFront (b : Extent) (L : List Extent) (x : Nat) :
    cover (pushFront b L) x = cover (b :: L) x := by
  cases L with
  | nil => rfl
  | cons q L =>
    rw [pushFront_cons]
    split
    case isFalse => rfl
    case isTrue h =>
      have hnot : b.Has x → ¬ q.Has x := fun hb hq => absurd hb.2 (not_lt.2 (h ▸ hq.1))
      simp only [cover_cons, Extent.has_join h]
      by_cases hb : b.Has x
      · simp [hb, hnot hb]
      · simp [hb]

theorem Spaced.pushFront (h : Spaced L) (hb : ∀ q ∈ L, b.stop ≤ q.start) : Spaced (pushFront b L) := by
  cases L with
  | nil => exact pairwise_singleton _ _
  | cons q L =>
    obtain ⟨hq, hL⟩ := pairwise_cons.1 h
    have hbq := hb q mem_cons_self
    rw [pushFront_cons]
    split
    case isTrue htouch =>
      refine .cons (fun e he => ?_) hL
      have := hq e he
      simp only [Extent.join, Extent.stop] at *
      omega
    case isFalse hgap =>
      have hlt : b.stop < q.start := lt_of_le_of_ne hbq hgap
      refine .cons (fun e he => ?_) h
      rcases mem_cons.1 he with rfl | he
      · exact hlt
      · have := hq e he
        simp only [Extent.stop] at *
        omega

theorem Spaced.append {A B : List Extent} (hA : Spaced A) (hB : Spaced B)
    (h : ∀ a ∈ A, ∀ b ∈ B, a.stop < b.start) : Spaced (A ++ B) :=
  pairwise_append.2 ⟨hA, hB, h⟩

/-- **Coalescing insertion.** An extent that fits between `p` and the extents after it can be put
there, merged on both sides with what it touches, and the list stays spaced. -/
theorem Spaced.insert {A B : List Extent} {p : Extent} (h : Spaced (A ++ p :: B))
    (hp : p.stop ≤ b.start) (hB : ∀ q ∈ B, b.stop ≤ q.start) :
    Spaced (A ++ Extents.pushFront p (Extents.pushFront b B)) := by
  obtain ⟨hA, hpB, hAp⟩ := pairwise_append.1 h
  obtain ⟨hpB, hsB⟩ := pairwise_cons.1 hpB
  have hpush : ∀ q ∈ Extents.pushFront b B, p.stop ≤ q.start := fun q hq => by
    rcases start_pushFront hq with h | h
    · omega
    · exact (hpB q h).le
  apply Spaced.append hA (Spaced.pushFront (Spaced.pushFront hsB hB) hpush)
  intro a ha e he
  rcases start_pushFront he with h | h
  · rw [h]
    exact hAp a ha p mem_cons_self
  · rcases start_pushFront h with h' | h'
    · have := hAp a ha p mem_cons_self
      simp only [Extent.stop] at *
      omega
    · exact hAp a ha e (mem_cons_of_mem _ h')

theorem cover_insert (A B : List Extent) (p b : Extent) (x : Nat) :
    cover (A ++ pushFront p (pushFront b B)) x = cover (b :: A ++ p :: B) x := by
  simp only [cover_append, cover_pushFront, cover_cons, cons_append]
  omega

theorem exists_le_pushFront_self (b : Extent) (L : List Extent) :
    ∃ e ∈ pushFront b L, b.len ≤ e.len := by
  cases L with
  | nil => exact ⟨b, mem_cons_self, le_rfl⟩
  | cons q L =>
    rw [pushFront_cons]
    split
    · exact ⟨_, mem_cons_self, Nat.le_add_right _ _⟩
    · exact ⟨b, mem_cons_self, le_rfl⟩

theorem exists_le_pushFront (h : e ∈ L) : ∃ f ∈ pushFront b L, e.len ≤ f.len := by
  cases L with
  | nil => simp at h
  | cons q L =>
    rw [pushFront_cons]
    split
    · rcases mem_cons.1 h with rfl | h
      · exact ⟨_, mem_cons_self, Nat.le_add_left _ _⟩
      · exact ⟨e, mem_cons_of_mem _ h, le_rfl⟩
    · exact ⟨e, mem_cons_of_mem _ h, le_rfl⟩

/-- In a sorted list whose first extent starts below `x`, and in which none starts at `x`, there
is a last extent that starts below `x`. -/
theorem exists_last_below {x : Nat} (h : (e :: L).Pairwise (fun a b => a.start < b.start))
    (he : e.start < x) (hx : ∀ f ∈ L, f.start ≠ x) :
    ∃ A p B, e :: L = A ++ p :: B ∧ p.start < x ∧ ∀ q ∈ B, x < q.start := by
  induction L generalizing e with
  | nil => exact ⟨[], e, [], rfl, he, by simp⟩
  | cons f L ih =>
    obtain ⟨hef, hf⟩ := pairwise_cons.1 h
    by_cases hfx : f.start < x
    · obtain ⟨A, p, B, heq, hp, hB⟩ := ih hf hfx fun g hg => hx g (mem_cons_of_mem _ hg)
      exact ⟨e :: A, p, B, by rw [heq, cons_append], hp, hB⟩
    · have hxf : x < f.start := lt_of_le_of_ne (not_lt.1 hfx) (hx f mem_cons_self).symm
      refine ⟨[], e, f :: L, rfl, he, fun q hq => ?_⟩
      rcases mem_cons.1 hq with rfl | hq
      · exact hxf
      · exact hxf.trans ((pairwise_cons.1 hf).1 q hq)

end Extents
