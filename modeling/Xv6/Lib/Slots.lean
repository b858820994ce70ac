import Mathlib.Data.List.Basic
import Mathlib.Data.List.Nodup

/-!
# A map kept in slots

A finite map stored as a list of slots, each empty or with a key and a value.
-/

namespace Slots

variable {κ ν : Type*} [DecidableEq κ]

/-- The first slot with key `k`, and the value in it. -/
def find (k : κ) : List (Option (κ × ν)) → Option (Nat × ν)
  | [] => none
  | none :: rest => (find k rest).map (Prod.map (· + 1) id)
  | some (k', v) :: rest => if k' = k then some (0, v) else (find k rest).map (Prod.map (· + 1) id)

/-- The first empty slot, or the number of slots if there is none. -/
def free (l : List (Option (κ × ν))) : Nat := l.findIdx Option.isNone

/-- Fill slot `n`, which may be the one after the last. -/
def fill (l : List (Option (κ × ν))) (n : Nat) (x : κ × ν) : List (Option (κ × ν)) :=
  if n < l.length then l.set n (some x) else l ++ [some x]

/-- Put the key and the value in the first empty slot, or in a new one. -/
def add (k : κ) (v : ν) (l : List (Option (κ × ν))) : List (Option (κ × ν)) := fill l (free l) (k, v)

def get (k : κ) (l : List (Option (κ × ν))) : Option ν := (find k l).map Prod.snd

/-- No key is in two slots. Then adding a new key and emptying a slot change the map at that key
only. -/
def Unique (l : List (Option (κ × ν))) : Prop :=
  ∀ (i j : Nat) k v w, l[i]? = some (some (k, v)) → l[j]? = some (some (k, w)) → i = j

variable {l : List (Option (κ × ν))} {k k' : κ} {v w : ν} {i : Nat}

theorem find_cons_self (rest : List (Option (κ × ν))) : find k (some (k, v) :: rest) = some (0, v) :=
  if_pos rfl

theorem find_cons_of_ne {a : Option (κ × ν)} {rest : List (Option (κ × ν))}
    (ha : ∀ w, a ≠ some (k, w)) : find k (a :: rest) = (find k rest).map (Prod.map (· + 1) id) := by
  cases a with
  | none => rfl
  | some a => exact if_neg fun hk => ha a.2 (by rw [← hk])

omit [DecidableEq κ] in
theorem free_cons_some (x : κ × ν) (rest : List (Option (κ × ν))) :
    free (some x :: rest) = free rest + 1 := by
  unfold free
  rw [List.findIdx_cons]
  rfl

theorem find_eq_none : find k l = none ↔ ∀ (j : Nat) w, l[j]? ≠ some (some (k, w)) := by
  induction l with
  | nil => simp [find]
  | cons a rest ih =>
    have hcons : (∀ (j : Nat) w, (a :: rest)[j]? ≠ some (some (k, w)))
        ↔ (∀ w, a ≠ some (k, w)) ∧ ∀ (j : Nat) w, rest[j]? ≠ some (some (k, w)) := by
      refine ⟨fun h => ⟨fun w hw => h 0 w (by rw [hw]; rfl), fun j w => h (j + 1) w⟩, fun h j w => ?_⟩
      cases j with
      | zero => simpa using h.1 w
      | succ j => exact h.2 j w
    rw [hcons, ← ih]
    cases a with
    | none => simp [find]
    | some a =>
      obtain ⟨k', v⟩ := a
      by_cases hk : k' = k
      · simp [find, hk]
      · simp [find, hk]

theorem find_eq_some : find k l = some (i, v) ↔
    l[i]? = some (some (k, v)) ∧ ∀ j, j < i → ∀ w, l[j]? ≠ some (some (k, w)) := by
  induction l generalizing i with
  | nil => simp [find]
  | cons a rest ih =>
    -- past the first slot, which is not the one
    have hskip (ha : ∀ w, a ≠ some (k, w)) :
        (find k rest).map (Prod.map (· + 1) id) = some (i, v) ↔
          (a :: rest)[i]? = some (some (k, v)) ∧
            ∀ j, j < i → ∀ w, (a :: rest)[j]? ≠ some (some (k, w)) := by
      cases i with
      | zero =>
        refine iff_of_false ?_ fun h => ha v (by simpa using h.1)
        simp [Prod.map]
      | succ i =>
        have hmap : (find k rest).map (Prod.map (· + 1) id) = some (i + 1, v)
            ↔ find k rest = some (i, v) := by
          cases find k rest with
          | none => simp
          | some r => simp [Prod.ext_iff]
        rw [hmap, ih]
        refine and_congr_right fun _ => ⟨fun h j hj w => ?_, fun h j hj w => h (j + 1) (by omega) w⟩
        cases j with
        | zero => simpa using ha w
        | succ j => exact h j (by omega) w
    cases a with
    | none => exact hskip fun w hw => by cases hw
    | some a =>
      obtain ⟨k', v'⟩ := a
      by_cases hk : k' = k
      · subst hk
        rw [find, if_pos rfl]
        cases i with
        | zero => simp
        | succ i =>
          refine ⟨fun h => (by cases h), fun h => ?_⟩
          exact absurd rfl (h.2 0 (Nat.succ_pos i) v')
      · rw [find, if_neg hk]
        exact hskip fun w hw => hk (by cases hw; rfl)

theorem find_lt (h : find k l = some (i, v)) : i < l.length :=
  (List.getElem?_eq_some_iff.mp (find_eq_some.mp h).1).1

theorem Unique.find_eq (h : Unique l) (hi : l[i]? = some (some (k, v))) : find k l = some (i, v) :=
  find_eq_some.mpr ⟨hi, fun j hj w hw => Nat.ne_of_lt hj (h j i k w v hw hi)⟩

theorem get_eq_none : get k l = none ↔ ∀ (j : Nat) w, l[j]? ≠ some (some (k, w)) := by
  rw [get, Option.map_eq_none_iff, find_eq_none]

theorem Unique.get_eq_some (h : Unique l) :
    get k l = some v ↔ ∃ i : Nat, l[i]? = some (some (k, v)) := by
  refine ⟨fun hget => ?_, fun ⟨i, hi⟩ => by rw [get, h.find_eq hi]; rfl⟩
  obtain ⟨⟨i, w⟩, hfind, rfl⟩ := Option.map_eq_some_iff.mp hget
  exact ⟨i, (find_eq_some.mp hfind).1⟩

theorem Unique.get_congr {l' : List (Option (κ × ν))} (h : Unique l) (h' : Unique l')
    (hsame : ∀ w, (∃ i : Nat, l'[i]? = some (some (k, w))) ↔ ∃ i : Nat, l[i]? = some (some (k, w))) :
    get k l' = get k l := by
  refine Option.ext fun w => ?_
  rw [h'.get_eq_some, h.get_eq_some, hsame]

omit [DecidableEq κ] in
theorem unique_of_nodup (h : (l.filterMap (Option.map Prod.fst)).Nodup) : Unique l := by
  rw [List.Nodup, List.pairwise_filterMap, List.pairwise_iff_getElem] at h
  have hno {i j : Nat} {k : κ} {v w : ν} (hi : l[i]? = some (some (k, v)))
      (hj : l[j]? = some (some (k, w))) (hlt : i < j) : False := by
    obtain ⟨hi', hi⟩ := List.getElem?_eq_some_iff.mp hi
    obtain ⟨hj', hj⟩ := List.getElem?_eq_some_iff.mp hj
    exact h i j hi' hj' hlt k (by rw [hi]; rfl) k (by rw [hj]; rfl) rfl
  intro i j k v w hi hj
  by_contra hne
  rcases Nat.lt_or_gt_of_ne hne with hlt | hgt
  · exact hno hi hj hlt
  · exact hno hj hi hgt

/-! ### Emptying a slot -/

omit [DecidableEq κ] in
theorem getElem?_clear {j : Nat} {x : κ × ν} :
    (l.set i none)[j]? = some (some x) ↔ j ≠ i ∧ l[j]? = some (some x) := by
  rw [List.getElem?_set]
  by_cases hij : i = j
  · subst hij
    simp
  · simp [hij, Ne.symm hij]

omit [DecidableEq κ] in
theorem Unique.cleared (h : Unique l) (i : Nat) : Unique (l.set i none) := by
  intro a b k v w ha hb
  exact h a b k v w (getElem?_clear.mp ha).2 (getElem?_clear.mp hb).2

theorem Unique.get_clear (h : Unique l) (hfind : find k l = some (i, v)) (k' : κ) :
    get k' (l.set i none) = if k' = k then none else get k' l := by
  have hi := (find_eq_some.mp hfind).1
  by_cases hk : k' = k
  · subst hk
    rw [if_pos rfl, get_eq_none]
    intro j w hj
    obtain ⟨hne, hj⟩ := getElem?_clear.mp hj
    exact hne (h j i k' w v hj hi)
  · rw [if_neg hk]
    refine h.get_congr (h.cleared i) fun w => exists_congr fun j => ?_
    rw [getElem?_clear, and_iff_right_of_imp]
    rintro hj rfl
    rw [hi] at hj
    cases hj
    exact hk rfl

/-! ### Adding a key -/

omit [DecidableEq κ] in
theorem free_le : free l ≤ l.length := List.findIdx_le_length

omit [DecidableEq κ] in
theorem getElem?_free (x : κ × ν) : l[free l]? ≠ some (some x) := by
  intro h
  obtain ⟨hlt, heq⟩ := List.getElem?_eq_some_iff.mp h
  have hnone : (l[free l]).isNone = true := List.findIdx_getElem (w := hlt)
  rw [heq] at hnone
  cases hnone

omit [DecidableEq κ] in
theorem getElem?_add {j : Nat} {x : κ × ν} :
    (add k v l)[j]? = some (some x) ↔ j = free l ∧ x = (k, v) ∨ l[j]? = some (some x) := by
  have hfree := getElem?_free (l := l) x
  unfold add fill
  split
  · rename_i hlt
    by_cases hj : j = free l
    · rw [hj, List.getElem?_set_self hlt, or_iff_left hfree]
      simp [eq_comm]
    · rw [List.getElem?_set_ne (Ne.symm hj), or_iff_right fun h => hj h.1]
  · rename_i hge
    have hend : free l = l.length := Nat.le_antisymm free_le (Nat.not_lt.mp hge)
    rw [hend] at hfree ⊢
    by_cases hj : j = l.length
    · rw [hj, List.getElem?_concat_length, or_iff_left hfree]
      simp [eq_comm]
    · rw [or_iff_right fun h => hj h.1]
      rcases Nat.lt_or_gt_of_ne hj with hlt | hgt
      · rw [List.getElem?_append_left hlt]
      · rw [List.getElem?_eq_none (by simpa using Nat.succ_le_of_lt hgt),
          List.getElem?_eq_none (Nat.le_of_lt hgt)]

omit [DecidableEq κ] in
theorem free_lt_add : free l + 1 ≤ (add k v l).length := by
  unfold add fill
  split
  · rename_i hlt
    rw [List.length_set]
    exact hlt
  · rw [List.length_append]
    exact Nat.succ_le_succ free_le

theorem Unique.added (h : Unique l) (hnew : find k l = none) (v : ν) : Unique (add k v l) := by
  have hno := find_eq_none.mp hnew
  intro a b k' v' w' ha hb
  rcases getElem?_add.mp ha with ⟨hfree, hka⟩ | hla
  · obtain ⟨rfl, rfl⟩ := Prod.mk.inj hka
    rcases getElem?_add.mp hb with ⟨hfree', -⟩ | hlb
    · rw [hfree, hfree']
    · exact absurd hlb (hno b w')
  · rcases getElem?_add.mp hb with ⟨-, hkb⟩ | hlb
    · obtain ⟨rfl, rfl⟩ := Prod.mk.inj hkb
      exact absurd hla (hno a v')
    · exact h a b k' v' w' hla hlb

theorem Unique.get_add (h : Unique l) (hnew : find k l = none) (v : ν) (k' : κ) :
    get k' (add k v l) = if k' = k then some v else get k' l := by
  have h' := h.added hnew v
  by_cases hk : k' = k
  · subst hk
    rw [if_pos rfl, h'.get_eq_some]
    exact ⟨free l, getElem?_add.mpr (.inl ⟨rfl, rfl⟩)⟩
  · rw [if_neg hk]
    refine h.get_congr h' fun w => exists_congr fun j => ?_
    rw [getElem?_add, or_iff_right]
    rintro ⟨-, heq⟩
    cases heq
    exact hk rfl

end Slots
