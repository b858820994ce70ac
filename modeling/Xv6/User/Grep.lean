import Mathlib.Data.List.Forall2
import Mathlib.Logic.Function.Basic

/-!
# grep (user/grep.c)

To the matcher a C string is the list of its characters before the terminating NUL, so to step a
pointer is to drop the first character and to find the NUL is to find the list empty.
-/

namespace Xv6.Grep

open Function List

/-! ## The matcher -/

/-- The loop of `matchstar`, over the test that the rest of the pattern makes at each position. -/
def starLoop (c : Char) (rest : List Char → Bool) : List Char → Bool
  | [] => rest []
  | t :: text => rest (t :: text) || ((t == c || c == '.') && starLoop c rest text)

def matchhere : List Char → List Char → Bool
  | [], _ => true
  | c :: '*' :: re, text => starLoop c (matchhere re) text
  | ['$'], text => text.isEmpty
  | c :: re, t :: text => (c == '.' || c == t) && matchhere re text
  | _ :: _, [] => false

def matchstar (c : Char) (re text : List Char) : Bool :=
  starLoop c (matchhere re) text

/-- The loop of `match`, which also looks at the empty string. -/
def matchFrom (re : List Char) : List Char → Bool
  | [] => matchhere re []
  | t :: text => matchhere re (t :: text) || matchFrom re text

def «match» : List Char → List Char → Bool
  | '^' :: re, text => matchhere re text
  | re, text => matchFrom re text

/-! ## The pattern language -/

/-- An item of a pattern: a character, and whether a `*` follows it. -/
structure Item where
  char : Char
  star : Bool

structure Pattern where
  -- It begins with `^`.
  first : Bool
  items : List Item
  -- It ends with `$`.
  last : Bool

/-- The items of a pattern after the `^`, and whether a `$` ends them. A `*` with nothing before it,
a `$` with something after it and a `^` are characters like any other. -/
def readItems : List Char → List Item × Bool
  | [] => ([], false)
  | c :: '*' :: re => (⟨c, true⟩ :: (readItems re).1, (readItems re).2)
  | ['$'] => ([], true)
  | c :: re => (⟨c, false⟩ :: (readItems re).1, (readItems re).2)

def Pattern.read : List Char → Pattern
  | '^' :: re => ⟨true, (readItems re).1, (readItems re).2⟩
  | re => ⟨false, (readItems re).1, (readItems re).2⟩

/-- The characters that the character of an item stands for. -/
def Item.Fits (i : Item) (x : Char) : Prop :=
  i.char = '.' ∨ i.char = x

def Item.Accepts (i : Item) (w : List Char) : Prop :=
  (∀ x ∈ w, i.Fits x) ∧ (i.star = false → w.length = 1)

def Spells (items : List Item) (w : List Char) : Prop :=
  ∃ parts, w = List.flatten parts ∧ List.Forall₂ Item.Accepts items parts

/-- Some part of the text is spelled by the pattern, where its anchors allow. -/
def Pattern.Matches (p : Pattern) (text : List Char) : Prop :=
  ∃ before w after, text = before ++ w ++ after ∧ Spells p.items w ∧
    (p.first = true → before = []) ∧ (p.last = true → after = [])

/-! ## What the matcher decides -/

variable {w : List Char}

theorem spells_nil : Spells [] w ↔ w = [] := by
  simp [Spells]

theorem spells_cons {i : Item} {items : List Item} :
    Spells (i :: items) w ↔ ∃ u v, w = u ++ v ∧ i.Accepts u ∧ Spells items v := by
  constructor
  · intro ⟨parts, hw, hparts⟩
    cases hparts with
    | cons hu hrest => exact ⟨_, _, hw, hu, _, rfl, hrest⟩
  · intro ⟨u, v, hw, hu, parts, hv, hrest⟩
    exact ⟨u :: parts, by rw [hw, hv, flatten_cons], .cons hu hrest⟩

theorem Item.accepts_star {c : Char} : Item.Accepts ⟨c, true⟩ w ↔ ∀ x ∈ w, x = c ∨ c = '.' := by
  simp [Item.Accepts, Item.Fits, or_comm, eq_comm]

theorem Item.accepts_one {c : Char} :
    Item.Accepts ⟨c, false⟩ w ↔ ∃ x, w = [x] ∧ (c = '.' ∨ c = x) := by
  simp only [Item.Accepts, Item.Fits, forall_const, length_eq_one_iff]
  constructor
  · rintro ⟨hall, x, rfl⟩
    exact ⟨x, rfl, hall x mem_cons_self⟩
  · rintro ⟨x, rfl, hx⟩
    simpa using hx

theorem starLoop_iff (c : Char) (rest : List Char → Bool) (text : List Char) :
    starLoop c rest text = true ↔
      ∃ u v, text = u ++ v ∧ Item.Accepts ⟨c, true⟩ u ∧ rest v = true := by
  simp only [Item.accepts_star]
  induction text with
  | nil => simp [starLoop]
  | cons t text ih =>
    simp only [starLoop, Bool.or_eq_true, Bool.and_eq_true, beq_iff_eq, ih]
    constructor
    · rintro (h | ⟨ht, u, v, rfl, hu, hv⟩)
      · exact ⟨[], t :: text, rfl, by simp, h⟩
      · exact ⟨t :: u, v, rfl, by simpa using ⟨ht, hu⟩, hv⟩
    · rintro ⟨u, v, huv, hu, hv⟩
      cases u with
      | nil => exact .inl (by rwa [huv])
      | cons x u =>
        cases huv
        exact .inr ⟨hu t mem_cons_self, u, v, rfl,
          fun x hx => hu x (mem_cons_of_mem t hx), hv⟩

theorem matchhere_iff (re text : List Char) :
    matchhere re text = true ↔
      ∃ w after, text = w ++ after ∧ Spells (readItems re).1 w ∧
        ((readItems re).2 = true → after = []) := by
  fun_induction readItems re generalizing text with
  | case1 => simp [matchhere, spells_nil]
  | case2 c re ih =>
    simp only [matchhere, starLoop_iff, spells_cons, ih]
    constructor
    · rintro ⟨u, v, rfl, hu, w, after, rfl, hw, hlast⟩
      exact ⟨u ++ w, after, by simp, ⟨u, w, rfl, hu, hw⟩, hlast⟩
    · rintro ⟨_, after, rfl, ⟨u, w, rfl, hu, hw⟩, hlast⟩
      exact ⟨u, w ++ after, by simp, hu, w, after, rfl, hw, hlast⟩
  | case3 => simp [matchhere, spells_nil]
  | case4 c re hstar hend ih =>
    simp only [spells_cons, Item.accepts_one]
    cases text with
    | nil =>
      simp only [matchhere, Bool.false_eq_true, false_iff]
      rintro ⟨_, after, htext, ⟨_, v, rfl, ⟨x, rfl, -⟩, -⟩, -⟩
      cases htext
    | cons t text =>
      simp only [matchhere, Bool.and_eq_true, Bool.or_eq_true, beq_iff_eq, ih]
      constructor
      · rintro ⟨ht, w, after, rfl, hw, hlast⟩
        exact ⟨t :: w, after, rfl, ⟨[t], w, rfl, ⟨t, rfl, ht⟩, hw⟩, hlast⟩
      · rintro ⟨_, after, htext, ⟨_, w, rfl, ⟨x, rfl, hx⟩, hw⟩, hlast⟩
        cases htext
        exact ⟨hx, w, after, rfl, hw, hlast⟩

theorem matchFrom_iff (re text : List Char) :
    matchFrom re text = true ↔ ∃ before rest, text = before ++ rest ∧ matchhere re rest = true := by
  induction text with
  | nil => simp [matchFrom]
  | cons t text ih =>
    simp only [matchFrom, Bool.or_eq_true, ih]
    constructor
    · rintro (h | ⟨before, rest, rfl, h⟩)
      · exact ⟨[], t :: text, rfl, h⟩
      · exact ⟨t :: before, rest, rfl, h⟩
    · rintro ⟨before, rest, htext, h⟩
      cases before with
      | nil => exact .inl (by rwa [htext])
      | cons x before =>
        cases htext
        exact .inr ⟨before, rest, rfl, h⟩

/-- `match` says whether the pattern matches the text: the recursion of `matchhere` and `matchstar`
over the characters agrees with the meaning of the pattern as a list of items. -/
theorem match_iff_matches (re text : List Char) :
    «match» re text = true ↔ (Pattern.read re).Matches text := by
  unfold Pattern.Matches
  fun_cases Pattern.read re with
  | case1 re =>
    simp only [«match», matchhere_iff, forall_const]
    constructor
    · rintro ⟨w, after, rfl, hw, hlast⟩
      exact ⟨[], w, after, rfl, hw, rfl, hlast⟩
    · rintro ⟨_, w, after, rfl, hw, rfl, hlast⟩
      exact ⟨w, after, rfl, hw, hlast⟩
  | case2 re hfirst =>
    simp only [«match», matchFrom_iff, matchhere_iff, Bool.false_eq_true, false_implies, true_and]
    constructor
    · rintro ⟨before, _, rfl, w, after, rfl, hw, hlast⟩
      exact ⟨before, w, after, (append_assoc ..).symm, hw, hlast⟩
    · rintro ⟨before, w, after, rfl, hw, hlast⟩
      exact ⟨before, w ++ after, append_assoc .., w, after, rfl, hw, hlast⟩

end Xv6.Grep
