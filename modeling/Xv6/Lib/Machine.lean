import Mathlib.Tactic

/-!
# Labelled machines and their invariants

A `Machine` is a set of initial states and a labelled step relation. `Reachable` closes the initial
states under steps, and an invariant is proved once per machine, by `Reachable.invariant`.
-/

namespace Machines

/-- A labelled transition system: initial states and a step relation. -/
structure Machine (State Label : Type*) where
  init : State → Prop
  step : State → Label → State → Prop

variable {State Label : Type*}

inductive Reachable (m : Machine State Label) : State → Prop where
  | start {s : State} (h : m.init s) : Reachable m s
  | next {s s' : State} {l : Label} (hs : Reachable m s) (h : m.step s l s') : Reachable m s'

/-- The machine with the steps that do not meet `C` (a condition on the state before the step and on
the label) left out. A statement "in every run whose steps meet the condition" is a statement about
the reachable states of the restriction. -/
def Machine.restrict (m : Machine State Label) (C : State → Label → Prop) :
    Machine State Label where
  init := m.init
  step s l s' := C s l ∧ m.step s l s'

/-- **The invariant rule.** What holds initially and is preserved by every step that starts
in a reachable state holds in every reachable state. -/
theorem Reachable.invariant {m : Machine State Label} {I : State → Prop}
    (hinit : ∀ s, m.init s → I s)
    (hstep : ∀ s l s', Reachable m s → I s → m.step s l s' → I s')
    {s : State} (h : Reachable m s) : I s := by
  induction h with
  | start h => exact hinit _ h
  | next hs h ih => exact hstep _ _ _ hs ih h

theorem Reachable.of_restrict {m : Machine State Label} {C : State → Label → Prop} {s : State}
    (h : Reachable (m.restrict C) s) : Reachable m s := by
  induction h with
  | start h => exact .start h
  | next _ h ih => exact ih.next h.2

theorem Reachable.restrict_mono {m : Machine State Label} {C D : State → Label → Prop}
    (hCD : ∀ s l, C s l → D s l) {s : State} (h : Reachable (m.restrict C) s) :
    Reachable (m.restrict D) s := by
  induction h with
  | start h => exact .start h
  | next _ h ih => exact ih.next ⟨hCD _ _ h.1, h.2⟩

theorem Reachable.go {m : Machine State Label} {C : State → Label → Prop} {s s' : State}
    (h : Reachable (m.restrict C) s) (l : Label) (hC : C s l) (hstep : m.step s l s') :
    Reachable (m.restrict C) s' := h.next ⟨hC, hstep⟩

/-- A machine whose steps `f` computes, run along a schedule. -/
theorem Reachable.schedule {m : Machine State Label} {f : State → Label → Option State}
    (hf : ∀ s l s', f s l = some s' → m.step s l s') {s s' : State} {ls : List Label}
    (hs : Reachable m s) (h : ls.foldlM f s = some s') : Reachable m s' := by
  induction ls generalizing s with
  | nil =>
    cases h
    exact hs
  | cons l ls ih =>
    rw [List.foldlM_cons] at h
    obtain ⟨s1, hl, hls⟩ := Option.bind_eq_some_iff.mp h
    exact ih (hs.next (hf _ _ _ hl)) hls

/-! What is found in an updated function is new, or was there at another place before. -/

section Update

variable {α β : Type*} [DecidableEq α] {f : α → β} {i j : α} {v : β}

theorem update_cases {C : β → Prop} (h : C (Function.update f i v j)) :
    j = i ∧ C v ∨ j ≠ i ∧ C (f j) := by
  rcases eq_or_ne j i with rfl | hj
  · rw [Function.update_self] at h
    exact .inl ⟨rfl, h⟩
  · rw [Function.update_of_ne hj] at h
    exact .inr ⟨hj, h⟩

theorem update_eq_cases {b : β} (h : Function.update f i v j = b) :
    j = i ∧ v = b ∨ j ≠ i ∧ f j = b := update_cases (C := (· = b)) h

theorem update_unseen {γ : Type*} {g : β → γ} (h : g v = g (f i)) :
    g (Function.update f i v j) = g (f j) := by
  rw [Function.apply_update fun _ => g, h]
  exact congrFun (Function.update_eq_self i fun k => g (f k)) j

end Update

end Machines
