import Mathlib.Tactic
import Mathlib.Logic.Function.Basic

/-!
# Lists of writes to a store

A store is a function from addresses to values; a list of writes is performed from left to right. Redo
logging rests on the fact that the value at a written address does not depend on the store the list is
performed on, so a list may be performed again over any partial copy of itself.
-/

namespace Writes

open Function

variable {α β : Type*}

def addrs (ws : List (α × β)) : List α := ws.map Prod.fst

@[simp] theorem addrs_nil : addrs ([] : List (α × β)) = [] := rfl

@[simp] theorem addrs_cons (w : α × β) (ws : List (α × β)) :
    addrs (w :: ws) = w.1 :: addrs ws := rfl

variable [DecidableEq α]

/-- Perform the writes `ws` on the store `d`, first write first. -/
def perform : List (α × β) → (α → β) → (α → β)
  | [], d => d
  | w :: ws, d => perform ws (update d w.1 w.2)

@[simp] theorem perform_nil (d : α → β) : perform [] d = d := rfl

@[simp] theorem perform_cons (w : α × β) (ws : List (α × β)) (d : α → β) :
    perform (w :: ws) d = perform ws (update d w.1 w.2) := rfl

theorem perform_append (ws vs : List (α × β)) (d : α → β) :
    perform (ws ++ vs) d = perform vs (perform ws d) := by
  induction ws generalizing d with
  | nil => rfl
  | cons w ws ih => exact ih _

variable {ws : List (α × β)}

theorem perform_of_notMem {a : α} (h : a ∉ addrs ws) (d : α → β) : perform ws d a = d a := by
  induction ws generalizing d with
  | nil => rfl
  | cons w ws ih =>
    simp only [addrs_cons, List.mem_cons, not_or] at h
    rw [perform_cons, ih h.2, update_of_ne h.1]

theorem perform_congr {d d' : α → β} {a : α} (h : a ∉ addrs ws → d a = d' a) :
    perform ws d a = perform ws d' a := by
  induction ws generalizing d d' with
  | nil => exact h (by simp)
  | cons w ws ih =>
    rw [perform_cons, perform_cons]
    refine ih fun hws => ?_
    by_cases ha : a = w.1
    · rw [ha, update_self, update_self]
    · rw [update_of_ne ha, update_of_ne ha]
      exact h (by simp [ha, hws])

theorem perform_update_of_mem {a : α} (h : a ∈ addrs ws) (v : β) (d : α → β) :
    perform ws (update d a v) = perform ws d := by
  funext x
  refine perform_congr fun hx => ?_
  have hxa : x ≠ a := fun hxa => hx (by rw [hxa]; exact h)
  rw [update_of_ne hxa]

theorem perform_getElem (hnd : (addrs ws).Nodup) (d : α → β) {i : Nat} (hi : i < ws.length) :
    perform ws d (ws[i]).1 = (ws[i]).2 := by
  induction ws generalizing d i with
  | nil => simp at hi
  | cons w ws ih =>
    rw [addrs_cons, List.nodup_cons] at hnd
    cases i with
    | zero => simp [perform_of_notMem hnd.1]
    | succ i => simpa using ih hnd.2 _ (by simpa using hi)

end Writes
