import Mathlib.Tactic

/-!
# Programs that can fail

Code over an explicit state, written as a sequence of calls that may each fail. A run that returns is
taken apart call by call with `bind_ok`; for programs there is `wp`.
-/

namespace Prog

universe u

section Except

variable {ε : Type*} {α β : Type u}

/-- A sequence returns exactly when its first call does and the rest then does. -/
theorem bind_ok {x : Except ε α} {f : α → Except ε β} {b : β} :
    x >>= f = .ok b ↔ ∃ a, x = .ok a ∧ f a = .ok b := by
  cases x with
  | error | ok => simp [bind, Except.bind]

theorem ok_of_map {x : Except ε α} {f : α → β} {b : β} (h : x.map f = .ok b) :
    ∃ a, x = .ok a ∧ f a = b := by
  cases x with
  | error e => cases h
  | ok a =>
    cases h
    exact ⟨a, rfl, rfl⟩

theorem ok_of_map_fst {x : Except ε (α × β)} {a : α} (h : x.map Prod.fst = .ok a) :
    ∃ b, x = .ok (a, b) := by
  obtain ⟨r, hr, rfl⟩ := ok_of_map h
  exact ⟨r.2, hr⟩

end Except

abbrev Act (σ ε : Type u) (α : Type u) : Type u := StateT σ (Except ε) α

section Wp

variable {σ ε α β : Type u} {E : ε → Prop} {s : σ} {Q : α → σ → Prop} {R : β → σ → Prop}

/-- From state `s`, program `c` returns with `Q`, or fails with an error in `E`. There is one rule
for each way to compose programs; a caller uses what is known of a callee through `wp_bind`. -/
def wp (E : ε → Prop) (c : Act σ ε α) (Q : α → σ → Prop) (s : σ) : Prop :=
  match c.run s with
  | .ok (a, s') => Q a s'
  | .error e => E e

variable {c : Act σ ε α}

theorem wp_iff :
    wp E c Q s ↔ (∀ a s', c.run s = .ok (a, s') → Q a s') ∧ ∀ e, c.run s = .error e → E e := by
  unfold wp
  cases c.run s with
  | error e => simp
  | ok r =>
    refine ⟨fun h => ⟨?_, by simp⟩, fun h => h.1 r.1 r.2 rfl⟩
    rintro a s' hr
    cases hr
    exact h

variable {Q' : α → σ → Prop}

/-- The rule of consequence. -/
theorem wp.mono {E' : ε → Prop} (h : wp E c Q s) (hQ : ∀ a s', Q a s' → Q' a s')
    (hE : ∀ e, E e → E' e) : wp E' c Q' s := by
  rw [wp_iff] at h ⊢
  exact ⟨fun a s' hrun => hQ a s' (h.1 a s' hrun), fun e hrun => hE e (h.2 e hrun)⟩

theorem wp.call (h : wp E c Q s) (hQ : ∀ a s', Q a s' → Q' a s') : wp E c Q' s :=
  h.mono hQ fun _ he => he

theorem wp.and {E' : ε → Prop} (h : wp E c Q s) (h' : wp E' c Q' s) :
    wp E c (fun a s' => Q a s' ∧ Q' a s') s := by
  rw [wp_iff] at h h' ⊢
  exact ⟨fun a s' hrun => ⟨h.1 a s' hrun, h'.1 a s' hrun⟩, h.2⟩

theorem wp_of_run {a : α} {s' : σ} (hrun : c.run s = .ok (a, s')) : wp E c Q s ↔ Q a s' := by
  unfold wp
  rw [hrun]

theorem wp.run (h : wp E c Q s) :
    wp (fun e => E e ∧ c.run s = .error e) c (fun a s' => Q a s' ∧ c.run s = .ok (a, s')) s := by
  rw [wp_iff] at h ⊢
  exact ⟨fun a s' hrun => ⟨h.1 a s' hrun, hrun⟩, fun e hrun => ⟨h.2 e hrun, hrun⟩⟩

theorem wp.returns (h : wp (fun _ => False) c Q s) : ∃ a s', c.run s = .ok (a, s') ∧ Q a s' := by
  unfold wp at h
  cases hrun : c.run s with
  | error e =>
    rw [hrun] at h
    exact h.elim
  | ok r =>
    rw [hrun] at h
    exact ⟨r.1, r.2, rfl, h⟩

/-- The rule of composition. -/
theorem wp_bind {f : α → Act σ ε β} : wp E (c >>= f) R s ↔ wp E c (fun a => wp E (f a) R) s := by
  unfold wp
  rw [StateT.run_bind]
  cases c.run s with
  | error | ok => exact Iff.rfl

theorem wp_pure {a : α} : wp E (pure a : Act σ ε α) Q s ↔ Q a s := Iff.rfl

theorem wp_get {Q : σ → σ → Prop} : wp E (get : Act σ ε σ) Q s ↔ Q s s := Iff.rfl

theorem wp_throw {e : ε} : wp E (throw e : Act σ ε α) Q s ↔ E e := Iff.rfl

theorem wp_ite {P : Prop} [Decidable P] {d : Act σ ε α} :
    wp E (if P then c else d) Q s ↔ (P → wp E c Q s) ∧ (¬ P → wp E d Q s) := by
  split <;> simp_all

/-- The rule of loops: `I rest` holds when the elements of `rest` are still to come. -/
theorem wp.forM {l : List α} {f : α → Act σ ε PUnit} {I : List α → σ → Prop}
    (hstep : ∀ a rest s, I (a :: rest) s → wp E (f a) (fun _ => I rest) s) (h : I l s) :
    wp E (l.forM f) (fun _ => I []) s := by
  induction l generalizing s with
  | nil => exact h
  | cons a rest ih =>
    show wp E (f a >>= fun _ => rest.forM f) _ s
    rw [wp_bind]
    exact (hstep a rest s h).call fun _ s' h' => ih h'

end Wp

section Fixes

variable {σ ε α β : Type u} {γ : Type*} {f : σ → γ}

/-- The program leaves `f` of the state alone. -/
structure Fixes (f : σ → γ) (c : Act σ ε α) : Prop where
  spec : ∀ s, wp (fun _ => True) c (fun _ s' => f s' = f s) s

theorem Fixes.pure (a : α) : Fixes f (Pure.pure a : Act σ ε α) := ⟨fun _ => rfl⟩

theorem Fixes.throw (e : ε) : Fixes f (throw e : Act σ ε α) := ⟨fun _ => trivial⟩

theorem Fixes.bind {c : Act σ ε α} {g : α → Act σ ε β} (h : Fixes f c) (hg : ∀ a, Fixes f (g a)) :
    Fixes f (c >>= g) := by
  refine ⟨fun s => ?_⟩
  rw [wp_bind]
  refine (h.spec s).call fun a s1 h1 => ((hg a).spec s1).call fun _ s' h' => ?_
  rw [h', h1]

theorem Fixes.ite {P : Prop} [Decidable P] {c d : Act σ ε α} (hc : Fixes f c) (hd : Fixes f d) :
    Fixes f (if P then c else d) := by
  split
  · exact hc
  · exact hd

theorem Fixes.forM {l : List α} {g : α → Act σ ε PUnit} (h : ∀ a, Fixes f (g a)) :
    Fixes f (l.forM g) := by
  induction l with
  | nil => exact .pure _
  | cons a rest ih => exact (h a).bind fun _ => ih

theorem Fixes.and {c : Act σ ε α} (h : Fixes f c) {E : ε → Prop} {Q : α → σ → Prop} {s : σ}
    (hc : wp E c Q s) : wp E c (fun a s' => Q a s' ∧ f s' = f s) s :=
  hc.and (h.spec s)

end Fixes

section Within

variable {σ τ ε δ α : Type u} {E : ε → Prop} {s : σ} {Q : α → σ → Prop}

/-- A program that works on a part of the state; `f` renames its errors. -/
def within (get : σ → τ) (set : τ → σ → σ) (f : δ → ε) (c : Act τ δ α) : Act σ ε α := fun s =>
  match c.run (get s) with
  | .ok (a, t) => .ok (a, set t s)
  | .error e => .error (f e)

theorem wp_within {get : σ → τ} {set : τ → σ → σ} {f : δ → ε} {c : Act τ δ α} :
    wp E (within get set f c) Q s
      ↔ wp (fun e => E (f e)) c (fun a t => Q a (set t s)) (get s) := by
  unfold wp within StateT.run
  dsimp only
  cases c (get s) with
  | error | ok => exact Iff.rfl

end Within

end Prog
