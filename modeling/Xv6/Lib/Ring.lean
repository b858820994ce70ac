import Mathlib.Tactic

/-!
# Rings with free-running counters

An array of `N` cells used as a queue. The counters of what was put in and taken out are never
reset: a position is reduced modulo `N` when a cell is accessed, and the counters themselves wrap
at a multiple of `N`.

* **`contents`** — the `len` cells from position `start` on, as a list.
* `contents_push`, `contents_pop` and `contents_snoc` say what the two ends do to that list.
-/

namespace Ring

open Function List

variable {α : Type*} {data : Nat → α} {N start len : Nat}

/-- The `len` cells from position `start` on. -/
def contents (data : Nat → α) (N start len : Nat) : List α :=
  (List.range len).map fun i => data ((start + i) % N)

@[simp] theorem length_contents (data : Nat → α) (N start len : Nat) :
    (contents data N start len).length = len := by
  simp [contents]

@[simp] theorem contents_zero (data : Nat → α) (N start : Nat) : contents data N start 0 = [] := rfl

theorem contents_congr {start' : Nat} (h : start % N = start' % N) :
    contents data N start len = contents data N start' len := by
  refine map_congr_left fun i _ => ?_
  rw [Nat.add_mod, h, ← Nat.add_mod]

theorem contents_snoc (data : Nat → α) (N start len : Nat) :
    contents data N start (len + 1) = contents data N start len ++ [data ((start + len) % N)] := by
  rw [contents, range_succ, map_append]
  rfl

theorem contents_pop (data : Nat → α) (N start len : Nat) :
    contents data N start (len + 1) = data (start % N) :: contents data N (start + 1) len := by
  rw [contents, range_succ_eq_map, map_cons, map_map]
  refine congrArg (data (start % N) :: ·) (map_congr_left fun i _ => ?_)
  show data ((start + (i + 1)) % N) = data ((start + 1 + i) % N)
  rw [Nat.add_right_comm, Nat.add_assoc]

theorem contents_add (data : Nat → α) (N start m n : Nat) :
    contents data N start (m + n) = contents data N start m ++ contents data N (start + m) n := by
  induction n with
  | zero => simp
  | succ n ih =>
    rw [← Nat.add_assoc, contents_snoc, contents_snoc, ih, append_assoc, Nat.add_assoc]

theorem mod_ne_of_lt {i : Nat} (hi : i < len) (hlen : len < N) :
    (start + i) % N ≠ (start + len) % N := by
  intro h
  have hdvd : N ∣ (start + len) - (start + i) := (Nat.modEq_iff_dvd' (by omega)).mp h
  have hle := Nat.le_of_dvd (by omega) hdvd
  omega

theorem contents_push (data : Nat → α) (start : Nat) (hlen : len < N) (c : α) :
    contents (update data ((start + len) % N) c) N start (len + 1)
      = contents data N start len ++ [c] := by
  rw [contents_snoc, update_self]
  refine congrArg (· ++ [c]) (map_congr_left fun i hi => ?_)
  rw [update_of_ne (mod_ne_of_lt (mem_range.mp hi) hlen)]

/-! ### Counters of 32 bits -/

theorem toNat_add_mod (hN : N ∣ 2 ^ 32) (a b : UInt32) :
    (a + b).toNat % N = (a.toNat + b.toNat) % N := by
  rw [UInt32.toNat_add, Nat.mod_mod_of_dvd _ hN]

theorem toNat_add_sub (a b : UInt32) : (a.toNat + (b - a).toNat) % 2 ^ 32 = b.toNat := by
  have ha := a.toNat_lt
  have hb := b.toNat_lt
  rw [UInt32.toNat_sub]
  omega

theorem mod_add_sub (hN : N ∣ 2 ^ 32) (a b : UInt32) :
    (a.toNat + (b - a).toNat) % N = b.toNat % N := by
  rw [← toNat_add_sub a b, Nat.mod_mod_of_dvd _ hN]

/-! ### Queues between two counters of 16 bits -/

def queue (data : Nat → α) (N : Nat) (head tail : UInt16) : List α :=
  contents data N head.toNat (tail - head).toNat

variable {head tail : UInt16}

theorem length_queue : (queue data N head tail).length = (tail - head).toNat :=
  length_contents _ _ _ _

@[simp] theorem queue_self : queue data N head head = [] := by simp [queue]

theorem toNat_tail_mod (hN : N ∣ 2 ^ 16) :
    tail.toNat % N = (head.toNat + (tail - head).toNat) % N := by
  have h : (head.toNat + (tail - head).toNat) % 2 ^ 16 = tail.toNat := by
    have := head.toNat_lt
    have := tail.toNat_lt
    rw [UInt16.toNat_sub]
    omega
  rw [← h, Nat.mod_mod_of_dvd _ hN]

/-- Writing to the cell at the tail of a queue that is not full leaves the queue as it is. -/
theorem queue_write (hN : N ∣ 2 ^ 16) (hroom : (queue data N head tail).length < N) (c : α) :
    queue (update data (tail.toNat % N) c) N head tail = queue data N head tail := by
  rw [length_queue] at hroom
  rw [toNat_tail_mod hN]
  refine map_congr_left fun i hi => ?_
  rw [update_of_ne (mod_ne_of_lt (mem_range.mp hi) hroom)]

theorem queue_snoc (hN : N ∣ 2 ^ 16) (hlt : N < 2 ^ 16) (hroom : (queue data N head tail).length < N) :
    queue data N head (tail + 1) = queue data N head tail ++ [data (tail.toNat % N)] := by
  rw [length_queue] at hroom
  have hlen : (tail + 1 - head).toNat = (tail - head).toNat + 1 := by
    rw [UInt16.toNat_sub] at hroom ⊢
    rw [UInt16.toNat_sub, UInt16.toNat_add]
    have := head.toNat_lt
    have := tail.toNat_lt
    simp only [UInt16.reduceToNat] at *
    omega
  rw [queue, hlen, contents_snoc, ← toNat_tail_mod hN]
  rfl

theorem queue_pop (hN : N ∣ 2 ^ 16) (hne : head ≠ tail) :
    queue data N head tail = data (head.toNat % N) :: queue data N (head + 1) tail := by
  have hnat : head.toNat ≠ tail.toNat := fun h => hne (UInt16.toNat_inj.mp h)
  have hlen : (tail - head).toNat = (tail - (head + 1)).toNat + 1 := by
    rw [UInt16.toNat_sub, UInt16.toNat_sub, UInt16.toNat_add]
    have := head.toNat_lt
    have := tail.toNat_lt
    simp only [UInt16.reduceToNat] at *
    omega
  rw [queue, hlen, contents_pop]
  refine congrArg (data (head.toNat % N) :: ·) (contents_congr ?_)
  rw [UInt16.toNat_add, Nat.mod_mod_of_dvd _ hN]
  rfl

end Ring
