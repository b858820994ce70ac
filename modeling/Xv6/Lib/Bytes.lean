import Mathlib.Tactic

/-!
# Bytes, little-endian words and copies

A byte memory is a function `Nat → UInt8`. `getLE` reads a `k`-byte little-endian word,
`putLE` stores one, `blit` copies a range of bytes in. Each of the two stores changes
nothing outside its range, and reading back what was stored gives the value modulo
`256 ^ k`; these are all a reader of a packed format needs.
-/

namespace Bytes

/-- The `k`-byte little-endian word at offset `off`. -/
def getLE (f : Nat → UInt8) (off : Nat) : Nat → Nat
  | 0 => 0
  | k + 1 => (f off).toNat + 256 * getLE f (off + 1) k

/-- Store the low `k` bytes of `v` at offset `off`, least significant byte first. -/
def putLE (f : Nat → UInt8) (off k v : Nat) : Nat → UInt8 :=
  fun i => if off ≤ i ∧ i < off + k then UInt8.ofNat (v / 256 ^ (i - off)) else f i

/-- Copy `n` bytes of `src`, taken from its start, to offset `off`. -/
def blit (f : Nat → UInt8) (off n : Nat) (src : Nat → UInt8) : Nat → UInt8 :=
  fun i => if off ≤ i ∧ i < off + n then src (i - off) else f i

theorem getLE_lt (f : Nat → UInt8) (off k : Nat) : getLE f off k < 256 ^ k := by
  induction k generalizing off with
  | zero => simp [getLE]
  | succ k ih =>
    have hbyte := (f off).toNat_lt
    have hrest := ih (off + 1)
    simp only [getLE, pow_succ]
    omega

variable {f : Nat → UInt8}

variable {off k : Nat}

theorem getLE_congr {g : Nat → UInt8} (h : ∀ i, off ≤ i → i < off + k → f i = g i) :
    getLE f off k = getLE g off k := by
  induction k generalizing off with
  | zero => rfl
  | succ k ih =>
    simp only [getLE]
    rw [h off (by omega) (by omega), ih fun i hi hik => h i (by omega) (by omega)]

variable {v i : Nat}

theorem putLE_of_lt (h : i < off) : putLE f off k v i = f i := if_neg (by omega)

theorem putLE_of_ge (h : off + k ≤ i) :
    putLE f off k v i = f i := if_neg (by omega)

/-- Reading back a stored word. Induction on the width: the first byte is `v % 256`, the
others are the word `v / 256` stored one byte further on. -/
theorem getLE_putLE (f : Nat → UInt8) (off k v : Nat) :
    getLE (putLE f off k v) off k = v % 256 ^ k := by
  induction k generalizing f off v with
  | zero => simp [getLE, Nat.mod_one]
  | succ k ih =>
    have hhead : putLE f off (k + 1) v off = UInt8.ofNat v := by simp [putLE]
    have htail : getLE (putLE f off (k + 1) v) (off + 1) k
        = getLE (putLE f (off + 1) k (v / 256)) (off + 1) k := by
      refine getLE_congr fun i hi hik => ?_
      have hpow : i - off = (i - (off + 1)) + 1 := by omega
      simp only [putLE, if_pos (show off ≤ i ∧ i < off + (k + 1) by omega),
        if_pos (show off + 1 ≤ i ∧ i < off + 1 + k by omega)]
      rw [hpow, pow_succ', Nat.div_div_eq_div_mul]
    simp only [getLE]
    rw [hhead, htail, ih, pow_succ', Nat.mod_mul]
    simp

theorem getLE_eq (h : ∀ i, i < k → f (off + i) = UInt8.ofNat (v / 256 ^ i)) :
    getLE f off k = v % 256 ^ k := by
  rw [← getLE_putLE f off k v]
  refine getLE_congr fun i hi hik => ?_
  have hbyte := h (i - off) (by omega)
  rw [Nat.add_sub_cancel' hi] at hbyte
  rw [hbyte, putLE, if_pos ⟨hi, hik⟩]

theorem getLE_putLE_disjoint {off' k' : Nat} (h : off' + k' ≤ off ∨ off + k ≤ off') :
    getLE (putLE f off k v) off' k' = getLE f off' k' := by
  refine getLE_congr fun i hi hik => ?_
  rcases h with h | h
  · exact putLE_of_lt (by omega)
  · exact putLE_of_ge (by omega)

variable {src : Nat → UInt8}

theorem blit_of_mem {n : Nat} (h : off ≤ i ∧ i < off + n) :
    blit f off n src i = src (i - off) := if_pos h

theorem blit_of_notMem {n : Nat} (h : i < off ∨ off + n ≤ i) :
    blit f off n src i = f i := if_neg (by omega)

theorem getLE_shift {g : Nat → UInt8} {off' : Nat} (h : ∀ i, i < k → f (off + i) = g (off' + i)) :
    getLE f off k = getLE g off' k := by
  induction k generalizing off off' with
  | zero => rfl
  | succ k ih =>
    have hrest : getLE f (off + 1) k = getLE g (off' + 1) k := ih fun i hi => by
      rw [show off + 1 + i = off + (i + 1) by omega, show off' + 1 + i = off' + (i + 1) by omega]
      exact h (i + 1) (by omega)
    simp only [getLE]
    rw [hrest, show f off = g off' from h 0 (Nat.succ_pos k)]

theorem getLE_blit (f src : Nat → UInt8) (off n : Nat) :
    getLE (blit f off n src) off n = getLE src 0 n := by
  refine getLE_shift fun i hi => ?_
  rw [blit_of_mem (by omega), Nat.add_sub_cancel_left, Nat.zero_add]

theorem getLE_blit_disjoint {n off' : Nat} (h : off' + k ≤ off ∨ off + n ≤ off') :
    getLE (blit f off n src) off' k = getLE f off' k :=
  getLE_congr fun i hi hik => blit_of_notMem (by omega)

theorem toNat_add_ofNat_sub (addr : UInt64) {j : Nat} (hj : j < 2 ^ 64) :
    (addr + UInt64.ofNat j - addr).toNat = j := by
  have := addr.toNat_lt
  rw [UInt64.toNat_sub, UInt64.toNat_add, UInt64.toNat_ofNat']
  omega

theorem toNat_toUInt32 (n : Int32) :
    (n.toUInt32.toNat : Int) = if n.toInt < 0 then n.toInt + 2 ^ 32 else n.toInt := by
  have hlt := n.toBitVec.isLt
  rw [← Int32.toInt_toBitVec, BitVec.toInt_eq_toNat_cond,
    show n.toUInt32.toNat = n.toBitVec.toNat from rfl]
  split <;> split <;> omega

end Bytes
