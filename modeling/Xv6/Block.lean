import Mathlib.Tactic
import Xv6.Lib.Bytes
import Xv6.Param

/-!
# Disk blocks

A block is `BSIZE` bytes (`uchar data[BSIZE]` of `struct buf`). The kernel reads structured
blocks by casting `b->data`, so the structured views are little-endian reads of those bytes:
`Block.word` is `((uint*)b->data)[i]`. The byte-level facts come from `Bytes`; this module
adds the bound at `BSIZE`.
-/

namespace Xv6

def Block : Type := Fin BSIZE → UInt8

instance : DecidableEq Block := inferInstanceAs (DecidableEq (Fin BSIZE → UInt8))

namespace Block

/-- Byte `i` of the block; positions past the end read as zero. -/
def byte (b : Block) (i : Nat) : UInt8 := if h : i < BSIZE then b ⟨i, h⟩ else 0

/-- The block with the first `BSIZE` bytes of `f`. -/
def ofFn (f : Nat → UInt8) : Block := fun i => f i.val

def zero : Block := fun _ => 0

/-- `((uint*)b->data)[i]`. -/
def word (b : Block) (i : Nat) : Nat := Bytes.getLE b.byte (4 * i) 4

/-- `((uint*)b->data)[i] = v`. -/
def setWord (b : Block) (i v : Nat) : Block := ofFn (Bytes.putLE b.byte (4 * i) 4 v)

theorem byte_ofFn {f : Nat → UInt8} {i : Nat} (h : i < BSIZE) : (ofFn f).byte i = f i := by
  simp [byte, ofFn, h]

theorem ext_byte {b c : Block} (h : ∀ i, i < BSIZE → b.byte i = c.byte i) : b = c := by
  funext i
  have hi := h i.val i.isLt
  simpa [byte, i.isLt] using hi

@[simp] theorem byte_zero (i : Nat) : zero.byte i = 0 := by
  simp [byte, zero]

theorem getLE_ofFn {f : Nat → UInt8} {off k : Nat} (h : off + k ≤ BSIZE) :
    Bytes.getLE (ofFn f).byte off k = Bytes.getLE f off k :=
  Bytes.getLE_congr fun _ _ hik => byte_ofFn (by omega)

theorem word_setWord {b : Block} {i v : Nat} (hi : 4 * i + 4 ≤ BSIZE) (hv : v < 2 ^ 32) :
    (b.setWord i v).word i = v := by
  rw [word, setWord, getLE_ofFn hi, Bytes.getLE_putLE]
  exact Nat.mod_eq_of_lt (by simpa using hv)

theorem word_of_ge {b : Block} {i : Nat} (hi : BSIZE ≤ 4 * i) : b.word i = 0 := by
  have h : Bytes.getLE b.byte (4 * i) 4 = 0 % 256 ^ 4 := Bytes.getLE_eq fun k _ => by
    have hge : ¬ 4 * i + k < BSIZE := by omega
    simp [byte, hge]
  simpa [word] using h

theorem word_setWord_ne {b : Block} {i j v : Nat} (hj : 4 * j + 4 ≤ BSIZE) (hne : i ≠ j) :
    (b.setWord i v).word j = b.word j := by
  rw [word, setWord, getLE_ofFn hj, Bytes.getLE_putLE_disjoint (by omega)]
  rfl

end Block

end Xv6
