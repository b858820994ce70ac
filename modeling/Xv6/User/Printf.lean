import Mathlib.Data.UInt
import Xv6.Lib.Bytes

/-!
# Formatted output of user programs (user/printf.c)

The result of a function is the characters it passes to `putc`, and a store outside the 16 bytes
of `printint`'s `buf` leaves no result. An argument is the 64-bit word that `va_arg` finds, of
which an `int` is the low half; arithmetic on `int` wraps, so that `-xx` is defined for every `xx`.
-/

namespace Xv6.Printf

open Option

def digits : List Char :=
  ['0', '1', '2', '3', '4', '5', '6', '7', '8', '9', 'A', 'B', 'C', 'D', 'E', 'F']

def digit (d : Nat) : Char := digits.getD d (Char.ofNat 0)

/-- The loop of `printint` that fills `buf`, of which `room` bytes are left. -/
def fillBuf (base : UInt32) : Nat → UInt32 → List Char → Option (Nat × List Char)
  | 0, _, _ => none
  | room + 1, x, buf =>
    let buf := buf ++ [digit (x % base).toNat]
    if x / base ≠ 0 then fillBuf base room (x / base) buf else some (room, buf)

def printint (xx : Int32) (base : UInt32) (sgn : Bool) : Option (List Char) := do
  let neg := sgn && xx < 0
  let x := if neg then (-xx).toUInt32 else xx.toUInt32
  let (room, buf) ← fillBuf base 16 x []
  if neg then
    if room = 0 then none else some (buf ++ ['-']).reverse
  else
    some buf.reverse

def ptrDigits : Nat → UInt64 → List Char
  | 0, _ => []
  | n + 1, x => digit (x >>> 60).toNat :: ptrDigits n (x <<< 4)

def printptr (x : UInt64) : List Char := '0' :: 'x' :: ptrDigits 16 x

/-- `va_arg(ap, int)`, and the conversion of a `uint64` to `int`. -/
def toInt (v : UInt64) : Int32 := v.toUInt32.toInt32

/-- `vprintf`, where `str` gives the string at an address; `state` is `true` after a `%`. -/
def vprintf (str : UInt64 → List Char) : Bool → List Char → List UInt64 → Option (List Char)
  | _, [], _ => some []
  | false, c :: fmt, ap =>
    if c = '%' then vprintf str true fmt ap else do return c :: (← vprintf str false fmt ap)
  | true, c :: fmt, ap =>
    -- the conversions that take an argument
    let next (f : UInt64 → Option (List Char)) : Option (List Char) :=
      match ap with
      | [] => none
      | v :: ap => do return (← f v) ++ (← vprintf str false fmt ap)
    if c = 'd' then next fun v => printint (toInt v) 10 true
    else if c = 'l' then next fun v => printint (toInt v) 10 false
    else if c = 'x' then next fun v => printint (toInt v) 16 false
    else if c = 'p' then next fun v => some (printptr v)
    else if c = 's' then next fun v =>
      some (if v = 0 then ['(', 'n', 'u', 'l', 'l', ')'] else str v)
    else if c = 'c' then next fun v => some [Char.ofNat (v.toNat % 256)]
    else do
      let out := if c = '%' then [c] else ['%', c]
      return out ++ (← vprintf str false fmt ap)

/-! ## Reading a number -/

/-- A number written in the given base, after what has been read as `acc`. -/
def readNat (base acc : Nat) : List Char → Option Nat
  | [] => some acc
  | c :: s => do
    let d ← digits.idxOf? c
    if d < base then readNat base (acc * base + d) s else none

def readInt : List Char → Option Int
  | '-' :: s => (readNat 10 0 s).map fun n : Nat => -(n : Int)
  | s => (readNat 10 0 s).map Nat.cast

inductive Conv where
  | d | x | p | l
  deriving DecidableEq

def Conv.char : Conv → Char
  | d => 'd'
  | x => 'x'
  | p => 'p'
  | l => 'l'

/-- The value of the argument, in the type that belongs to the conversion. -/
def Conv.value (v : UInt64) : Conv → Int
  | d => (toInt v).toInt
  | x => (toInt v).toUInt32.toNat
  | p | l => v.toNat

def Conv.read (s : List Char) : Conv → Option Int
  | d => readInt s
  | x => (readNat 16 0 s).map Nat.cast
  | l => (readNat 10 0 s).map Nat.cast
  | p => match s with
    | '0' :: 'x' :: s => if s.length = 16 then (readNat 16 0 s).map Nat.cast else none
    | _ => none

theorem idxOf_digit {d : Nat} (h : d < 16) : digits.idxOf? (digit d) = some d := by
  revert d
  decide

theorem readNat_digit {base acc d : Nat} {s : List Char} (hd : d < base) (hbase : base ≤ 16) :
    readNat base acc (digit d :: s) = readNat base (acc * base + d) s := by
  rw [readNat, idxOf_digit (Nat.lt_of_lt_of_le hd hbase)]
  exact if_pos hd

theorem readNat_append {base acc n : Nat} {s t : List Char} (h : readNat base acc s = some n) :
    readNat base acc (s ++ t) = readNat base n t := by
  induction s generalizing acc with
  | nil =>
    cases h
    rfl
  | cons c s ih =>
    simp only [List.cons_append, readNat, bind_eq_bind] at h ⊢
    cases hc : digits.idxOf? c with
    | none => simp [hc] at h
    | some d =>
      simp only [hc, bind_some] at h ⊢
      split_ifs at h ⊢ with hd
      exact ih h

theorem fillBuf_spec {base x : UInt32} {k : Nat} (room : Nat) (buf : List Char) (h2 : 2 ≤ base.toNat)
    (h16 : base.toNat ≤ 16) (hx : x.toNat < base.toNat ^ k) (hk : 0 < k) (hroom : k ≤ room) :
    ∃ ds, fillBuf base room x buf = some (room - ds.length, buf ++ ds) ∧ ds.length ≤ k ∧
      readNat base.toNat 0 ds.reverse = some x.toNat := by
  induction k generalizing x room buf with
  | zero => omega
  | succ k ih =>
    obtain ⟨room, rfl⟩ : ∃ r, room = r + 1 := ⟨room - 1, by omega⟩
    have hmod : (x % base).toNat < base.toNat := by
      rw [UInt32.toNat_mod]
      exact Nat.mod_lt _ (by omega)
    rw [fillBuf]
    by_cases hdiv : x / base = 0
    · refine ⟨[digit (x % base).toNat], by simp [hdiv], by simp, ?_⟩
      have hsmall : x.toNat / base.toNat = 0 := by
        rw [← UInt32.toNat_div, hdiv, UInt32.toNat_zero]
      rw [List.reverse_singleton, readNat_digit hmod h16, readNat, Nat.zero_mul, Nat.zero_add,
        UInt32.toNat_mod, ← Nat.div_add_mod x.toNat base.toNat, hsmall]
      simp
    · have hlt : (x / base).toNat < base.toNat ^ k := by
        rw [UInt32.toNat_div]
        exact Nat.div_lt_of_lt_mul (by rwa [← Nat.pow_succ'])
      have hpos : 0 < k := by
        refine Nat.pos_of_ne_zero fun hk0 => hdiv (UInt32.toNat_inj.mp ?_)
        rw [hk0, Nat.pow_zero] at hlt
        exact Nat.lt_one_iff.mp hlt
      obtain ⟨ds, hfill, hlen, hread⟩ :=
        ih room (buf ++ [digit (x % base).toNat]) hlt hpos (by omega)
      refine ⟨digit (x % base).toNat :: ds, ?_, by simpa using hlen, ?_⟩
      · rw [if_pos hdiv, hfill]
        simp
      · rw [List.reverse_cons, readNat_append hread, readNat_digit hmod h16, readNat,
          UInt32.toNat_div, UInt32.toNat_mod, Nat.div_add_mod']

theorem readInt_of_readNat {s : List Char} {n : Nat} (h : readNat 10 0 s = some n) :
    readInt s = some (n : Int) := by
  fun_cases readInt s with
  | case1 s => simp [readNat, digits, List.idxOf?, List.findIdx?, List.findIdx?.go] at h
  | case2 s => rw [h, map_some]

/-- The bases in use are large enough for `buf` to hold 32 bits and a sign. -/
theorem printint_unsigned (xx : Int32) (base : UInt32) (h16 : base.toNat ≤ 16)
    (hbase : 2 ^ 32 ≤ base.toNat ^ 15) (h2 : 2 ≤ base.toNat) :
    ∃ s, printint xx base false = some s ∧ readNat base.toNat 0 s = some xx.toUInt32.toNat := by
  obtain ⟨ds, hfill, -, hread⟩ := fillBuf_spec 16 [] h2 h16
    (Nat.lt_of_lt_of_le xx.toUInt32.toNat_lt hbase) (by omega) (by omega)
  refine ⟨ds.reverse, ?_, hread⟩
  simp [printint, hfill]

theorem toNat_neg_of_neg {xx : Int32} (h : xx < 0) :
    ((-xx).toUInt32.toNat : Int) = -xx.toInt := by
  have hneg : xx.toInt < 0 := Int32.lt_iff_toInt_lt.mp h
  have hx := Bytes.toNat_toUInt32 xx
  have hlo := xx.le_toInt
  rw [if_pos hneg] at hx
  rw [Int32.toUInt32_neg, UInt32.toNat_neg]
  simp only [UInt32.size]
  omega

theorem toNat_of_nonneg {xx : Int32} (h : ¬xx < 0) : (xx.toUInt32.toNat : Int) = xx.toInt := by
  have hneg : ¬xx.toInt < 0 := fun hneg => h (Int32.lt_iff_toInt_lt.mpr hneg)
  rw [Bytes.toNat_toUInt32, if_neg hneg]

theorem printint_signed (xx : Int32) :
    ∃ s, printint xx 10 true = some s ∧ readInt s = some xx.toInt := by
  have hfits : ∀ x : UInt32, x.toNat < (10 : UInt32).toNat ^ 15 :=
    fun x => Nat.lt_trans x.toNat_lt (by decide)
  by_cases h : xx < 0
  · obtain ⟨ds, hfill, hlen, hread⟩ := fillBuf_spec 16 [] (by decide) (by decide)
      (hfits (-xx).toUInt32) (by omega) (by omega)
    have hroom : 16 - ds.length ≠ 0 := by omega
    refine ⟨'-' :: ds.reverse, ?_, ?_⟩
    · simp only [printint, h, decide_true, Bool.and_self, if_true, hfill, bind_eq_bind,
        bind_some, if_neg hroom, List.nil_append, List.reverse_append,
        List.reverse_singleton, List.singleton_append]
    · have hread' : readNat 10 0 ds.reverse = some (-xx).toUInt32.toNat := hread
      rw [readInt, hread', map_some, toNat_neg_of_neg h, neg_neg]
  · obtain ⟨ds, hfill, -, hread⟩ := fillBuf_spec 16 [] (by decide) (by decide)
      (hfits xx.toUInt32) (by omega) (by omega)
    refine ⟨ds.reverse, ?_, ?_⟩
    · simp [printint, h, hfill]
    · rw [readInt_of_readNat hread, toNat_of_nonneg h]

theorem readNat_ptrDigits {k : Nat} (hk : k ≤ 16) (acc : Nat) (x : UInt64) :
    readNat 16 acc (ptrDigits k x) = some (acc * 16 ^ k + x.toNat / 2 ^ (64 - 4 * k)) := by
  induction k generalizing acc x with
  | zero => simp [ptrDigits, readNat, Nat.div_eq_of_lt x.toNat_lt]
  | succ k ih =>
    have hx := x.toNat_lt
    have htop : (x >>> 60).toNat = x.toNat / 2 ^ 60 := by
      rw [UInt64.toNat_shiftRight]
      exact Nat.shiftRight_eq_div_pow ..
    have hrest : (x <<< 4).toNat = x.toNat % 2 ^ 60 * 2 ^ 4 := by
      rw [UInt64.toNat_shiftLeft, show (4 : UInt64).toNat % 64 = 4 from rfl, Nat.shiftLeft_eq]
      omega
    rw [ptrDigits, readNat_digit (by omega) (by omega), ih (by omega), htop, hrest]
    have hpow : (2 : Nat) ^ (64 - 4 * k) = 2 ^ (64 - 4 * (k + 1)) * 2 ^ 4 := by
      rw [← Nat.pow_add]
      congr 1
      omega
    have hsplit : (2 : Nat) ^ 60 = 2 ^ (64 - 4 * (k + 1)) * 16 ^ k := by
      rw [show (16 : Nat) = 2 ^ 4 from rfl, ← Nat.pow_mul, ← Nat.pow_add]
      congr 1
      omega
    have hdiv := Nat.div_add_mod' x.toNat (2 ^ 60)
    generalize x.toNat / 2 ^ 60 = a at hdiv ⊢
    generalize x.toNat % 2 ^ 60 = r at hdiv ⊢
    rw [← hdiv, hpow, Nat.mul_div_mul_right _ _ (by decide), hsplit, Nat.mul_left_comm,
      Nat.mul_add_div (Nat.two_pow_pos _), some_inj]
    ring

theorem length_ptrDigits (k : Nat) (x : UInt64) : (ptrDigits k x).length = k := by
  induction k generalizing x with
  | zero => rfl
  | succ k ih => rw [ptrDigits, List.length_cons, ih]

/-- What the conversions of integers print can be read back, except that `%l` prints only the low
half of its argument. -/
theorem vprintf_reads_back_iff (str : UInt64 → List Char) (c : Conv) (v : UInt64) :
    ∃ s, vprintf str false ['%', c.char] [v] = some s ∧
      (c.read s = some (c.value v) ↔ (c = .l → v.toNat < 2 ^ 32)) := by
  cases c with
  | d =>
    obtain ⟨s, hprint, hread⟩ := printint_signed (toInt v)
    exact ⟨s, by simp [vprintf, Conv.char, hprint], by simp [Conv.read, Conv.value, hread]⟩
  | x =>
    obtain ⟨s, hprint, hread⟩ := printint_unsigned (toInt v) 16 (by decide) (by decide)
      (by decide)
    have hread' : readNat 16 0 s = some (toInt v).toUInt32.toNat := hread
    exact ⟨s, by simp [vprintf, Conv.char, hprint], by simp [Conv.read, Conv.value, hread']⟩
  | p =>
    have hread := readNat_ptrDigits (Nat.le_refl 16) 0 v
    refine ⟨printptr v, by simp [vprintf, Conv.char], ?_⟩
    simp [Conv.read, Conv.value, printptr, length_ptrDigits, hread]
  | l =>
    obtain ⟨s, hprint, hread⟩ := printint_unsigned (toInt v) 10 (by decide) (by decide)
      (by decide)
    have hread' : readNat 10 0 s = some (v.toNat % 2 ^ 32) := hread
    refine ⟨s, by simp [vprintf, Conv.char, hprint], ?_⟩
    simp only [Conv.read, Conv.value, hread', map_some, some_inj, forall_const]
    have := v.toNat_lt
    omega

theorem vprintf_l_truncates :
    vprintf (fun _ => []) false ['%', 'l'] [2 ^ 32] = some ['0'] ∧
      Conv.l.read ['0'] ≠ some (Conv.l.value (2 ^ 32)) := by
  decide

end Xv6.Printf
