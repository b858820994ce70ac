import Mathlib.Tactic

/-!
# memmove

`memmove` of kernel/string.c and of user/ulib.c, over a memory of bytes with 64-bit addresses. The
pointers wrap as they do in the machine. A loop moves its range when no byte is written before it is
read; how far apart the ranges are, going round the address space from one to the other, decides that.
-/

namespace Xv6.Memmove

abbrev Addr := BitVec 64

abbrev Memory := Addr → UInt8

/-- `while(n-- > 0) *d++ = *s++;` -/
def copyUp (m : Memory) (d s : Addr) : Nat → Memory
  | 0 => m
  | n + 1 => copyUp (Function.update m d (m s)) (d + 1) (s + 1) n

/-- `while(n-- > 0) *--d = *--s;` -/
def copyDown (m : Memory) (d s : Addr) : Nat → Memory
  | 0 => m
  | n + 1 => copyDown (Function.update m (d - 1) (m (s - 1))) (d - 1) (s - 1) n

/-- `memmove` in kernel/string.c: the memory it leaves and what it returns. -/
def KString.memmove (m : Memory) (dst src : Addr) (n : BitVec 32) : Memory × Addr :=
  if n = 0 then (m, dst)
  else if src < dst ∧ src + n.setWidth 64 > dst then
    (copyDown m (dst + n.setWidth 64) (src + n.setWidth 64) n.toNat, dst)
  else (copyUp m dst src n.toNat, dst)

/-- `memmove` in user/ulib.c, where `n` is an `int`. -/
def Ulib.memmove (m : Memory) (vdst vsrc : Addr) (n : BitVec 32) : Memory × Addr :=
  if vsrc > vdst then (copyUp m vdst vsrc n.toInt.toNat, vdst)
  else (copyDown m (vdst + n.signExtend 64) (vsrc + n.signExtend 64) n.toInt.toNat, vdst)

/-- The `n` bytes at `src` have come to `dst`, and no other byte has changed: what is at an address
depends on how far above `dst` it is. -/
def Moved (m : Memory) (dst src : Addr) (n : Nat) (m' : Memory) : Prop :=
  ∀ a, m' a = if (a - dst).toNat < n then m (src + (a - dst)) else m a

variable {m : Memory} {d s : Addr} {n : Nat}

/-- Going up is right unless the destination begins inside the source, above its first byte. -/
theorem copyUp_moved (hn : n ≤ 2 ^ 64) (hsep : d = s ∨ n ≤ (d - s).toNat) :
    Moved m d s n (copyUp m d s n) := by
  induction n generalizing m d s with
  | zero => exact fun a => (if_neg (Nat.not_lt_zero _)).symm
  | succ n ih =>
    intro a
    have hnext : s + 1 + (a - (d + 1)) = s + (a - d) := by bv_omega
    have hsep' : d + 1 = s + 1 ∨ n ≤ (d + 1 - (s + 1)).toNat := by bv_omega
    rw [copyUp, ih (by omega) hsep' a, hnext]
    by_cases ha : a = d
    · -- the byte that is written first
      subst ha
      have hafter : ¬ (a - (a + 1)).toNat < n := by bv_omega
      rw [if_neg hafter, if_pos (by bv_omega), Function.update_self, BitVec.sub_self,
        BitVec.add_zero]
    · rw [Function.update_of_ne ha]
      by_cases hin : (a - d).toNat < n + 1
      · have hunread : s + (a - d) ≠ d := by bv_omega
        rw [if_pos (by bv_omega), if_pos hin, Function.update_of_ne hunread]
      · rw [if_neg (by bv_omega), if_neg hin]

/-- Going down is right unless the source begins inside the destination, above its first byte. -/
theorem copyDown_moved (hn : n ≤ 2 ^ 64) (hsep : d = s ∨ n ≤ (s - d).toNat) :
    Moved m d s n (copyDown m (d + BitVec.ofNat 64 n) (s + BitVec.ofNat 64 n) n) := by
  induction n generalizing m with
  | zero => exact fun a => (if_neg (Nat.not_lt_zero _)).symm
  | succ n ih =>
    intro a
    have hpred : ∀ p : Addr, p + BitVec.ofNat 64 (n + 1) - 1 = p + BitVec.ofNat 64 n := by
      intro p
      bv_omega
    rw [copyDown, hpred, hpred, ih (by omega) (hsep.imp_right Nat.le_of_succ_le) a]
    by_cases ha : a = d + BitVec.ofNat 64 n
    · -- the byte that is written first
      subst ha
      have hlast : (d + BitVec.ofNat 64 n - d).toNat = n := by bv_omega
      have hsrc : s + (d + BitVec.ofNat 64 n - d) = s + BitVec.ofNat 64 n := by bv_omega
      rw [if_neg (by omega), if_pos (by omega), Function.update_self, hsrc]
    · rw [Function.update_of_ne ha]
      by_cases hin : (a - d).toNat < n
      · have hunread : s + (a - d) ≠ d + BitVec.ofNat 64 n := by bv_omega
        rw [if_pos hin, if_pos (by omega), Function.update_of_ne hunread]
      · rw [if_neg hin, if_neg (by bv_omega)]

/-! ### The two functions -/

section

variable {dst src : Addr} {n : BitVec 32}

theorem KString.memmove_moved (hdst : dst.toNat + n.toNat ≤ 2 ^ 64)
    (hsrc : src.toNat + n.toNat ≤ 2 ^ 64) :
    Moved m dst src n.toNat (KString.memmove m dst src n).1 := by
  have hn : n.toNat ≤ 2 ^ 64 := by omega
  have hwide : n.setWidth 64 = BitVec.ofNat 64 n.toNat := by bv_omega
  unfold KString.memmove
  split_ifs with hzero hdown
  · subst hzero
    exact fun a => (if_neg (Nat.not_lt_zero _)).symm
  · rw [hwide]
    exact copyDown_moved hn (by bv_omega)
  · exact copyUp_moved hn (by bv_omega)

theorem Ulib.memmove_moved (hpos : 0 ≤ n.toInt) (hdst : dst.toNat + n.toNat ≤ 2 ^ 64)
    (hsrc : src.toNat + n.toNat ≤ 2 ^ 64) :
    Moved m dst src n.toNat (Ulib.memmove m dst src n).1 := by
  have hn : n.toNat ≤ 2 ^ 64 := by omega
  have hmsb : n.msb = false := by
    rw [BitVec.msb_eq_toInt, decide_eq_false (not_lt.2 hpos)]
  have hint : n.toInt.toNat = n.toNat := by
    rw [BitVec.toInt_eq_toNat_of_msb hmsb, Int.toNat_natCast]
  have hwide : n.signExtend 64 = BitVec.ofNat 64 n.toNat := by
    rw [BitVec.signExtend_eq_setWidth_of_msb_false hmsb]
    bv_omega
  unfold Ulib.memmove
  rw [hint, hwide]
  split_ifs with hup
  · exact copyUp_moved hn (by bv_omega)
  · exact copyDown_moved hn (by bv_omega)

/-- The destination range holds what the source range held, and no byte outside it has changed. -/
structure Copied (m : Memory) (dst src : Addr) (n : Nat) (m' : Memory) : Prop where
  inside : ∀ i < n, m' (dst + BitVec.ofNat 64 i) = m (src + BitVec.ofNat 64 i)
  outside : ∀ a, a.toNat < dst.toNat ∨ dst.toNat + n ≤ a.toNat → m' a = m a

theorem Moved.copied {m' : Memory} {k : Nat} (h : Moved m dst src k m')
    (hdst : dst.toNat + k ≤ 2 ^ 64) : Copied m dst src k m' where
  inside i hi := by
    have hoff : dst + BitVec.ofNat 64 i - dst = BitVec.ofNat 64 i := by bv_omega
    rw [h, hoff, if_pos (by bv_omega)]
  outside a ha := by
    rw [h, if_neg (by bv_omega)]

end

/-- **`memmove`.** When neither range wraps, both functions copy the source as it was, however the
ranges overlap, and change nothing else; so they agree. -/
theorem memmove_copies (m : Memory) (dst src : Addr) (n : BitVec 32)
    (hdst : dst.toNat + n.toNat ≤ 2 ^ 64) (hsrc : src.toNat + n.toNat ≤ 2 ^ 64) :
    Copied m dst src n.toNat (KString.memmove m dst src n).1 ∧
      (0 ≤ n.toInt → Copied m dst src n.toNat (Ulib.memmove m dst src n).1 ∧
        Ulib.memmove m dst src n = KString.memmove m dst src n) := by
  have hkernel : Moved m dst src n.toNat (KString.memmove m dst src n).1 :=
    KString.memmove_moved hdst hsrc
  refine ⟨hkernel.copied hdst, fun hpos => ?_⟩
  have huser : Moved m dst src n.toNat (Ulib.memmove m dst src n).1 :=
    Ulib.memmove_moved hpos hdst hsrc
  refine ⟨huser.copied hdst, Prod.ext (funext fun a => (huser a).trans (hkernel a).symm) ?_⟩
  -- both return the destination
  unfold Ulib.memmove KString.memmove
  split_ifs <;> rfl

/-- Three bytes moved up by one. -/
theorem memmove_copies_up_one :
    (KString.memmove (fun a => UInt8.ofNat a.toNat) 1 0 3).1 3 = 2 ∧
      (Ulib.memmove (fun a => UInt8.ofNat a.toNat) 1 0 3).1 3 = 2 := by
  have h := memmove_copies (fun a => UInt8.ofNat a.toNat) 1 0 3 (by decide) (by decide)
  exact ⟨h.1.inside 2 (by decide), (h.2 (by decide)).1.inside 2 (by decide)⟩

end Xv6.Memmove
