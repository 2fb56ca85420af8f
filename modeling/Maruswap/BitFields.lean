import Mathlib.Tactic.Common
import Mathlib.Data.Nat.Bitwise

/-!
# Fields of a machine word

A word holds a high field over a low one of `k` bits. Shifts and masks that put
the fields in and take them out are products, quotients and remainders by `2^k`
of the numbers the words stand for.
-/

set_option autoImplicit false

namespace BitFields

variable {n : ℕ}

def mask (n k : ℕ) : BitVec n := BitVec.ofNat n (2^k-1)

theorem toNat_mask (x : BitVec n) (k : ℕ) (hk : k ≤ n) :
    (x &&& mask n k).toNat = x.toNat % 2^k := by
  have hp : 2^k ≤ 2^n := Nat.pow_le_pow_right (by decide) hk
  have hpos : 0 < 2^k := Nat.two_pow_pos k
  rw [mask, BitVec.toNat_and, BitVec.toNat_ofNat, Nat.mod_eq_of_lt (by omega),
    Nat.and_two_pow_sub_one_eq_mod]

/-- The field of `len` bits that starts at bit `lo`. -/
def field (lo len : ℕ) (x : BitVec n) : BitVec n := (x >>> lo) &&& mask n len

theorem toNat_high (x : BitVec n) (k : ℕ) : (x >>> k).toNat = x.toNat / 2^k := by
  rw [BitVec.toNat_ushiftRight, Nat.shiftRight_eq_div_pow]

theorem toNat_field (lo len : ℕ) (x : BitVec n) (h : len ≤ n) :
    (field lo len x).toNat = x.toNat / 2^lo % 2^len := by
  rw [field, toNat_mask _ len h, toNat_high]

theorem toNat_shift_left (x : BitVec n) (k : ℕ) (h : x.toNat*2^k < 2^n) :
    (x <<< k).toNat = x.toNat*2^k := by
  rw [BitVec.toNat_shiftLeft, Nat.shiftLeft_eq, Nat.mod_eq_of_lt h]

def pack (k : ℕ) (high low : BitVec n) : BitVec n := (high <<< k) ||| low

theorem toNat_pack (k : ℕ) (high low : BitVec n) (hh : high.toNat*2^k < 2^n)
    (hl : low.toNat < 2^k) : (pack k high low).toNat = high.toNat*2^k+low.toNat := by
  rw [pack, BitVec.toNat_or, toNat_shift_left high k hh, Nat.mul_comm]
  exact (Nat.two_pow_add_eq_or_of_lt hl _).symm

theorem pack_high (k : ℕ) (high low : BitVec n) (hh : high.toNat*2^k < 2^n)
    (hl : low.toNat < 2^k) : pack k high low >>> k = high := by
  apply BitVec.eq_of_toNat_eq
  rw [toNat_high, toNat_pack k high low hh hl, Nat.mul_comm,
    Nat.mul_add_div (Nat.two_pow_pos k), Nat.div_eq_of_lt hl, Nat.add_zero]

end BitFields
