import Mathlib.Algebra.Group.Nat.Defs
import Mathlib.Data.Set.Lattice
import Mathlib.Order.CompletePartialOrder

/-!
# Byte ranges in an address space

Addresses are words of `n` bits, and a range may run over the end of the address
space. Ranges at known distances from one base compare like intervals of numbers,
as long as they end within one turn of the space.
-/

set_option autoImplicit false

namespace ByteRanges

variable {n : ℕ}

/-- The `len` addresses from `a` on. -/
def bytes (a : BitVec n) (len : ℕ) : Set (BitVec n) := {x | (x-a).toNat < len}

/-- The range of `len` bytes that begins `off` bytes behind the base. -/
def part (base : BitVec n) (off len : ℕ) : Set (BitVec n) :=
  bytes (base+BitVec.ofNat n off) len

theorem part_zero (base : BitVec n) (len : ℕ) : part base 0 len = bytes base len := by
  simp [part]

theorem mem_part (base x : BitVec n) {off len : ℕ} (h : off+len ≤ 2^n) :
    x ∈ part base off len ↔ off ≤ (x-base).toNat ∧ (x-base).toNat < off+len := by
  have hx : x-(base+BitVec.ofNat n off) = (x-base)-BitVec.ofNat n off := by
    rw [BitVec.sub_eq_add_neg, BitVec.neg_add, BitVec.sub_eq_add_neg, BitVec.sub_eq_add_neg,
      BitVec.sub_eq_add_neg x base, ← BitVec.add_assoc]
  have hy := (x-base).isLt
  rw [part, bytes, Set.mem_ofPred_eq, hx, BitVec.toNat_sub, BitVec.toNat_ofNat]
  generalize (x-base).toNat = y at hy ⊢
  generalize 2^n = N at h hy ⊢
  rcases Nat.lt_or_ge off N with ho | ho
  · rw [Nat.mod_eq_of_lt ho]
    rcases Nat.lt_or_ge y off with hlt | hge
    · rw [Nat.mod_eq_of_lt (by omega)]
      omega
    · rw [show N-off+y = N+(y-off) by omega, Nat.add_mod_left, Nat.mod_eq_of_lt (by omega)]
      omega
  · have hz : len = 0 := by omega
    subst hz
    omega

theorem distance (base : BitVec n) {k : ℕ} (h : k < 2^n) :
    (base+BitVec.ofNat n k-base).toNat = k := by
  rw [BitVec.add_comm, BitVec.add_sub_cancel, BitVec.toNat_ofNat, Nat.mod_eq_of_lt h]

theorem part_subset_iff (base : BitVec n) {a b len size : ℕ} (hlen : 0 < len)
    (ha : a+len ≤ 2^n) (hb : b+size ≤ 2^n) :
    part base a len ⊆ part base b size ↔ b ≤ a ∧ a+len ≤ b+size := by
  constructor
  · intro h
    have hin : ∀ k, a ≤ k → k < a+len → b ≤ k ∧ k < b+size := by
      intro k hk hk'
      have hd := distance base (show k < 2^n by omega)
      have hmem := h ((mem_part base _ ha).mpr (by rw [hd]; exact ⟨hk,hk'⟩))
      rwa [mem_part base _ hb, hd] at hmem
    have hfirst := hin a (by omega) (by omega)
    have hlast := hin (a+len-1) (by omega) (by omega)
    omega
  · rintro ⟨hba,hab⟩ x hx
    rw [mem_part base _ ha] at hx
    rw [mem_part base _ hb]
    omega

theorem part_disjoint_iff (base : BitVec n) {a b len size : ℕ} (hlen : 0 < len)
    (hsize : 0 < size) (ha : a+len ≤ 2^n) (hb : b+size ≤ 2^n) :
    Disjoint (part base a len) (part base b size) ↔ a+len ≤ b ∨ b+size ≤ a := by
  rw [Set.disjoint_left]
  constructor
  · intro h
    by_contra hc
    have hd := distance base (show max a b < 2^n by omega)
    have hin : base+BitVec.ofNat n (max a b) ∈ part base a len := by
      rw [mem_part base _ ha, hd]
      omega
    have hin' : base+BitVec.ofNat n (max a b) ∈ part base b size := by
      rw [mem_part base _ hb, hd]
      omega
    exact h hin hin'
  · intro h x hx hx'
    rw [mem_part base _ ha] at hx
    rw [mem_part base _ hb] at hx'
    omega

def slot (base : BitVec n) (size i : ℕ) : Set (BitVec n) := part base (i*size) size

theorem slots_disjoint (base : BitVec n) {size i j : ℕ} (hsize : 0 < size)
    (hi : (i+1)*size ≤ 2^n) (hj : (j+1)*size ≤ 2^n) (h : i ≠ j) :
    Disjoint (slot base size i) (slot base size j) := by
  rw [Nat.succ_mul] at hi hj
  rw [slot, slot, part_disjoint_iff base hsize hsize hi hj, ← Nat.succ_mul, ← Nat.succ_mul]
  rcases Nat.lt_or_gt_of_ne h with hlt | hgt
  · exact .inl (Nat.mul_le_mul_right size hlt)
  · exact .inr (Nat.mul_le_mul_right size hgt)

theorem slot_subset_iff (base : BitVec n) {size i len : ℕ} (hsize : 0 < size)
    (hi : (i+1)*size ≤ 2^n) (hlen : len ≤ 2^n) :
    slot base size i ⊆ bytes base len ↔ (i+1)*size ≤ len := by
  rw [Nat.succ_mul] at hi ⊢
  rw [slot, ← part_zero, part_subset_iff base hsize hi (by omega)]
  omega

end ByteRanges
