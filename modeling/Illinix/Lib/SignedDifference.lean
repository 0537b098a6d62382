import Mathlib.Data.UInt

/-! # Comparing counters by their signed difference

A counter of 64 bits may wrap.  Two counters that are less than `2 ^ 63` apart are compared by the
sign of their difference, read as a signed number; for small counters this is the comparison of
the numbers. -/

namespace Illinix.Lib

variable {a b : UInt64}

theorem toInt_toInt64 (x : UInt64) : x.toInt64.toInt =
    if 2 * x.toNat < 2 ^ 64 then (x.toNat : Int) else (x.toNat : Int) - (2 ^ 64 : Nat) :=
  BitVec.toInt_eq_toNat_cond x.toBitVec

theorem toInt64_pos_iff (x : UInt64) : 0 < x.toInt64 ↔ 0 < x.toNat ∧ x.toNat < 2 ^ 63 := by
  have zero : (0 : Int64).toInt = 0 := rfl
  have bound := x.toNat_lt
  rw [Int64.lt_iff_toInt_lt, toInt_toInt64, zero]
  split <;> omega

theorem toInt64_neg_iff (x : UInt64) : x.toInt64 < 0 ↔ 2 ^ 63 ≤ x.toNat := by
  have zero : (0 : Int64).toInt = 0 := rfl
  have bound := x.toNat_lt
  rw [Int64.lt_iff_toInt_lt, toInt_toInt64, zero]
  split <;> omega

theorem sub_toInt64_pos_iff (ha : a.toNat < 2 ^ 63) (hb : b.toNat < 2 ^ 63) :
    0 < (b - a).toInt64 ↔ a.toNat < b.toNat := by
  rw [toInt64_pos_iff, UInt64.toNat_sub]
  omega

theorem sub_toInt64_neg_iff (ha : a.toNat < 2 ^ 63) (hb : b.toNat < 2 ^ 63) :
    (b - a).toInt64 < 0 ↔ b.toNat < a.toNat := by
  rw [toInt64_neg_iff, UInt64.toNat_sub]
  omega

end Illinix.Lib
