import Mathlib.Data.Nat.Bitwise
import Mathlib.Tactic.Common

/-!
# Bits of 64-bit words

The tests and updates of single bits in a `UInt64` bitmap, read through
`Nat.testBit` of the word's value.
-/

namespace Ppose

namespace Bitmap

variable (bits : UInt64) {amount : UInt64}

theorem and_one_eq_one_iff : bits &&& 1 = 1 ↔ bits.toNat.testBit 0 = true := by
  rw [← UInt64.toNat_inj, UInt64.toNat_and, Nat.testBit_zero]
  simp [Nat.and_one_is_mod]

theorem testBit_shiftRight (small : amount.toNat < 64) (index : ℕ) :
    (bits >>> amount).toNat.testBit index = bits.toNat.testBit (amount.toNat + index) := by
  rw [UInt64.toNat_shiftRight, Nat.mod_eq_of_lt small, Nat.testBit_shiftRight]

theorem toNat_singleBit (small : amount.toNat < 64) :
    ((1 : UInt64) <<< amount).toNat = 2 ^ amount.toNat := by
  rw [UInt64.toNat_shiftLeft, Nat.mod_eq_of_lt small]
  simp only [UInt64.toNat_one, Nat.shiftLeft_eq, one_mul]
  exact Nat.mod_eq_of_lt (Nat.pow_lt_pow_right (by decide) small)

theorem testBit_or_singleBit (small : amount.toNat < 64) (index : ℕ) :
    (bits ||| 1 <<< amount).toNat.testBit index =
      (bits.toNat.testBit index || decide (amount.toNat = index)) := by
  rw [UInt64.toNat_or, Nat.testBit_or, toNat_singleBit small, Nat.testBit_two_pow]

theorem and_singleBit_ne_zero_iff (small : amount.toNat < 64) :
    bits &&& 1 <<< amount ≠ 0 ↔ bits.toNat.testBit amount.toNat = true := by
  rw [ne_eq, ← UInt64.toNat_inj, UInt64.toNat_and, toNat_singleBit small, Nat.and_two_pow]
  simp

theorem testBit_ge {index : ℕ} (high : 64 ≤ index) : bits.toNat.testBit index = false := by
  apply Nat.testBit_lt_two_pow
  exact bits.toNat_lt.trans_le (Nat.pow_le_pow_right (by decide) high)

end Bitmap

end Ppose
