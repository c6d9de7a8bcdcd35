import Reckon.Proofs.Double.Exact

namespace Reckon.Double

open Float.Model (UnpackedFloat Format)
open Float.Model.UnpackedFloat

def significand (bits : ℕ) : ℕ :=
  if bits / 2 ^ 52 = 0 then bits % 2 ^ 52 else 2 ^ 52 + bits % 2 ^ 52

section Bits

variable {bits : ℕ}

theorem significand_pos (positive : 0 < bits) : 0 < significand bits := by
  unfold significand
  split <;> omega

theorem unpack_nat (positive : 0 < bits) (finite : bits < Decimal.infinityBits) :
    (Float.ofBits (UInt64.ofNat bits)).toModel.unpack =
      .finite .positive (significand bits) ((max (bits / 2 ^ 52) 1 : ℕ) - 1075) (significand_pos positive) := by
  have limit : bits < 2047 * 2 ^ 52 := finite
  have le := Nat.le_of_lt finite
  have sign : Sign.ofBitVec (@unpackSign Format.binary64 (BitVec.ofNat 64 bits)) = .positive := by
    rw [Sign.ofBitVec, if_pos]
    apply BitVec.eq_of_toNat_eq
    rw [sign_toNat, ofNat_toNat le]
    show bits / 2 ^ 63 = 0
    omega
  have field : (@unpackExponent Format.binary64 (BitVec.ofNat 64 bits)).toNat = bits / 2 ^ 52 := by
    rw [exponent_toNat, ofNat_toNat le]
    omega
  have fraction : (@unpackMantissa Format.binary64 (BitVec.ofNat 64 bits)).toNat = bits % 2 ^ 52 := by
    rw [mantissa_toNat, ofNat_toNat le]
  refine (unpack_ofBits (UInt64.ofNat bits) (valid_of_le le)).trans ?_
  show unpack Format.binary64 (BitVec.ofNat 64 bits) = _
  by_cases low : bits / 2 ^ 52 = 0
  · have some : 0 < (@unpackMantissa Format.binary64 (BitVec.ofNat 64 bits)).toNat := by omega
    rw [unpack_subnormal (field.trans low) some]
    simp only [sign, fraction, significand, low, if_true, UnpackedFloat.finite.injEq, true_and]
    omega
  · rw [unpack_normal (by omega) (by omega)]
    simp only [sign, fraction, field, significand, low, if_false, UnpackedFloat.finite.injEq, true_and]
    omega

theorem value?_nat (positive : 0 < bits) (finite : bits < Decimal.infinityBits) :
    value? (Float.ofBits (UInt64.ofNat bits)) =
      some ((significand bits : ℚ) * 2 ^ (((max (bits / 2 ^ 52) 1 : ℕ) : ℤ) - 1075)) := by
  rw [value?, unpack_nat positive finite]
  rfl

end Bits

section Nearest

variable {n m : ℕ}

/-- What the rounding makes of a number that has no more bits than a mantissa. -/
theorem nearestBits_of_whole (positive : 0 < n) (whole : n * 2 ^ 52 = m * 2 ^ n.log2) (fits : n.log2 ≤ 1023) :
    Decimal.nearestBits n = (n.log2 + 1022) * 2 ^ 52 + m ∧ 2 ^ 52 ≤ m ∧ m < 2 ^ 53 := by
  have unit : 0 < 2 ^ n.log2 := Nat.two_pow_pos n.log2
  have low : 2 ^ 52 ≤ m := by
    have le := Nat.mul_le_mul_right (2 ^ 52) (Nat.log2_self_le positive.ne')
    rw [whole, mul_comm] at le
    exact Nat.le_of_mul_le_mul_right le unit
  have high : m < 2 ^ 53 := by
    have lt := Nat.mul_lt_mul_of_pos_right (@Nat.lt_log2_self n) (Nat.two_pow_pos 52)
    rw [whole, pow_succ, mul_assoc, mul_comm, ← pow_succ'] at lt
    exact Nat.lt_of_mul_lt_mul_left lt
  have rounded : Decimal.roundShift (n * Nat.pow 2 52) n.log2 = m := by
    show Decimal.roundShift (n * 2 ^ 52) n.log2 = m
    rw [whole, Decimal.roundShift_exact]
  refine ⟨?_, low, high⟩
  rw [Decimal.nearestBits, if_neg positive.ne', rounded]
  show min ((n.log2 + 1022) * 2 ^ 52 + m) (2047 * 2 ^ 52) = (n.log2 + 1022) * 2 ^ 52 + m
  omega

theorem exists_whole (positive : 0 < n) (le : n ≤ 2 ^ 53) : n.log2 ≤ 53 ∧ ∃ m, n * 2 ^ 52 = m * 2 ^ n.log2 := by
  rcases Nat.lt_or_eq_of_le le with lt | rfl
  · have short : n.log2 ≤ 52 := Nat.le_of_lt_succ ((Nat.log2_lt positive.ne').mpr lt)
    refine ⟨by omega, n * 2 ^ (52 - n.log2), ?_⟩
    rw [mul_assoc, ← pow_add, Nat.sub_add_cancel short]
  · rw [Nat.log2_two_pow]
    exact ⟨le_rfl, 2 ^ 52, mul_comm _ _⟩

theorem value?_nearest (le : n ≤ 2 ^ 53) : value? (Decimal.nearest n) = some (n : ℚ) := by
  rcases Nat.eq_zero_or_pos n with rfl | positive
  · rfl
  · obtain ⟨short, m, whole⟩ := exists_whole positive le
    obtain ⟨bits, low, high⟩ := nearestBits_of_whole positive whole (by omega)
    have field : Decimal.nearestBits n / 2 ^ 52 = n.log2 + 1023 := by omega
    have mantissa : significand (Decimal.nearestBits n) = m := by
      rw [significand, field, if_neg (by omega)]
      omega
    have finite : Decimal.nearestBits n < 2047 * 2 ^ 52 := by omega
    have exponent : (((max (n.log2 + 1023) 1 : ℕ) : ℤ) - 1075) = n.log2 - (52 : ℕ) := by omega
    rw [Decimal.nearest, value?_nat (by omega) finite, field, mantissa, exponent, zpow_sub₀ two_ne_zero, zpow_natCast,
      zpow_natCast, ← mul_div_assoc]
    apply congrArg some
    rw [div_eq_iff (by positivity)]
    exact_mod_cast whole.symm

theorem representable_intCast {i : ℤ} (le : |i| ≤ 2 ^ 53) : Representable (i : ℚ) := by
  have small : i.natAbs ≤ 2 ^ 53 := by
    rw [Int.abs_eq_natAbs] at le
    exact_mod_cast le
  have valued := value?_nearest small
  rcases Int.natAbs_eq i with same | same
  · rw [same, Int.cast_natCast]
    exact representable_of_value? valued
  · rw [same, Int.cast_neg, Int.cast_natCast]
    exact representable_of_value? (value?_neg valued)

end Nearest

end Reckon.Double
