import Mathlib
import Reckon.Decimal.Nearest

namespace Reckon.Decimal

variable {n shift q : ℕ}

theorem roundShift_eq_of_near (low : 2 * (q * 2 ^ shift) ≤ 2 * n + 2 ^ shift)
    (high : 2 * n ≤ 2 * (q * 2 ^ shift) + 2 ^ shift)
    (tie : 2 * (q * 2 ^ shift) = 2 * n + 2 ^ shift ∨ 2 * n = 2 * (q * 2 ^ shift) + 2 ^ shift → q % 2 = 0) :
    roundShift n shift = q := by
  have positive : 0 < 2 ^ shift := Nat.two_pow_pos shift
  have near : 2 * (roundShift n shift * 2 ^ shift) ≤ 2 * n + 2 ^ shift ∧
      2 * n ≤ 2 * (roundShift n shift * 2 ^ shift) + 2 ^ shift := roundShift_near n shift
  have even : 2 * (n % 2 ^ shift) = 2 ^ shift → roundShift n shift % 2 = 0 := roundShift_tie n shift
  generalize roundShift n shift = r at near even
  generalize 2 ^ shift = unit at positive low high tie near even
  have halved (p : ℕ) (apart : 2 * n = 2 * (p * unit) + unit) : 2 * (n % unit) = unit := by
    have rest : n = n - p * unit + p * unit := by omega
    rw [rest, Nat.add_mul_mod_self_right, Nat.mod_eq_of_lt (by omega)]
    omega
  -- two numbers that near lie on either side of the quotient and next to each other
  have next {a b : ℕ} (lt : a < b) (above : 2 * (b * unit) ≤ 2 * n + unit) (below : 2 * n ≤ 2 * (a * unit) + unit) :
      b = a + 1 ∧ 2 * n = 2 * (a * unit) + unit := by
    have step : (a + 1) * unit ≤ b * unit := Nat.mul_le_mul_right unit lt
    have split : (a + 1) * unit = a * unit + unit := by ring
    have same : b * unit = (a + 1) * unit := by omega
    exact ⟨Nat.eq_of_mul_eq_mul_right positive same, by omega⟩
  rcases Nat.lt_trichotomy q r with lt | same | gt
  · obtain ⟨rfl, apart⟩ := next lt near.1 high
    have evens := even (halved q apart)
    have evens' := tie (.inr apart)
    omega
  · exact same.symm
  · obtain ⟨rfl, apart⟩ := next gt low near.2
    have evens := even (halved r apart)
    have evens' := tie (.inl (by rw [Nat.add_mul]; omega))
    omega

theorem roundShift_exact (m shift : ℕ) : roundShift (m * 2 ^ shift) shift = m := by
  have positive : 0 < 2 ^ shift := Nat.two_pow_pos shift
  apply roundShift_eq_of_near <;> omega

theorem log2_mul_pow {m : ℕ} (positive : 0 < m) (shift : ℕ) : (m * 2 ^ shift).log2 = m.log2 + shift := by
  have nonzero : m * 2 ^ shift ≠ 0 := by positivity
  rw [Nat.log2_eq_iff nonzero, pow_add, Nat.add_right_comm, pow_add _ _ shift]
  constructor
  · exact Nat.mul_le_mul_right _ (Nat.log2_self_le positive.ne')
  · exact Nat.mul_lt_mul_of_pos_right Nat.lt_log2_self (Nat.two_pow_pos shift)

end Reckon.Decimal
