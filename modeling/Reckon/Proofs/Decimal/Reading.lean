import Reckon.Decimal.Shortest
import Reckon.Proofs.Decimal.Rounding

namespace Reckon.Decimal

theorem scale_le {x n a b l k : ℕ} (same : a + l = b + k) : x * 2 ^ b ≤ n * 2 ^ a ↔ x * 2 ^ l ≤ n * 2 ^ k := by
  have left : x * 2 ^ b * 2 ^ l = x * 2 ^ l * 2 ^ b := by ring
  have right : n * 2 ^ a * 2 ^ l = n * 2 ^ k * 2 ^ b := by
    rw [mul_assoc, ← pow_add, same, pow_add]
    ring
  rw [← Nat.mul_le_mul_right_iff (Nat.two_pow_pos l), left, right, Nat.mul_le_mul_right_iff (Nat.two_pow_pos b)]

theorem scale_ge {x n a b l k : ℕ} (same : a + l = b + k) : n * 2 ^ a ≤ x * 2 ^ b ↔ n * 2 ^ k ≤ x * 2 ^ l := by
  have turned : b + k = a + l := same.symm
  exact scale_le turned

namespace Interval

theorem bounds_of_holds {i : Interval} {n : ℕ} (holds : i.Holds ⟨n, 0⟩) :
    i.low ≤ n * 2 ^ i.places ∧ n * 2 ^ i.places ≤ i.high ∧
      (i.low = n * 2 ^ i.places ∨ n * 2 ^ i.places = i.high → i.closed = true) := by
  have point : n * Nat.pow 10 (0 : ℤ).toNat * Nat.pow 2 i.places = n * 2 ^ i.places := by
    show n * 1 * 2 ^ i.places = n * 2 ^ i.places
    rw [mul_one]
  have ten : Nat.pow 10 (-0 : ℤ).toNat = 1 := rfl
  simp only [Holds, point, ten, mul_one] at holds
  split at holds
  · exact ⟨holds.1, holds.2, fun _ => ‹_›⟩
  · exact ⟨holds.1.le, holds.2.le, fun ends => by omega⟩

end Interval

theorem nearestBits_of_round {n bits : ℕ} (finite : bits < infinityBits) (positive : 0 < n)
    (rounded : (n.log2 + 1022) * 2 ^ 52 + roundShift (n * 2 ^ 52) n.log2 = bits) : nearestBits n = bits := by
  rw [nearestBits, if_neg positive.ne']
  show min ((n.log2 + 1022) * 2 ^ 52 + roundShift (n * 2 ^ 52) n.log2) infinityBits = bits
  rw [rounded, Nat.min_eq_left finite.le]

theorem log2_of_scaled {n a b k : ℕ} (positive : 0 < n) (low : 2 ^ k * 2 ^ b ≤ n * 2 ^ a)
    (high : n * 2 ^ a < 2 ^ (k + 1) * 2 ^ b) : n.log2 + a = k + b := by
  rw [← log2_mul_pow positive, Nat.log2_eq_iff (by positivity)]
  rw [← pow_add] at low high
  exact ⟨low, by rwa [Nat.add_right_comm]⟩

section Round

variable {n significand below a b l : ℕ}

theorem roundShift_of_bounds (same : a + l = b + 54) (half : below = 1 ∨ below = 2)
    (low : (4 * significand - below) * 2 ^ b ≤ n * 2 ^ a) (high : n * 2 ^ a ≤ (4 * significand + 2) * 2 ^ b)
    (tie : (4 * significand - below) * 2 ^ b = n * 2 ^ a ∨ n * 2 ^ a = (4 * significand + 2) * 2 ^ b →
      significand % 2 = 0) : roundShift (n * 2 ^ 52) l = significand := by
  have low' := (scale_le same).mp low
  have high' := (scale_ge same).mp high
  have onLow (le : n * 2 ^ 54 ≤ (4 * significand - below) * 2 ^ l) : significand % 2 = 0 :=
    tie (.inl (Nat.le_antisymm low ((scale_ge same).mpr le)))
  have onHigh (ge : (4 * significand + 2) * 2 ^ l ≤ n * 2 ^ 54) : significand % 2 = 0 :=
    tie (.inr (Nat.le_antisymm high ((scale_le same).mpr ge)))
  have upper : (4 * significand + 2) * 2 ^ l = 4 * (significand * 2 ^ l) + 2 * 2 ^ l := by ring
  have lower : (4 * significand - below) * 2 ^ l = 4 * (significand * 2 ^ l) - below * 2 ^ l := by
    rw [Nat.sub_mul, mul_assoc]
  have quarter : n * 2 ^ 54 = 4 * (n * 2 ^ 52) := by ring
  have unit : 0 < 2 ^ l := Nat.two_pow_pos l
  rw [upper, quarter] at high' onHigh
  rw [lower, quarter] at low' onLow
  apply roundShift_eq_of_near
  · rcases half with rfl | rfl <;> omega
  · omega
  · rintro (left | right)
    · rcases half with rfl | rfl
      · omega
      · exact onLow (by omega)
    · exact onHigh (by omega)

theorem roundShift_below_power (same : a + (l + 1) = b + 54) (low : (2 ^ 54 - 1) * 2 ^ b ≤ n * 2 ^ a)
    (high : n * 2 ^ a ≤ 2 ^ 54 * 2 ^ b) : roundShift (n * 2 ^ 52) l = 2 ^ 53 := by
  have low' := (scale_le same).mp low
  have high' := (scale_ge same).mp high
  have twice : 2 ^ (l + 1) = 2 * 2 ^ l := pow_succ' 2 l
  rw [twice] at low' high'
  apply roundShift_eq_of_near <;> omega

end Round

/-- A natural number in the interval of a double shows that the double is normal, and at least one half. -/
theorem field_of_bounds {n significand a b field : ℕ} (positive : 0 < n) (short : significand < 2 ^ 53)
    (high : n * 2 ^ a ≤ (4 * significand + 2) * 2 ^ b) (split : max field 1 + a = 1077 + b) : 1023 ≤ field := by
  have power : 2 ^ a < 2 ^ (55 + b) := by
    calc 2 ^ a ≤ n * 2 ^ a := Nat.le_mul_of_pos_left _ positive
      _ ≤ (4 * significand + 2) * 2 ^ b := high
      _ < 2 ^ 55 * 2 ^ b := Nat.mul_lt_mul_of_pos_right (by omega) (Nat.two_pow_pos b)
      _ = 2 ^ (55 + b) := (pow_add 2 55 b).symm
  have exponent := (Nat.pow_lt_pow_iff_right (by decide)).mp power
  omega

theorem nearestBits_of_holds {bits n : ℕ} (positive : 0 < bits) (finite : bits < infinityBits)
    (holds : (Interval.ofBits bits).Holds ⟨n, 0⟩) : nearestBits n = bits := by
  obtain ⟨low, high, tie⟩ := Interval.bounds_of_holds holds
  simp only [Interval.ofBits, Nat.pow_eq, beq_iff_eq] at low high tie
  have limit : bits < 2047 * 2 ^ 52 := finite
  have parts := Nat.div_add_mod bits (2 ^ 52)
  have small := Nat.mod_lt bits (Nat.two_pow_pos 52)
  generalize bits / 2 ^ 52 = field at low high tie parts
  generalize bits % 2 ^ 52 = fraction at low high tie parts small
  have exponent : max field 1 + (1077 - max field 1) = 1077 + (max field 1 - 1077) := by omega
  generalize max field 1 - 1077 = b at low high tie exponent
  generalize 1077 - max field 1 = a at low high tie exponent
  have some : 0 < n := by
    rw [Nat.pos_iff_ne_zero]
    rintro rfl
    rw [Nat.zero_mul, Nat.le_zero, Nat.mul_eq_zero] at low
    have unit : 2 ^ b ≠ 0 := (Nat.two_pow_pos b).ne'
    have none := low.resolve_right unit
    split at none <;> split at none <;> omega
  have normal : 1023 ≤ field := by
    refine field_of_bounds some ?_ high exponent
    split <;> omega
  have nonzero : field ≠ 0 := by omega
  rw [if_neg nonzero] at low high tie
  -- only the interval of a power of two reaches below that power, where numbers have one bit less
  by_cases under : n * 2 ^ a < 2 ^ 54 * 2 ^ b
  · have none : fraction = 0 := by
      by_contra other
      rw [if_neg fun both => other both.1] at low
      have lt := Nat.lt_of_mul_lt_mul_right (low.trans_lt under)
      omega
    rw [if_pos ⟨none, by omega⟩, none] at low
    have first : n.log2 + a = 53 + b := by
      apply log2_of_scaled some _ under
      exact (Nat.mul_le_mul_right _ (by decide)).trans low
    apply nearestBits_of_round finite some
    rw [roundShift_below_power (by omega) low under.le]
    omega
  · have first : n.log2 + a = 54 + b := by
      apply log2_of_scaled some (not_lt.mp under)
      exact high.trans_lt (Nat.mul_lt_mul_of_pos_right (by omega) (Nat.two_pow_pos b))
    have half : (if fraction = 0 ∧ 1 < field then 1 else 2) = 1 ∨ (if fraction = 0 ∧ 1 < field then 1 else 2) = 2 := by
      split <;> simp
    have even (closed : fraction % 2 = 0) : (2 ^ 52 + fraction) % 2 = 0 := by omega
    apply nearestBits_of_round finite some
    rw [roundShift_of_bounds (by omega) half low high fun ends => even (tie ends)]
    omega

end Reckon.Decimal
