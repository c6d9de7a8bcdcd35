import Reckon.Proofs.Double.Shortest

namespace Reckon.Double

open Decimal (Interval Numeral)

def lower (bits : ℕ) : ℚ :=
  (Interval.ofBits bits).low / 2 ^ (Interval.ofBits bits).places

def upper (bits : ℕ) : ℚ :=
  (Interval.ofBits bits).high / 2 ^ (Interval.ofBits bits).places

theorem unit_eq (exponent : ℕ) : (2 : ℚ) ^ (exponent - 1077) / 2 ^ (1077 - exponent) = 2 ^ ((exponent : ℤ) - 1077) := by
  have split : (exponent : ℤ) - 1077 = (exponent - 1077 : ℕ) - (1077 - exponent : ℕ) := by omega
  rw [split, zpow_sub₀ two_ne_zero, zpow_natCast, zpow_natCast]

section Ends

variable {bits : ℕ}

theorem upper_eq (bits : ℕ) :
    upper bits = (4 * significand bits + 2) * 2 ^ (((max (bits / 2 ^ 52) 1 : ℕ) : ℤ) - 1077) := by
  rw [upper, high_ofBits, places_ofBits, ← unit_eq, ← mul_div_assoc]
  push_cast
  rfl

def distanceBelow (bits : ℕ) : ℕ :=
  if bits % 2 ^ 52 = 0 ∧ 1 < bits / 2 ^ 52 then 1 else 2

theorem low_ofBits (bits : ℕ) : (Interval.ofBits bits).low =
    (4 * significand bits - distanceBelow bits) * 2 ^ (max (bits / 2 ^ 52) 1 - 1077) :=
  rfl

theorem lower_eq (positive : 0 < bits) :
    lower bits = (4 * significand bits - distanceBelow bits) * 2 ^ (((max (bits / 2 ^ 52) 1 : ℕ) : ℤ) - 1077) := by
  have some := significand_pos positive
  have le : distanceBelow bits ≤ 4 * significand bits := by
    unfold distanceBelow
    split <;> omega
  rw [lower, low_ofBits, places_ofBits, ← unit_eq, ← mul_div_assoc]
  push_cast [Nat.cast_sub le]
  rfl

/-- Where the interval of a double ends the interval of the next one begins, also if the next one is a power of two. -/
theorem lower_succ (bits : ℕ) : lower (bits + 1) = upper bits := by
  rw [lower_eq (Nat.succ_pos bits), upper_eq]
  by_cases carry : bits % 2 ^ 52 + 1 = 2 ^ 52
  · have fraction : (bits + 1) % 2 ^ 52 = 0 := by omega
    have field : (bits + 1) / 2 ^ 52 = bits / 2 ^ 52 + 1 := by omega
    have next : significand (bits + 1) = 2 ^ 52 := by
      rw [significand, fraction, field, if_neg (Nat.succ_ne_zero _), Nat.add_zero]
    by_cases subnormal : bits / 2 ^ 52 = 0
    · have here : significand bits = 2 ^ 52 - 1 := by
        rw [significand, if_pos subnormal]
        omega
      have below : distanceBelow (bits + 1) = 2 := by
        rw [distanceBelow, if_neg]
        omega
      rw [next, here, field, subnormal, below]
      norm_num
    · have here : significand bits = 2 ^ 53 - 1 := by
        rw [significand, if_neg subnormal]
        omega
      have below : distanceBelow (bits + 1) = 1 := by
        rw [distanceBelow, if_pos]
        omega
      have exponent : ((max (bits / 2 ^ 52 + 1) 1 : ℕ) : ℤ) - 1077 = (max (bits / 2 ^ 52) 1 : ℕ) - 1077 + 1 := by omega
      rw [next, here, field, below, exponent, zpow_add_one₀ two_ne_zero]
      norm_num
      ring
  · have field : (bits + 1) / 2 ^ 52 = bits / 2 ^ 52 := by omega
    have next : significand (bits + 1) = significand bits + 1 := by
      rw [significand, significand, field]
      split <;> omega
    have below : distanceBelow (bits + 1) = 2 := by
      rw [distanceBelow, if_neg]
      omega
    rw [next, field, below]
    push_cast
    ring

theorem lower_lt_upper (positive : 0 < bits) : lower bits < upper bits := by
  have around := around_ofBits positive
  have unit : (0 : ℚ) < 2 ^ (Interval.ofBits bits).places := by positivity
  rw [lower, upper, div_lt_div_iff_of_pos_right unit]
  exact_mod_cast around.above.trans around.below

theorem lower_lt_lower {later : ℕ} (positive : 0 < bits) (lt : bits < later) : lower bits < lower later := by
  induction later, lt using Nat.le_induction with
  | base =>
    rw [lower_succ]
    exact lower_lt_upper positive
  | succ later lt ih =>
    rw [lower_succ]
    exact ih.trans (lower_lt_upper (positive.trans lt))

end Ends

section Holds

variable {bits later : ℕ} {n : Numeral}

theorem closed_iff (bits : ℕ) : (Interval.ofBits bits).closed = true ↔ bits % 2 = 0 := by
  have even : (Interval.ofBits bits).closed = (bits % 2 ^ 52 % 2 == 0) := rfl
  rw [even, beq_iff_eq]
  omega

theorem value_mem (holds : (Interval.ofBits bits).Holds n) :
    lower bits ≤ n.value ∧ n.value ≤ upper bits ∧
      (n.value = lower bits ∨ n.value = upper bits → bits % 2 = 0) := by
  have unit : (0 : ℚ) < 2 ^ (Interval.ofBits bits).places := by positivity
  rw [Interval.holds_iff] at holds
  rw [lower, upper, div_le_iff₀ unit, le_div_iff₀ unit, eq_div_iff unit.ne', eq_div_iff unit.ne', ← closed_iff]
  split at holds
  · exact ⟨holds.1, holds.2, fun _ => ‹_›⟩
  · refine ⟨holds.1.le, holds.2.le, ?_⟩
    rintro (low | high)
    · exact absurd low holds.1.ne'
    · exact absurd high holds.2.ne

theorem not_holds_later (lt : bits < later) (holds : (Interval.ofBits bits).Holds n) :
    ¬ (Interval.ofBits later).Holds n := by
  intro holds'
  obtain ⟨-, le_upper, even⟩ := value_mem holds
  obtain ⟨lower_le, -, even'⟩ := value_mem holds'
  rw [← lower_succ] at le_upper even
  rcases Nat.lt_or_eq_of_le lt with apart | rfl
  · have between := lower_lt_lower (Nat.succ_pos bits) apart
    exact absurd (lower_le.trans le_upper) (not_le.mpr between)
  · -- the two intervals meet, and of two successive doubles only one is even
    have same := le_antisymm le_upper lower_le
    have first := even (.inr same)
    have second := even' (.inl same)
    omega

theorem bits_unique (holds : (Interval.ofBits bits).Holds n) (holds' : (Interval.ofBits later).Holds n) :
    bits = later := by
  rcases Nat.lt_trichotomy bits later with lt | same | gt
  · exact absurd holds' (not_holds_later lt holds)
  · exact same
  · exact absurd holds (not_holds_later gt holds')

end Holds

end Reckon.Double
