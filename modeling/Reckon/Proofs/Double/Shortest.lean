import Reckon.Proofs.Decimal.Whole
import Reckon.Proofs.Double.Integer

namespace Reckon.Double

open Decimal (Interval infinityBits nearest nearestBits)
open Float.Model (UnpackedFloat Format)
open Float.Model.UnpackedFloat

def Natural (x : Float) : Prop :=
  ∃ k : ℕ, value? x = some (k : ℚ)

section Positive

variable {bits : ℕ}

theorem exists_below (bits : ℕ) : ∃ below, (below = 1 ∨ below = 2) ∧
    (Interval.ofBits bits).low = (4 * significand bits - below) * 2 ^ (max (bits / 2 ^ 52) 1 - 1077) := by
  refine ⟨if bits % 2 ^ 52 = 0 ∧ 1 < bits / 2 ^ 52 then 1 else 2, ?_, ?_⟩
  · split <;> simp
  · simp only [Interval.ofBits, significand, Nat.pow_eq]

theorem value_ofBits (bits : ℕ) :
    (Interval.ofBits bits).value = 4 * significand bits * 2 ^ (max (bits / 2 ^ 52) 1 - 1077) :=
  rfl

theorem places_ofBits (bits : ℕ) : (Interval.ofBits bits).places = 1077 - max (bits / 2 ^ 52) 1 :=
  rfl

theorem high_ofBits (bits : ℕ) :
    (Interval.ofBits bits).high = (4 * significand bits + 2) * 2 ^ (max (bits / 2 ^ 52) 1 - 1077) :=
  rfl

theorem around_ofBits (positive : 0 < bits) : (Interval.ofBits bits).Around := by
  have some := significand_pos positive
  obtain ⟨below, distance, low⟩ := exists_below bits
  have unit := Nat.two_pow_pos (max (bits / 2 ^ 52) 1 - 1077)
  constructor
  · rw [low]
    exact Nat.mul_pos (by omega) unit
  · rw [low, value_ofBits]
    exact Nat.mul_lt_mul_of_pos_right (by omega) unit
  · rw [value_ofBits, high_ofBits]
    exact Nat.mul_lt_mul_of_pos_right (by omega) unit

theorem value?_ofBits (positive : 0 < bits) (finite : bits < infinityBits) :
    value? (Float.ofBits (UInt64.ofNat bits)) =
      some (((Interval.ofBits bits).value : ℚ) / 2 ^ (Interval.ofBits bits).places) := by
  rw [value?_nat positive finite]
  apply congrArg some
  rw [value_ofBits, places_ofBits]
  generalize max (bits / 2 ^ 52) 1 = exponent
  have split : (exponent : ℤ) - 1075 = (2 : ℕ) + (exponent - 1077 : ℕ) - (1077 - exponent : ℕ) := by omega
  rw [split, zpow_sub₀ two_ne_zero, zpow_add₀ two_ne_zero, zpow_natCast, zpow_natCast, zpow_natCast]
  push_cast
  ring

theorem natural_nearest {n : ℕ} (finite : nearestBits n < infinityBits) : Natural (nearest n) := by
  by_cases le : n ≤ 2 ^ 53
  · exact ⟨n, value?_nearest le⟩
  · have first : 53 ≤ n.log2 := (Nat.le_log2 (by omega)).mpr (by omega)
    have nonzero : n ≠ 0 := by omega
    have bits : (n.log2 + 1022) * 2 ^ 52 ≤ nearestBits n := by
      rw [nearestBits, if_neg nonzero] at finite ⊢
      rcases min_lt_iff.mp finite with lt | lt
      · rw [min_eq_left lt.le]
        exact Nat.le_add_right _ _
      · exact absurd lt (lt_irrefl _)
    obtain ⟨shift, exponent⟩ : ∃ shift : ℕ, ((max (nearestBits n / 2 ^ 52) 1 : ℕ) : ℤ) - 1075 = shift :=
      ⟨nearestBits n / 2 ^ 52 - 1075, by omega⟩
    refine ⟨significand (nearestBits n) * 2 ^ shift, ?_⟩
    rw [nearest, value?_nat (by omega) finite, exponent, zpow_natCast]
    push_cast
    rfl

theorem shortest_natural (positive : 0 < bits) (finite : bits < infinityBits)
    (natural : Natural (Float.ofBits (UInt64.ofNat bits))) : 0 ≤ (Decimal.shortest bits).exponent := by
  obtain ⟨k, valued⟩ := natural
  rw [value?_ofBits positive finite, Option.some.injEq, div_eq_iff (by positivity)] at valued
  have whole : (Interval.ofBits bits).value = k * 2 ^ (Interval.ofBits bits).places := by exact_mod_cast valued
  have around := around_ofBits positive
  have some : 0 < k := by
    rw [Nat.pos_iff_ne_zero]
    rintro rfl
    have above := around.above
    omega
  exact around.shortest_exponent_nonneg some whole

/-- A numeral without places behind the point is read as the double that it was written for. -/
theorem nearestBits_shortest (positive : 0 < bits) (finite : bits < infinityBits)
    (whole : 0 ≤ (Decimal.shortest bits).exponent) :
    nearestBits ((Decimal.shortest bits).digits * 10 ^ (Decimal.shortest bits).exponent.toNat) = bits := by
  apply Decimal.nearestBits_of_holds positive finite
  have holds := (around_ofBits positive).holds_shortest
  refine (Interval.holds_congr ?_).mp holds
  show (Decimal.shortest bits).value = _
  rw [Decimal.Numeral.value_of_exponent_nonneg whole, Decimal.Numeral.value]
  simp

theorem shortest_exponent_nonneg_iff (positive : 0 < bits) (finite : bits < infinityBits) :
    0 ≤ (Decimal.shortest bits).exponent ↔ Natural (Float.ofBits (UInt64.ofNat bits)) := by
  refine ⟨fun whole => ?_, shortest_natural positive finite⟩
  have read := nearestBits_shortest positive finite whole
  rw [← read] at finite
  have natural := natural_nearest finite
  rwa [nearest, read] at natural

end Positive

end Reckon.Double
