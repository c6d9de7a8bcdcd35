import Reckon.Proofs.Double.Interval

namespace Reckon.Double

open Decimal (infinityBits nearestBits roundShift)

/-- The number that a positive pattern stands for. Infinity stands where the double behind the greatest one would. -/
def point (bits : ℕ) : ℚ :=
  significand bits * 2 ^ (((max (bits / 2 ^ 52) 1 : ℕ) : ℤ) - 1075)

section Points

theorem point_zero : point 0 = 0 := by
  simp [point, significand]

theorem point_eq (bits : ℕ) :
    point bits = 4 * significand bits * 2 ^ (((max (bits / 2 ^ 52) 1 : ℕ) : ℤ) - 1077) := by
  have split (e : ℤ) : e - 1075 = e - 1077 + 2 := by ring
  rw [point, split, zpow_add₀ two_ne_zero]
  norm_num
  ring

theorem distanceBelow_succ (bits : ℕ) :
    (distanceBelow (bits + 1) : ℚ) * 2 ^ (((max ((bits + 1) / 2 ^ 52) 1 : ℕ) : ℤ) - 1077) =
      2 * 2 ^ (((max (bits / 2 ^ 52) 1 : ℕ) : ℤ) - 1077) := by
  unfold distanceBelow
  split
  · have exponent : ((max ((bits + 1) / 2 ^ 52) 1 : ℕ) : ℤ) - 1077 = (max (bits / 2 ^ 52) 1 : ℕ) - 1077 + 1 := by omega
    rw [exponent, zpow_add_one₀ two_ne_zero]
    norm_num
    ring
  · have exponent : max ((bits + 1) / 2 ^ 52) 1 = max (bits / 2 ^ 52) 1 := by omega
    rw [exponent]
    norm_num

theorem upper_eq_point_add (bits : ℕ) :
    upper bits = point bits + 2 * 2 ^ (((max (bits / 2 ^ 52) 1 : ℕ) : ℤ) - 1077) := by
  rw [upper_eq, point_eq]
  ring

theorem point_succ (bits : ℕ) :
    point (bits + 1) = point bits + 4 * 2 ^ (((max (bits / 2 ^ 52) 1 : ℕ) : ℤ) - 1077) := by
  have meet := lower_succ bits
  have below := distanceBelow_succ bits
  rw [upper_eq_point_add, lower_eq (Nat.succ_pos bits), sub_mul, ← point_eq, below] at meet
  linarith

theorem two_upper (bits : ℕ) : 2 * upper bits = point bits + point (bits + 1) := by
  rw [upper_eq_point_add, point_succ]
  ring

theorem point_strictMono : StrictMono point := by
  apply strictMono_nat_of_lt_succ
  intro bits
  rw [point_succ]
  have gap : (0 : ℚ) < 2 ^ (((max (bits / 2 ^ 52) 1 : ℕ) : ℤ) - 1077) := by positivity
  linarith

theorem point_nonneg (bits : ℕ) : 0 ≤ point bits := by
  rw [← point_zero]
  exact point_strictMono.monotone (Nat.zero_le bits)

theorem significand_infinity : significand infinityBits = 2 ^ 52 := by
  decide

theorem field_infinity : max (infinityBits / 2 ^ 52) 1 = 2047 := by
  decide

theorem point_infinity : point infinityBits = 2 ^ 1024 := by
  have exponent : ((2047 : ℕ) : ℤ) - 1075 = (972 : ℕ) := by norm_num
  rw [point, significand_infinity, field_infinity, exponent, zpow_natCast, Nat.cast_pow, Nat.cast_ofNat, ← pow_add]

theorem lower_infinity : lower infinityBits = 2 ^ 1024 - 2 ^ 970 := by
  have exponent : ((2047 : ℕ) : ℤ) - 1077 = (970 : ℕ) := by norm_num
  have below : distanceBelow infinityBits = 1 := by decide
  have split : (2 : ℚ) ^ 1024 = 2 ^ 54 * 2 ^ 970 := by rw [← pow_add]
  rw [lower_eq (by decide), significand_infinity, field_infinity, exponent, zpow_natCast, below, split]
  generalize (2 : ℚ) ^ 970 = gap
  push_cast
  ring

theorem value?_point {bits : ℕ} (finite : bits < infinityBits) :
    value? (Float.ofBits (UInt64.ofNat bits)) = some (point bits) := by
  rcases Nat.eq_zero_or_pos bits with rfl | positive
  · rw [point_zero]
    rfl
  · exact value?_nat positive finite

end Points

section Rounded

variable {n : ℕ}

def roundedBits (n : ℕ) : ℕ :=
  (n.log2 + 1022) * 2 ^ 52 + roundShift (n * 2 ^ 52) n.log2

theorem nearestBits_eq_min (positive : 0 < n) : nearestBits n = min (roundedBits n) infinityBits :=
  if_neg positive.ne'

theorem scaled_le (a l : ℕ) : (a : ℚ) * 2 ^ ((l : ℤ) - 54) ≤ n ↔ a * 2 ^ l ≤ n * 2 ^ 54 := by
  have split : (l : ℤ) - 54 = (l : ℤ) - (54 : ℕ) := rfl
  rw [split, zpow_sub₀ two_ne_zero, zpow_natCast, zpow_natCast, ← mul_div_assoc, div_le_iff₀ (by positivity)]
  exact_mod_cast Iff.rfl

theorem le_scaled (a l : ℕ) : (n : ℚ) ≤ a * 2 ^ ((l : ℤ) - 54) ↔ n * 2 ^ 54 ≤ a * 2 ^ l := by
  have split : (l : ℤ) - 54 = (l : ℤ) - (54 : ℕ) := rfl
  rw [split, zpow_sub₀ two_ne_zero, zpow_natCast, zpow_natCast, ← mul_div_assoc, le_div_iff₀ (by positivity)]
  exact_mod_cast Iff.rfl

structure Rounds (x unit r : ℕ) : Prop where
  positive : 0 < unit
  first : unit * 2 ^ 52 ≤ x
  last : x < unit * 2 ^ 53
  le : 2 * (r * unit) ≤ 2 * x + unit
  ge : 2 * x ≤ 2 * (r * unit) + unit
  even : 2 * x + unit = 2 * (r * unit) ∨ 2 * x = 2 * (r * unit) + unit → r % 2 = 0

theorem two_mod_of_half {x unit k : ℕ} (positive : 0 < unit) (half : 2 * x = 2 * (k * unit) + unit) :
    2 * (x % unit) = unit := by
  obtain ⟨rest, rfl⟩ := Nat.exists_eq_add_of_le (show k * unit ≤ x by omega)
  have within : rest < unit := by omega
  rw [Nat.mul_add_mod_self_right, Nat.mod_eq_of_lt within]
  omega

theorem rounds_significand (positive : 0 < n) :
    Rounds (n * 2 ^ 52) (2 ^ n.log2) (roundShift (n * 2 ^ 52) n.log2) := by
  have first : 2 ^ n.log2 ≤ n := Nat.log2_self_le positive.ne'
  have next : n < 2 ^ n.log2 * 2 := Nat.lt_log2_self
  have unit : 0 < 2 ^ n.log2 := Nat.two_pow_pos n.log2
  obtain ⟨le, ge⟩ := Decimal.roundShift_near (n * 2 ^ 52) n.log2
  refine ⟨unit, by omega, by omega, le, ge, ?_⟩
  have even (half : 2 * (n * 2 ^ 52 % 2 ^ n.log2) = 2 ^ n.log2) : roundShift (n * 2 ^ 52) n.log2 % 2 = 0 :=
    Decimal.roundShift_tie _ _ half
  generalize roundShift (n * 2 ^ 52) n.log2 = r at even ⊢
  generalize 2 ^ n.log2 = u at first unit even ⊢
  rintro (below | above)
  · rcases r with _ | k
    · rfl
    · have product : (k + 1) * u = k * u + u := Nat.succ_mul k u
      have half : 2 * (n * 2 ^ 52) = 2 * (k * u) + u := by omega
      exact even (two_mod_of_half unit half)
  · exact even (two_mod_of_half unit above)

theorem Rounds.range {x unit r : ℕ} (rounds : Rounds x unit r) : 2 ^ 52 ≤ r ∧ r ≤ 2 ^ 53 := by
  obtain ⟨positive, first, last, le, ge, -⟩ := rounds
  constructor
  · by_contra short
    have product := Nat.mul_le_mul_right unit (show r ≤ 2 ^ 52 - 1 by omega)
    omega
  · by_contra long
    have product := Nat.mul_le_mul_right unit (show 2 ^ 53 + 1 ≤ r by omega)
    omega

theorem ends_of_parts (log : ℕ) {r : ℕ} (low : 2 ^ 52 ≤ r) (high : r ≤ 2 ^ 53) : ∃ below above : ℕ,
    lower ((log + 1022) * 2 ^ 52 + r) = (4 * r - below : ℕ) * 2 ^ ((log : ℤ) - 54) ∧
    upper ((log + 1022) * 2 ^ 52 + r) = (4 * r + above : ℕ) * 2 ^ ((log : ℤ) - 54) ∧
    (below = 2 ∨ below = 1 ∧ r = 2 ^ 52) ∧ (above = 2 ∨ above = 4 ∧ r = 2 ^ 53) := by
  rw [upper_eq, lower_eq (by omega)]
  rcases Nat.lt_or_eq_of_le high with short | rfl
  · have field : ((log + 1022) * 2 ^ 52 + r) / 2 ^ 52 = log + 1023 := by omega
    have fraction : ((log + 1022) * 2 ^ 52 + r) % 2 ^ 52 = r - 2 ^ 52 := by omega
    have mantissa : significand ((log + 1022) * 2 ^ 52 + r) = r := by
      rw [significand, field, fraction, if_neg (Nat.succ_ne_zero _)]
      omega
    have exponent : ((max (log + 1023) 1 : ℕ) : ℤ) - 1077 = log - 54 := by omega
    rw [mantissa, field, exponent]
    refine ⟨distanceBelow ((log + 1022) * 2 ^ 52 + r), 2, ?_, by push_cast; rfl, ?_, .inl rfl⟩
    · rw [Nat.cast_sub]
      · push_cast
        rfl
      · unfold distanceBelow
        split <;> omega
    · rw [distanceBelow, fraction]
      split
      · exact .inr ⟨rfl, by omega⟩
      · exact .inl rfl
  · have field : ((log + 1022) * 2 ^ 52 + 2 ^ 53) / 2 ^ 52 = log + 1024 := by omega
    have fraction : ((log + 1022) * 2 ^ 52 + 2 ^ 53) % 2 ^ 52 = 0 := by omega
    have mantissa : significand ((log + 1022) * 2 ^ 52 + 2 ^ 53) = 2 ^ 52 := by
      rw [significand, field, fraction, if_neg (Nat.succ_ne_zero _), Nat.add_zero]
    have below : distanceBelow ((log + 1022) * 2 ^ 52 + 2 ^ 53) = 1 := by
      rw [distanceBelow, fraction, field, if_pos ⟨rfl, by omega⟩]
    have exponent : ((max (log + 1024) 1 : ℕ) : ℤ) - 1077 = log - 54 + 1 := by omega
    rw [mantissa, field, below, exponent, zpow_add_one₀ two_ne_zero]
    refine ⟨2, 4, ?_, ?_, .inl rfl, .inr ⟨rfl, rfl⟩⟩
    · norm_num
      ring
    · norm_num
      ring

theorem around_roundedBits (positive : 0 < n) :
    lower (roundedBits n) ≤ n ∧ n ≤ upper (roundedBits n) ∧
      ((n : ℚ) = lower (roundedBits n) ∨ (n : ℚ) = upper (roundedBits n) → roundedBits n % 2 = 0) := by
  have rounds := rounds_significand positive
  unfold roundedBits
  generalize roundShift (n * 2 ^ 52) n.log2 = r at rounds ⊢
  obtain ⟨below, above, low, high, isBelow, isAbove⟩ := ends_of_parts n.log2 rounds.range.1 rounds.range.2
  have quarter : n * 2 ^ 54 = 4 * (n * 2 ^ 52) := by ring
  rw [low, high, scaled_le, le_scaled, le_antisymm_iff, le_scaled, scaled_le, le_antisymm_iff, le_scaled, scaled_le,
    quarter, Nat.sub_mul, Nat.add_mul, mul_assoc]
  obtain ⟨unit, first, last, le, ge, even⟩ := rounds
  generalize 2 ^ n.log2 = u at unit first last le ge even ⊢
  refine ⟨?_, ?_, ?_⟩
  · rcases isBelow with rfl | ⟨rfl, rfl⟩ <;> omega
  · rcases isAbove with rfl | ⟨rfl, rfl⟩ <;> omega
  · intro ends
    -- the ends that are further away than half a unit belong to powers of two, which are even
    have evens : r % 2 = 0 := by
      rcases ends with ⟨onLow, onLow'⟩ | ⟨onHigh, onHigh'⟩
      · rcases isBelow with rfl | ⟨rfl, rfl⟩
        · exact even (.inl (by omega))
        · rfl
      · rcases isAbove with rfl | ⟨rfl, rfl⟩
        · exact even (.inr (by omega))
        · rfl
    omega

end Rounded

/-- A number lies between the halves to the neighbours of the double with the given pattern, as far as it has any, and
on one of them only if the double is the even one. -/
structure Around (n bits : ℕ) : Prop where
  le : bits ≤ infinityBits
  above : 0 < bits → lower bits ≤ n
  below : bits < infinityBits → n ≤ upper bits
  even : 0 < bits ∧ (n : ℚ) = lower bits ∨ bits < infinityBits ∧ (n : ℚ) = upper bits → bits % 2 = 0

theorem infinityBits_pos : 0 < infinityBits := by
  decide

theorem infinityBits_even : infinityBits % 2 = 0 := by
  decide

theorem lower_le_lower {bits later : ℕ} (positive : 0 < bits) (le : bits ≤ later) : lower bits ≤ lower later := by
  rcases Nat.lt_or_eq_of_le le with lt | rfl
  · exact (lower_lt_lower positive lt).le
  · exact le_rfl

theorem around_nearestBits (n : ℕ) : Around n (nearestBits n) := by
  rcases Nat.eq_zero_or_pos n with rfl | positive
  · have gap : (0 : ℚ) < upper 0 := by
      have next := point_strictMono Nat.zero_lt_one
      have half := two_upper 0
      rw [point_zero] at next half
      linarith
    exact ⟨Nat.zero_le _, fun some => absurd some (lt_irrefl 0), fun _ => by exact_mod_cast gap.le, fun _ => rfl⟩
  · obtain ⟨above, below, even⟩ := around_roundedBits positive
    rw [nearestBits_eq_min positive]
    rcases le_or_gt (roundedBits n) infinityBits with le | gt
    · rw [min_eq_left le]
      exact ⟨le, fun _ => above, fun _ => below, fun ends => even (ends.imp And.right And.right)⟩
    · rw [min_eq_right gt.le]
      have under := lower_le_lower infinityBits_pos gt.le
      exact ⟨le_rfl, fun _ => under.trans above, fun finite => absurd finite (lt_irrefl _), fun _ => infinityBits_even⟩

namespace Around

variable {n m bits later : ℕ}

theorem mono (le : n ≤ m) (around : Around n bits) (around' : Around m later) : bits ≤ later := by
  by_contra gt
  have finite : later < infinityBits := (not_le.mp gt).trans_le around.le
  have positive : 0 < bits := Nat.zero_lt_of_lt (not_le.mp gt)
  have above := around.above positive
  have below := around'.below finite
  have order : (n : ℚ) ≤ m := by exact_mod_cast le
  rcases Nat.lt_or_eq_of_le (not_le.mp gt : later + 1 ≤ bits) with apart | rfl
  · have between := lower_lt_lower (Nat.succ_pos later) apart
    rw [lower_succ] at between
    linarith
  · rw [lower_succ] at above
    have first := around.even (.inl ⟨positive, by rw [lower_succ]; linarith⟩)
    have second := around'.even (.inr ⟨finite, by linarith⟩)
    omega

theorem unique (around : Around n bits) (around' : Around n later) : bits = later :=
  le_antisymm (around.mono le_rfl around') (around'.mono le_rfl around)

end Around

theorem nearestBits_mono {n m : ℕ} (le : n ≤ m) : nearestBits n ≤ nearestBits m :=
  (around_nearestBits n).mono le (around_nearestBits m)

theorem lower_infinity_le_iff (n : ℕ) : lower infinityBits ≤ n ↔ 2 ^ 1024 - 2 ^ 970 ≤ n := by
  rw [lower_infinity, sub_le_iff_le_add, tsub_le_iff_right]
  exact_mod_cast Iff.rfl

theorem nearestBits_eq_infinityBits_iff (n : ℕ) : nearestBits n = infinityBits ↔ 2 ^ 1024 - 2 ^ 970 ≤ n := by
  rw [← lower_infinity_le_iff]
  have around := around_nearestBits n
  constructor
  · intro top
    rw [top] at around
    exact around.above infinityBits_pos
  · intro le
    exact around.unique ⟨le_rfl, fun _ => le, fun finite => absurd finite (lt_irrefl _), fun _ => infinityBits_even⟩

end Reckon.Double
