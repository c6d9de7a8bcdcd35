import Reckon.Proofs.Decimal.Reading

namespace Reckon.Decimal

namespace Numeral

def value (n : Numeral) : ℚ :=
  n.digits * 10 ^ n.exponent

theorem trim_value (n : Numeral) : n.trim.value = n.value := by
  fun_induction trim n with
  | case1 n ends ih =>
    have whole : (n.digits : ℚ) = 10 * (n.digits / 10 : ℕ) := by
      exact_mod_cast (Nat.mul_div_cancel' (Nat.dvd_of_mod_eq_zero ends.2)).symm
    rw [ih, value, value, whole, zpow_add_one₀ (by norm_num)]
    ring
  | case2 n ends => rfl

theorem digits_pos_of_value {n : Numeral} (positive : 0 < n.value) : 0 < n.digits := by
  rw [Nat.pos_iff_ne_zero]
  intro none
  rw [value, none, Nat.cast_zero, zero_mul] at positive
  exact lt_irrefl 0 positive

/-- A numeral with its zeros moved into the exponent has places behind the point unless it is a natural number. -/
theorem trim_exponent_nonneg {n : Numeral} {k : ℕ} (positive : 0 < k) (whole : n.value = k) : 0 ≤ n.trim.exponent := by
  by_contra negative
  rw [← trim_value] at whole
  have digits : 0 < n.digits := by
    apply digits_pos_of_value
    rw [← trim_value, whole]
    exact_mod_cast positive
  have last := trim_digits_mod n digits
  obtain ⟨places, places_eq⟩ : ∃ places : ℕ, n.trim.exponent = -((places + 1 : ℕ) : ℤ) :=
    ⟨(-n.trim.exponent - 1).toNat, by omega⟩
  rw [value, places_eq, zpow_neg, zpow_natCast, ← div_eq_mul_inv, div_eq_iff (by positivity)] at whole
  have product : n.trim.digits = k * 10 ^ (places + 1) := by exact_mod_cast whole
  rw [product, pow_succ, ← mul_assoc] at last
  exact last (Nat.mul_mod_left _ _)

theorem value_of_exponent_nonneg {n : Numeral} (whole : 0 ≤ n.exponent) :
    n.value = ((n.digits * 10 ^ n.exponent.toNat : ℕ) : ℚ) := by
  obtain ⟨places, places_eq⟩ := Int.eq_ofNat_of_zero_le whole
  rw [value, places_eq, zpow_natCast, Int.toNat_natCast]
  push_cast
  rfl

end Numeral

namespace Interval

variable {i : Interval} {n m : Numeral}

theorem holds_iff : i.Holds n ↔ if i.closed then i.low ≤ n.value * 2 ^ i.places ∧ n.value * 2 ^ i.places ≤ i.high
    else i.low < n.value * 2 ^ i.places ∧ n.value * 2 ^ i.places < i.high := by
  have unit : (0 : ℚ) < 10 ^ (-n.exponent).toNat := by positivity
  have split : (10 : ℚ) ^ n.exponent.toNat = 10 ^ n.exponent * 10 ^ (-n.exponent).toNat := by
    rw [← zpow_natCast, ← zpow_natCast, ← zpow_add₀ (by norm_num)]
    congr 1
    omega
  have point : ((n.digits * Nat.pow 10 n.exponent.toNat * Nat.pow 2 i.places : ℕ) : ℚ) =
      n.value * 2 ^ i.places * 10 ^ (-n.exponent).toNat := by
    simp only [Nat.pow_eq]
    push_cast
    rw [split, Numeral.value]
    ring
  have scaled (x : ℕ) : ((x * Nat.pow 10 (-n.exponent).toNat : ℕ) : ℚ) = x * 10 ^ (-n.exponent).toNat := by
    simp only [Nat.pow_eq]
    push_cast
    rfl
  simp only [Holds, ← Nat.cast_le (α := ℚ), ← Nat.cast_lt (α := ℚ), point, scaled, mul_le_mul_iff_left₀ unit,
    mul_lt_mul_iff_left₀ unit]

theorem holds_congr (same : n.value = m.value) : i.Holds n ↔ i.Holds m := by
  rw [holds_iff, holds_iff, same]

structure Around (i : Interval) : Prop where
  low_pos : 0 < i.low
  above : i.low < i.value
  below : i.value < i.high

theorem Around.value_pos (around : i.Around) (holds : i.Holds n) : 0 < n.value := by
  have low : (0 : ℚ) < i.low := by exact_mod_cast around.low_pos
  have unit : (0 : ℚ) < 2 ^ i.places := by positivity
  have scaled : 0 < n.value * 2 ^ i.places := by
    rw [holds_iff] at holds
    split at holds
    · exact low.trans_le holds.1
    · exact low.trans holds.1
  exact pos_of_mul_pos_left scaled unit.le

theorem Around.holds (around : i.Around) (same : n.value * 2 ^ i.places = i.value) : i.Holds n := by
  have above : (i.low : ℚ) < i.value := by exact_mod_cast around.above
  have below : (i.value : ℚ) < i.high := by exact_mod_cast around.below
  rw [holds_iff, same]
  split
  · exact ⟨above.le, below.le⟩
  · exact ⟨above, below⟩

theorem exact_value (i : Interval) : i.exact.value * 2 ^ i.places = i.value := by
  have ten : (10 : ℚ) ^ i.places = 5 ^ i.places * 2 ^ i.places := by
    rw [← mul_pow]
    norm_num
  simp only [exact, Numeral.value, Nat.pow_eq]
  push_cast
  rw [zpow_neg, zpow_natCast, ten]
  field_simp

def found (i : Interval) : Numeral :=
  (i.grids.findSome? i.onGrid?).getD i.exact

theorem shortest_eq_trim (i : Interval) : i.shortest = i.found.trim :=
  rfl

theorem Around.holds_found (around : i.Around) : i.Holds i.found := by
  unfold found
  cases hit : i.grids.findSome? i.onGrid? with
  | none => exact around.holds i.exact_value
  | some n =>
    obtain ⟨exponent, -, grid⟩ := List.exists_of_findSome?_eq_some hit
    exact holds_of_onGrid? grid

theorem Around.holds_shortest (around : i.Around) : i.Holds i.shortest := by
  rw [shortest_eq_trim, holds_congr (Numeral.trim_value _)]
  exact around.holds_found

theorem exponent_of_onGrid? {exponent : ℤ} (hit : i.onGrid? exponent = some n) : n.exponent = exponent := by
  simp only [onGrid?] at hit
  split at hit
  · cases hit
    rfl
  · split at hit
    · cases hit
      rfl
    · cases hit

section Whole

variable {k : ℕ}

theorem Around.onGrid?_zero (around : i.Around) (whole : i.value = k * 2 ^ i.places) :
    i.onGrid? 0 = some ⟨k, 0⟩ := by
  have unit : 0 < 2 ^ i.places := Nat.two_pow_pos i.places
  have lower : i.below 0 = ⟨k, 0⟩ := by
    have quotient : i.value * 1 / (2 ^ i.places * 1) = k := by
      rw [mul_one, mul_one, whole, Nat.mul_div_cancel _ unit]
    exact congrArg (Numeral.mk · 0) quotient
  have holds : i.Holds ⟨k, 0⟩ := by
    apply around.holds
    simp only [Numeral.value, zpow_zero, mul_one]
    exact_mod_cast whole.symm
  have nearer : i.Nearer ⟨k, 0⟩ := by
    show 2 * i.value * 1 < (2 * k + 1) * 1 * 2 ^ i.places
    rw [mul_one, mul_one, whole, add_mul, mul_assoc]
    omega
  simp only [onGrid?, lower]
  exact if_pos ⟨holds, .inl nearer⟩

theorem grids_pairwise (i : Interval) : i.grids.Pairwise (· > ·) := by
  rw [grids, List.pairwise_map]
  apply List.pairwise_lt_range.imp
  intro a b lt
  omega

theorem zero_mem_grids {exponent : ℤ} (positive : 0 < k) (whole : i.value = k * 2 ^ i.places)
    (member : exponent ∈ i.grids) (negative : exponent < 0) : 0 ∈ i.grids := by
  have quotient : i.value / Nat.pow 2 i.places = k := by
    rw [whole]
    exact Nat.mul_div_cancel _ (Nat.two_pow_pos i.places)
  have magnitude : i.magnitude = (Nat.toDigits 10 k).length := by
    simp only [Interval.magnitude, quotient, if_pos positive]
  have some : 0 < (Nat.toDigits 10 k).length := Nat.length_toDigits_pos
  obtain ⟨further, small, rfl⟩ := List.mem_map.mp member
  rw [List.mem_range] at small
  refine List.mem_map.mpr ⟨(Nat.toDigits 10 k).length - 1, ?_, ?_⟩
  · rw [List.mem_range]
    omega
  · rw [magnitude]
    omega

theorem Around.exists_found (around : i.Around) (positive : 0 < k) (whole : i.value = k * 2 ^ i.places) :
    ∃ m : ℕ, i.found.value = m := by
  unfold found
  cases hit : i.grids.findSome? i.onGrid? with
  | none =>
    refine ⟨k, ?_⟩
    have value := i.exact_value
    rw [whole] at value
    push_cast at value
    exact mul_right_cancel₀ (by positivity) value
  | some n =>
    obtain ⟨before, exponent, behind, split, grid, missed⟩ := List.findSome?_eq_some_iff.mp hit
    have whole' : 0 ≤ exponent := by
      by_contra negative
      have member : exponent ∈ i.grids := by simp [split]
      have zero := zero_mem_grids positive whole member (by omega)
      have descending := i.grids_pairwise
      rw [split] at zero descending
      -- zero comes before a negative exponent, so it has been tried, and it is never missed
      have first : 0 ∈ before := by
        rcases List.mem_append.mp zero with first | behind
        · exact first
        · have last := (List.pairwise_append.mp descending).2.1
          rcases List.mem_cons.mp behind with here | further
          · omega
          · have lt := (List.pairwise_cons.mp last).1 0 further
            omega
      cases (around.onGrid?_zero whole).symm.trans (missed 0 first)
    rw [← exponent_of_onGrid? grid] at whole'
    exact ⟨_, Numeral.value_of_exponent_nonneg whole'⟩

theorem Around.shortest_exponent_nonneg (around : i.Around) (positive : 0 < k) (whole : i.value = k * 2 ^ i.places) :
    0 ≤ i.shortest.exponent := by
  obtain ⟨m, value⟩ := around.exists_found positive whole
  have some := around.value_pos around.holds_found
  rw [value] at some
  rw [shortest_eq_trim]
  exact Numeral.trim_exponent_nonneg (by exact_mod_cast some) value

end Whole

end Interval

end Reckon.Decimal
