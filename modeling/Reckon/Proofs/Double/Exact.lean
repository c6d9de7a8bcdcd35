import Reckon.Proofs.Double.Value
import Reckon.Proofs.Decimal.Rounding

namespace Reckon.Double

open Float.Model (UnpackedFloat Format totalExponent)
open Float.Model.UnpackedFloat

section Round

variable {s : Sign} {m M : ℕ} {e E : ℤ}

theorem shift_exact (m shift : ℕ) :
    (⟨m * 2 ^ shift, false, false⟩ : ExtendedMantissa) >>> shift = ⟨m, false, false⟩ := by
  induction shift generalizing m with
  | zero =>
    rw [pow_zero, mul_one]
    rfl
  | succ shift ih =>
    have halved : (⟨m * 2, false, false⟩ : ExtendedMantissa).shiftRightOne = ⟨m, false, false⟩ := by
      simp [ExtendedMantissa.shiftRightOne]
    have inner := ih (m * 2)
    rw [mul_assoc, ← pow_succ'] at inner
    show ExtendedMantissa.shiftRightOne ((⟨m * 2 ^ (shift + 1), false, false⟩ : ExtendedMantissa) >>> shift) = _
    rw [inner, halved]

theorem Canonical.log2_le (canonical : Canonical M E) : M.log2 ≤ 52 :=
  Nat.le_of_lt_succ ((Nat.log2_lt canonical.positive.ne').mpr canonical.fits)

/-- Rounding aims at the exponent of the canonical form, whatever exponent the number is given with. -/
theorem Canonical.target (canonical : Canonical M E) (total : ℤ) (same : total = M.log2 + 1 + E) :
    Format.binary64.targetExponent total = E := by
  have short := canonical.log2_le
  have least := canonical.least
  have bits : E = -1074 ∨ 52 ≤ M.log2 := canonical.full.symm.imp_right (Nat.le_log2 canonical.positive.ne').mpr
  show max (total - (53 : ℕ)) (-1074) = E
  omega

theorem Canonical.shiftToTarget (canonical : Canonical M E) (shift : ℕ) :
    shiftToTargetExponent Format.binary64 (M * 2 ^ shift) (E - shift) .exact = (⟨M, false, false⟩, E) := by
  have total : totalExponent (M * 2 ^ shift) (E - shift) = M.log2 + 1 + E := by
    rw [totalExponent, Decimal.log2_mul_pow canonical.positive]
    push_cast
    ring
  have amount : (E - (E - shift)).toNat = shift := by omega
  have back : E - shift + (shift : ℤ) = E := by omega
  simp only [shiftToTargetExponent, shiftToExponent, canonical.target _ total, amount, back,
    ExtendedMantissa.ofMantissaAndAccuracy, shift_exact]

theorem Canonical.roundWithAccuracy (canonical : Canonical M E) (shift : ℕ) :
    roundWithAccuracy Format.binary64 s (M * 2 ^ shift) (E - shift) .exact = .finite s M E canonical.positive := by
  have again := canonical.shiftToTarget 0
  rw [pow_zero, mul_one, Nat.cast_zero, sub_zero] at again
  have rounded : (⟨M, false, false⟩ : ExtendedMantissa).roundedMantissa = M := rfl
  simp only [Float.Model.UnpackedFloat.roundWithAccuracy, canonical.shiftToTarget shift, rounded, again,
    dif_neg canonical.positive.ne']

theorem mantissa_of_le (same : (m : ℚ) * 2 ^ e = M * 2 ^ E) (le : e ≤ E) :
    m = M * 2 ^ (E - e).toNat ∧ e = E - (E - e).toNat := by
  obtain ⟨shift, rfl⟩ := Int.le.dest le
  have amount : (e + shift - e).toNat = shift := by omega
  rw [amount]
  refine ⟨?_, by omega⟩
  rw [zpow_add₀ two_ne_zero, zpow_natCast, mul_comm ((2 : ℚ) ^ e), ← mul_assoc] at same
  exact_mod_cast mul_right_cancel₀ (zpow_ne_zero e two_ne_zero) same

theorem first_bit (positive : 0 < m) (positive' : 0 < M) (same : (m : ℚ) * 2 ^ e = M * 2 ^ E) :
    (m.log2 : ℤ) + e = M.log2 + E := by
  rcases le_total e E with le | ge
  · obtain ⟨whole, -⟩ := mantissa_of_le same le
    rw [whole, Decimal.log2_mul_pow positive']
    omega
  · obtain ⟨whole, -⟩ := mantissa_of_le same.symm ge
    rw [whole, Decimal.log2_mul_pow positive]
    omega

end Round

def Representable (q : ℚ) : Prop :=
  ∃ u, Stands u q

theorem representable_of_value? {x : Float} {q : ℚ} (valued : value? x = some q) : Representable q :=
  ⟨_, stands_of_value? valued⟩

section Representable

variable {s : Sign} {m : ℕ} {e : ℤ}

theorem abs_apply_mul (s : Sign) (m : ℕ) (e : ℤ) : |(s.apply m : ℚ) * 2 ^ e| = m * 2 ^ e := by
  have scale : |(2 : ℚ) ^ e| = 2 ^ e := abs_of_nonneg (by positivity)
  rw [abs_mul, scale]
  cases s <;> simp [Sign.apply]

theorem exists_canonical (positive : 0 < m) (representable : Representable (s.apply m * 2 ^ e)) :
    ∃ M E, Canonical M E ∧ (m : ℚ) * 2 ^ e = M * 2 ^ E := by
  obtain ⟨u, stands⟩ := representable
  generalize number : (s.apply m : ℚ) * 2 ^ e = q at stands
  cases stands with
  | zero => exact absurd number (apply_mul_ne_zero s positive e)
  | @finite s' M E canonical =>
    refine ⟨M, E, canonical, ?_⟩
    rw [← abs_apply_mul s, number, abs_apply_mul]

theorem stands_of_canonical {M : ℕ} {E : ℤ} (canonical : Canonical M E) (same : (m : ℚ) * 2 ^ e = M * 2 ^ E) :
    Stands (.finite s M E canonical.positive) (s.apply m * 2 ^ e) := by
  apply (Stands.finite canonical).of_eq
  cases s <;> simp [Sign.apply, same]

theorem stands_roundWithAccuracy (positive : 0 < m) (representable : Representable (s.apply m * 2 ^ e))
    (le : ∀ M E, Canonical M E → (m : ℚ) * 2 ^ e = M * 2 ^ E → e ≤ E) :
    Stands (roundWithAccuracy Format.binary64 s m e .exact) (s.apply m * 2 ^ e) := by
  obtain ⟨M, E, canonical, same⟩ := exists_canonical positive representable
  have form := mantissa_of_le same (le M E canonical same)
  have rounded := canonical.roundWithAccuracy (s := s) (E - e).toNat
  rw [← form.1, ← form.2] at rounded
  rw [rounded]
  exact stands_of_canonical canonical same

theorem stands_round (positive : 0 < m) (representable : Representable (s.apply m * 2 ^ e)) :
    Stands (UnpackedFloat.round Format.binary64 s m e) (s.apply m * 2 ^ e) := by
  obtain ⟨M, E, canonical, same⟩ := exists_canonical positive representable
  have bits := first_bit positive canonical.positive same
  have total : totalExponent m e = M.log2 + 1 + E := by
    rw [totalExponent]
    omega
  rcases le_total e E with le | ge
  · obtain ⟨whole, exponent⟩ := mantissa_of_le same le
    have amount : (e - E).toNat = 0 := by omega
    have rounded := canonical.roundWithAccuracy (s := s) (E - e).toNat
    rw [← whole, ← exponent] at rounded
    simp only [UnpackedFloat.round, decreaseExponent, canonical.target _ total, amount, Nat.shiftLeft_zero,
      Nat.cast_zero, sub_zero, rounded]
    exact stands_of_canonical canonical same
  · obtain ⟨whole, exponent⟩ := mantissa_of_le same.symm ge
    have back : e - ((e - E).toNat : ℤ) = E := by omega
    have rounded := canonical.roundWithAccuracy (s := s) 0
    rw [pow_zero, mul_one, Nat.cast_zero, sub_zero] at rounded
    simp only [UnpackedFloat.round, decreaseExponent, canonical.target _ total, Nat.shiftLeft_eq, ← whole, back,
      rounded]
    exact stands_of_canonical canonical same

theorem stands_normalize {i : ℤ} {zero : Sign} (representable : Representable (i * 2 ^ e)) :
    Stands (UnpackedFloat.normalize Format.binary64 i e zero) (i * 2 ^ e) := by
  rcases lt_trichotomy i 0 with negative | rfl | positive
  · obtain ⟨m, rfl⟩ := Int.exists_eq_neg_ofNat (Int.le_of_lt negative)
    simp only [UnpackedFloat.normalize, Int.compare_eq_lt.mpr negative, neg_neg, Int.toNat_natCast]
    exact stands_round (s := .negative) (by omega) representable
  · rw [Int.cast_zero, zero_mul]
    exact .zero
  · obtain ⟨m, rfl⟩ := Int.eq_ofNat_of_zero_le (Int.le_of_lt positive)
    simp only [UnpackedFloat.normalize, Int.compare_eq_gt.mpr positive, Int.toNat_natCast]
    exact stands_round (s := .positive) (by omega) representable

end Representable

theorem aligned (s : Sign) (m : ℕ) {e least : ℤ} (le : least ≤ e) :
    (s.apply ((decreaseExponent m e least).1 : ℤ) : ℚ) * 2 ^ least = s.apply m * 2 ^ e := by
  obtain ⟨shift, rfl⟩ := Int.le.dest le
  have amount : (least + shift - least).toNat = shift := by omega
  simp only [decreaseExponent, amount, Nat.shiftLeft_eq]
  rw [zpow_add₀ two_ne_zero, zpow_natCast]
  cases s <;> (simp only [Sign.apply]; push_cast; ring)

theorem apply_eq_mul (s : Sign) (n : ℤ) : s.apply n = s.apply 1 * n := by
  cases s <;> simp [Sign.apply]

theorem apply_mul_sign (s s' : Sign) (m m' : ℕ) : (s * s').apply ((m * m' : ℕ) : ℤ) = s.apply m * s'.apply m' := by
  have one : (s * s').apply 1 = s.apply 1 * s'.apply 1 := by
    cases s <;> cases s' <;> rfl
  rw [apply_eq_mul, apply_eq_mul s, apply_eq_mul s', one]
  push_cast
  ring

theorem apply_div_apply (s s' : Sign) (m m' : ℕ) (e e' : ℤ) :
    (s.apply m : ℚ) * 2 ^ e / (s'.apply m' * 2 ^ e') = (s / s').apply 1 * (m * 2 ^ e / (m' * 2 ^ e')) := by
  have one : (s / s').apply 1 = s.apply 1 * s'.apply 1 := by
    cases s <;> cases s' <;> rfl
  rw [one]
  cases s <;> cases s' <;> simp [Sign.apply, neg_div, div_neg]

section Quotient

variable {m m' M : ℕ} {e e' E : ℤ}

theorem log2_mul_le (positive : 0 < m) (positive' : 0 < m') : (m * m').log2 ≤ m.log2 + m'.log2 + 1 := by
  apply Nat.le_of_lt_succ
  rw [Nat.log2_lt (Nat.mul_pos positive positive').ne']
  calc m * m' < 2 ^ (m.log2 + 1) * 2 ^ (m'.log2 + 1) := Nat.mul_lt_mul'' Nat.lt_log2_self Nat.lt_log2_self
    _ = 2 ^ (m.log2 + m'.log2 + 1).succ := by rw [← pow_add]; congr 1; omega

theorem Canonical.divCore (canonical : Canonical M E) (positive : 0 < m) (positive' : 0 < m')
    (same : (m : ℚ) * 2 ^ e = ((m' * M : ℕ) : ℚ) * 2 ^ (e' + E)) :
    ∃ shift : ℕ, divCore Format.binary64 m e m' e' = (M * 2 ^ shift, E - shift, .exact) := by
  have bits := first_bit positive (Nat.mul_pos positive' canonical.positive) same
  have product := log2_mul_le positive' canonical.positive
  have short := canonical.log2_le
  have least := canonical.least
  have target : Format.binary64.targetExponent (totalExponent m e - totalExponent m' e') ≤ E := by
    show max ((m.log2 + 1 + e) - (m'.log2 + 1 + e') - (53 : ℕ)) (-1074) ≤ E
    omega
  generalize aim : min (e - e') (Format.binary64.targetExponent (totalExponent m e - totalExponent m' e')) = T
  have below : T ≤ E := by omega
  have le : T ≤ e - e' := by omega
  obtain ⟨shift, rfl⟩ := Int.le.dest below
  obtain ⟨amount, apart⟩ := Int.le.dest le
  obtain rfl : e = e' + T + amount := by omega
  have whole : m * 2 ^ amount = m' * (M * 2 ^ shift) := by
    have scaled : (m * 2 ^ amount : ℚ) * 2 ^ (e' + T) = (m' * (M * 2 ^ shift)) * 2 ^ (e' + T) := by
      rw [← add_assoc, zpow_add₀ two_ne_zero (e' + T), zpow_add₀ two_ne_zero (e' + T), zpow_natCast, zpow_natCast]
        at same
      push_cast at same
      linear_combination same
    exact_mod_cast mul_right_cancel₀ (zpow_ne_zero (e' + T) two_ne_zero) scaled
  have moved : (e' + T + amount - e' - T).toNat = amount := by omega
  refine ⟨shift, ?_⟩
  simp only [Float.Model.UnpackedFloat.divCore, aim, moved, Nat.shiftLeft_eq, whole,
    Nat.mul_div_cancel_left _ positive', Nat.mul_mod_right, accuracyOfFraction, if_true, add_sub_cancel_right]

end Quotient

namespace Stands

variable {u v : UnpackedFloat} {p q : ℚ}

theorem add (left : Stands u p) (right : Stands v q) (representable : Representable (p + q)) :
    Stands (UnpackedFloat.add Format.binary64 u v) (p + q) := by
  cases left with
  | @zero s =>
    rw [zero_add]
    cases right with
    | @zero s' =>
      simp only [UnpackedFloat.add]
      split <;> exact .zero
    | finite canonical => exact .finite canonical
  | @finite s m e canonical =>
    cases right with
    | zero =>
      rw [add_zero]
      exact .finite canonical
    | @finite s' m' e' canonical' =>
      rw [← aligned s m (min_le_left e e'), ← aligned s' m' (min_le_right e e'), ← add_mul, ← Int.cast_add]
        at representable ⊢
      exact stands_normalize representable

theorem sub (left : Stands u p) (right : Stands v q) (representable : Representable (p - q)) :
    Stands (UnpackedFloat.sub Format.binary64 u v) (p - q) := by
  cases left with
  | @zero s =>
    rw [zero_sub]
    cases right with
    | @zero s' =>
      rw [neg_zero]
      simp only [UnpackedFloat.sub]
      split <;> exact .zero
    | finite canonical => exact (Stands.finite canonical).neg
  | @finite s m e canonical =>
    cases right with
    | zero =>
      rw [sub_zero]
      exact .finite canonical
    | @finite s' m' e' canonical' =>
      rw [← aligned s m (min_le_left e e'), ← aligned s' m' (min_le_right e e'), ← sub_mul, ← Int.cast_sub]
        at representable ⊢
      exact stands_normalize representable

theorem mul (left : Stands u p) (right : Stands v q) (representable : Representable (p * q)) :
    Stands (UnpackedFloat.mul Format.binary64 u v) (p * q) := by
  cases left with
  | zero =>
    rw [zero_mul]
    cases right <;> exact .zero
  | @finite s m e canonical =>
    cases right with
    | zero =>
      rw [mul_zero]
      exact .zero
    | @finite s' m' e' canonical' =>
      have number : (s.apply m : ℚ) * 2 ^ e * (s'.apply m' * 2 ^ e') =
          (s * s').apply ((m * m' : ℕ) : ℤ) * 2 ^ (e + e') := by
        rw [apply_mul_sign, zpow_add₀ two_ne_zero]
        push_cast
        ring
      rw [number] at representable ⊢
      apply stands_roundWithAccuracy (Nat.mul_pos canonical.positive canonical'.positive) representable
      intro M E canonical'' same
      by_contra gt
      obtain ⟨whole, -⟩ := mantissa_of_le same.symm (by omega)
      have least := canonical''.least
      have fits := canonical''.fits
      have twice : 2 * (m * m') ≤ M := by
        rw [whole, mul_comm 2]
        exact Nat.mul_le_mul_left _ (Nat.le_self_pow (by omega) 2)
      -- a full mantissa leaves no room for a shift, and two short ones come with too small an exponent
      rcases canonical.full with full | rfl
      · have room := Nat.le_mul_of_pos_right m canonical'.positive
        omega
      · rcases canonical'.full with full | rfl
        · have room := Nat.le_mul_of_pos_left m' canonical.positive
          omega
        · omega

theorem div (left : Stands u p) (right : Stands v q) (nonzero : q ≠ 0) (representable : Representable (p / q)) :
    Stands (UnpackedFloat.div Format.binary64 u v) (p / q) := by
  cases right with
  | zero => exact absurd rfl nonzero
  | @finite s' m' e' canonical' =>
    cases left with
    | zero =>
      rw [zero_div]
      exact .zero
    | @finite s m e canonical =>
      have size := abs_div ((s.apply m : ℚ) * 2 ^ e) (s'.apply m' * 2 ^ e')
      rw [abs_apply_mul, abs_apply_mul] at size
      have signed := apply_div_apply s s' m m' e e'
      -- the quotient is known in its canonical form before anything is divided
      obtain ⟨w, stands⟩ := representable
      generalize (s.apply m : ℚ) * 2 ^ e / (s'.apply m' * 2 ^ e') = r at stands size signed ⊢
      have scale : (0 : ℚ) < m' * 2 ^ e' := by
        have positive : (0 : ℚ) < m' := by exact_mod_cast canonical'.positive
        positivity
      have positive : (0 : ℚ) < m * 2 ^ e := by
        have positive : (0 : ℚ) < m := by exact_mod_cast canonical.positive
        positivity
      cases stands with
      | zero =>
        rw [abs_zero] at size
        exact absurd size (div_pos positive scale).ne
      | @finite s'' M E canonical'' =>
        rw [abs_apply_mul] at size
        have same : (m : ℚ) * 2 ^ e = ((m' * M : ℕ) : ℚ) * 2 ^ (e' + E) := by
          rw [eq_div_iff scale.ne'] at size
          rw [← size, zpow_add₀ two_ne_zero]
          push_cast
          ring
        obtain ⟨shift, quotient⟩ := canonical''.divCore canonical.positive canonical'.positive same
        simp only [UnpackedFloat.div, quotient, canonical''.roundWithAccuracy]
        apply (Stands.finite canonical'').of_eq
        rw [signed, ← size, apply_eq_mul]
        push_cast
        ring

end Stands

section Value

variable {x y : Float} {p q : ℚ}

theorem value?_add (left : value? x = some p) (right : value? y = some q) (representable : Representable (p + q)) :
    value? (x + y) = some (p + q) :=
  value?_of_packed rfl ((stands_of_value? left).add (stands_of_value? right) representable)

theorem value?_sub (left : value? x = some p) (right : value? y = some q) (representable : Representable (p - q)) :
    value? (x - y) = some (p - q) :=
  value?_of_packed rfl ((stands_of_value? left).sub (stands_of_value? right) representable)

theorem value?_mul (left : value? x = some p) (right : value? y = some q) (representable : Representable (p * q)) :
    value? (x * y) = some (p * q) :=
  value?_of_packed rfl ((stands_of_value? left).mul (stands_of_value? right) representable)

theorem value?_div (left : value? x = some p) (right : value? y = some q) (nonzero : q ≠ 0)
    (representable : Representable (p / q)) : value? (x / y) = some (p / q) :=
  value?_of_packed rfl ((stands_of_value? left).div (stands_of_value? right) nonzero representable)

end Value

end Reckon.Double
