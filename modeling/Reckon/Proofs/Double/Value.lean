import Reckon.Proofs.Double.Pattern

namespace Reckon.Double

open Float.Model (UnpackedFloat Format)
open Float.Model.UnpackedFloat

def number? : UnpackedFloat → Option ℚ
  | .zero _ => some 0
  | .finite s m e _ => some (s.apply m * 2 ^ e)
  | .infinity _ | .notANumber => none

/-- The number that a double stands for, if it is finite. -/
def value? (x : Float) : Option ℚ :=
  number? x.toModel.unpack

/-- The parts of the finite doubles other than zero, up to the sign. The mantissa has all its 53 bits unless the
exponent is the least one. -/
structure Canonical (m : ℕ) (e : ℤ) : Prop where
  positive : 0 < m
  fits : m < 2 ^ 53
  least : -1074 ≤ e
  greatest : e ≤ 971
  full : 2 ^ 52 ≤ m ∨ e = -1074

section Unpack

variable {b : Pattern}

theorem exponent_ne {field : BitVec 11} (other : (@unpackExponent Format.binary64 b).toNat ≠ field.toNat) :
    @unpackExponent Format.binary64 b ≠ field :=
  fun same => other (congrArg BitVec.toNat same)

theorem unpack_normal (low : (@unpackExponent Format.binary64 b).toNat ≠ 0)
    (high : (@unpackExponent Format.binary64 b).toNat ≠ 2047) :
    unpack Format.binary64 b = .finite (.ofBitVec (unpackSign b)) (2 ^ 52 + (@unpackMantissa Format.binary64 b).toNat)
      ((@unpackExponent Format.binary64 b).toNat - 1075) (by omega) := by
  have small : (@unpackMantissa Format.binary64 b).toNat < 2 ^ 52 := BitVec.isLt _
  have joined : (1#1 ++ @unpackMantissa Format.binary64 b).toNat =
      2 ^ 52 + (@unpackMantissa Format.binary64 b).toNat := by
    rw [BitVec.toNat_append, Nat.shiftLeft_eq]
    have sum := Nat.two_pow_add_eq_or_of_lt small 1
    rw [Nat.mul_one] at sum
    exact sum.symm
  have finite : @unpackExponent Format.binary64 b ≠ -1#11 := exponent_ne high
  have normal : @unpackExponent Format.binary64 b ≠ 0#11 := exponent_ne low
  simp only [unpack, if_neg finite, if_neg normal, joined]
  rfl

theorem unpack_subnormal (low : (@unpackExponent Format.binary64 b).toNat = 0)
    (positive : 0 < (@unpackMantissa Format.binary64 b).toNat) :
    unpack Format.binary64 b =
      .finite (.ofBitVec (unpackSign b)) (@unpackMantissa Format.binary64 b).toNat (-1074) positive := by
  have least : @unpackExponent Format.binary64 b = 0#11 := BitVec.eq_of_toNat_eq low
  have nonzero : @unpackMantissa Format.binary64 b ≠ 0#52 := by
    intro zero
    rw [zero] at positive
    cases positive
  simp only [unpack, dif_neg nonzero, least, if_true]
  rfl

theorem canonical_of_unpack {s : Sign} {m : ℕ} {e : ℤ} {positive : 0 < m}
    (parts : unpack Format.binary64 b = .finite s m e positive) : Canonical m e := by
  have small : (@unpackMantissa Format.binary64 b).toNat < 2 ^ 52 := BitVec.isLt _
  have field : (@unpackExponent Format.binary64 b).toNat < 2 ^ 11 := BitVec.isLt _
  by_cases high : (@unpackExponent Format.binary64 b).toNat = 2047
  · have top : @unpackExponent Format.binary64 b = -1#11 := BitVec.eq_of_toNat_eq high
    simp only [unpack, if_pos top] at parts
    split at parts <;> cases parts
  · by_cases low : (@unpackExponent Format.binary64 b).toNat = 0
    · by_cases zero : (@unpackMantissa Format.binary64 b).toNat = 0
      · have least : @unpackExponent Format.binary64 b = 0#11 := BitVec.eq_of_toNat_eq low
        have none : @unpackMantissa Format.binary64 b = 0#52 := BitVec.eq_of_toNat_eq zero
        simp only [unpack, least, none] at parts
        cases parts
      · rw [unpack_subnormal low (Nat.pos_of_ne_zero zero)] at parts
        cases parts
        constructor <;> omega
    · rw [unpack_normal low high] at parts
      cases parts
      constructor <;> omega

end Unpack

section Pack

variable {s : Sign} {m : ℕ} {e : ℤ}

theorem pack_normal (canonical : Canonical m e) (full : 2 ^ 52 ≤ m) :
    pack Format.binary64 (.finite s m e canonical.positive) =
      packComponents Format.binary64 s (BitVec.ofNat 11 (e + 1075).toNat) (BitVec.ofNat 52 m) := by
  have bits : m.log2 = 52 := (Nat.log2_eq_iff (by omega)).mpr ⟨full, canonical.fits⟩
  have bias : e + Format.binary64.exponentBias + Format.binary64.mantissaBitsWithoutImplicit = e + 1075 := by
    show e + (1023 : ℕ) + (52 : ℕ) = e + 1075
    omega
  have greatest := canonical.greatest
  have fits : ¬ 2 ^ Format.binary64.exponentBits ≤ (e + 1075).toNat + 1 := by
    show ¬ 2048 ≤ (e + 1075).toNat + 1
    omega
  simp only [pack, bias, bits]
  rw [if_neg fits]
  rfl

theorem pack_subnormal (canonical : Canonical m e) (short : m < 2 ^ 52) :
    pack Format.binary64 (.finite s m e canonical.positive) =
      packComponents Format.binary64 s 0#11 (BitVec.ofNat 52 m) := by
  have bits : m.log2 < 52 := (Nat.log2_lt (Nat.pos_iff_ne_zero.mp canonical.positive)).mpr short
  have least : e = -1074 := canonical.full.resolve_left (by omega)
  subst least
  have few : ¬ m.log2 + 1 = Format.binary64.mantissaBits := by
    show ¬ m.log2 + 1 = 53
    omega
  simp only [pack, if_neg few]
  rfl

theorem unpack_pack (canonical : Canonical m e) :
    unpack Format.binary64 (pack Format.binary64 (.finite s m e canonical.positive)) =
      .finite s m e canonical.positive := by
  have fits := canonical.fits
  have least := canonical.least
  have greatest := canonical.greatest
  by_cases full : 2 ^ 52 ≤ m
  · have field : (BitVec.ofNat 11 (e + 1075).toNat).toNat = (e + 1075).toNat := by
      rw [BitVec.toNat_ofNat]
      omega
    have fraction : (BitVec.ofNat 52 m).toNat = m - 2 ^ 52 := by
      rw [BitVec.toNat_ofNat]
      omega
    rw [pack_normal canonical full, unpack_normal]
    · simp only [unpackExponent_packComponents, unpackMantissa_packComponents, unpackSign_packComponents,
        Sign.ofBitVec_toBitVec, field, fraction, UnpackedFloat.finite.injEq, true_and]
      omega
    · rw [unpackExponent_packComponents, field]
      omega
    · rw [unpackExponent_packComponents, field]
      omega
  · have short : m < 2 ^ 52 := by omega
    have fraction : (BitVec.ofNat 52 m).toNat = m := by
      rw [BitVec.toNat_ofNat, Nat.mod_eq_of_lt short]
    have positive := canonical.positive
    rw [pack_subnormal canonical short, unpack_subnormal]
    · simp only [unpackMantissa_packComponents, unpackSign_packComponents, Sign.ofBitVec_toBitVec, fraction,
        UnpackedFloat.finite.injEq, true_and]
      exact (canonical.full.resolve_left full).symm
    · rw [unpackExponent_packComponents]
      rfl
    · rw [unpackMantissa_packComponents, fraction]
      exact positive

end Pack

inductive Stands : UnpackedFloat → ℚ → Prop where
  | zero {s} : Stands (.zero s) 0
  | finite {s m e} (canonical : Canonical m e) : Stands (.finite s m e canonical.positive) (s.apply m * 2 ^ e)

theorem apply_neg_sign (s : Sign) (n : ℤ) : (-s).apply n = -s.apply n := by
  cases s with
  | negative => exact (Int.neg_neg n).symm
  | positive => rfl

namespace Stands

variable {u : UnpackedFloat} {q : ℚ}

theorem unpack_pack (stands : Stands u q) : unpack Format.binary64 (pack Format.binary64 u) = u := by
  cases stands with
  | zero => exact unpack_packedZero
  | finite canonical => exact Double.unpack_pack canonical

theorem number? (stands : Stands u q) : number? u = some q := by
  cases stands <;> rfl

theorem neg (stands : Stands u q) : Stands u.neg (-q) := by
  cases stands with
  | zero =>
    rw [neg_zero]
    exact .zero
  | @finite s m e canonical =>
    have opposite : -((s.apply m : ℚ) * 2 ^ e) = (-s).apply m * 2 ^ e := by
      rw [apply_neg_sign, Int.cast_neg, neg_mul]
    rw [opposite]
    exact .finite canonical

theorem of_eq {r : ℚ} (stands : Stands u q) (same : q = r) : Stands u r :=
  same ▸ stands

end Stands

theorem stands_of_value? {x : Float} {q : ℚ} (valued : value? x = some q) : Stands x.toModel.unpack q := by
  unfold value? at valued
  cases parts : x.toModel.unpack with
  | infinity s | notANumber =>
    rw [parts] at valued
    cases valued
  | zero s =>
    rw [parts] at valued
    cases valued
    exact .zero
  | finite s m e positive =>
    rw [parts] at valued
    cases valued
    exact .finite (canonical_of_unpack parts)

theorem value?_of_packed {x : Float} {u : UnpackedFloat} {q : ℚ}
    (packed : x.toModel.unpack = unpack Format.binary64 (pack Format.binary64 u)) (stands : Stands u q) :
    value? x = some q := by
  rw [value?, packed, stands.unpack_pack, stands.number?]

theorem apply_mul_ne_zero {m : ℕ} (s : Sign) (positive : 0 < m) (e : ℤ) : (s.apply m : ℚ) * 2 ^ e ≠ 0 := by
  have nonzero : (m : ℚ) ≠ 0 := by exact_mod_cast Nat.pos_iff_ne_zero.mp positive
  apply mul_ne_zero _ (zpow_ne_zero e two_ne_zero)
  cases s <;> simpa [Sign.apply] using nonzero

theorem beq_zero_iff {x : Float} : (x == 0) = true ↔ value? x = some 0 := by
  have zero : (0 : Float).toModel.unpack = .zero .positive := rfl
  show x.toModel.unpack.beq (0 : Float).toModel.unpack = true ↔ number? x.toModel.unpack = some 0
  rw [zero]
  cases x.toModel.unpack with
  | infinity s => cases s <;> simp [UnpackedFloat.beq, UnpackedFloat.compare, number?]
  | notANumber => simp [UnpackedFloat.beq, UnpackedFloat.compare, number?]
  | zero s => simp [UnpackedFloat.beq, UnpackedFloat.compare, number?]
  | finite s m e positive =>
    have nonzero := apply_mul_ne_zero s positive e
    cases s <;> simpa [UnpackedFloat.beq, UnpackedFloat.compare, number?] using nonzero

theorem unpack_neg (x : Float) :
    (-x).toModel.unpack = unpack Format.binary64 (pack Format.binary64 x.toModel.unpack.neg) :=
  rfl

theorem value?_neg {x : Float} {q : ℚ} (valued : value? x = some q) : value? (-x) = some (-q) :=
  value?_of_packed (unpack_neg x) (stands_of_value? valued).neg

end Reckon.Double
