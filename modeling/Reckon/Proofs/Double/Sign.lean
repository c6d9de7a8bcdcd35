import Reckon.Decimal.Text
import Reckon.Proofs.Double.Shortest

namespace Reckon.Double

open Decimal (infinityBits unsignedBits)
open Float.Model (UnpackedFloat Format)
open Float.Model.UnpackedFloat

def signed (negative : Bool) (x : Float) : Float :=
  if negative then -x else x

theorem eq_of_unpack {x y : Float} (same : x.toModel.unpack = y.toModel.unpack) : x = y := by
  have bits := (unpack_inj_of_valid x.toModel.valid y.toModel.valid).mp same
  exact Float.toBits_inj.mp (UInt64.toBitVec_inj.mp bits)

theorem unpack_opposite {b b' : Pattern}
    (exponent : @unpackExponent Format.binary64 b = @unpackExponent Format.binary64 b')
    (mantissa : @unpackMantissa Format.binary64 b = @unpackMantissa Format.binary64 b')
    (negative : @unpackSign Format.binary64 b = 1#1) (positive : @unpackSign Format.binary64 b' = 0#1) :
    unpack Format.binary64 b = (unpack Format.binary64 b').neg := by
  simp only [unpack, exponent, mantissa, negative, positive]
  split
  · split <;> rfl
  · split
    · split <;> rfl
    · rfl

theorem number?_of_top {b : Pattern} (top : (@unpackExponent Format.binary64 b).toNat = 2047) :
    number? (unpack Format.binary64 b) = none := by
  have all : @unpackExponent Format.binary64 b = -1#11 := BitVec.eq_of_toNat_eq top
  simp only [unpack, if_pos all]
  split <;> rfl

theorem exists_value? {bits : ℕ} (finite : bits < infinityBits) :
    ∃ q, value? (Float.ofBits (UInt64.ofNat bits)) = some q ∧ 0 ≤ q := by
  rcases Nat.eq_zero_or_pos bits with rfl | positive
  · exact ⟨0, rfl, le_rfl⟩
  · exact ⟨_, value?_ofBits positive finite, div_nonneg (Nat.cast_nonneg _) (pow_nonneg zero_le_two _)⟩

theorem value?_signed {x : Float} {q : ℚ} (valued : value? x = some q) (negative : Bool) :
    value? (signed negative x) = some (if negative then -q else q) := by
  cases negative with
  | false => exact valued
  | true => exact value?_neg valued

section Bits

variable (x : Float)

theorem bits_lt : x.toBits.toNat < 2 ^ 64 :=
  x.toBits.toNat_lt

theorem unsigned_le : unsignedBits x.toBits.toNat = x.toBits.toNat % 2 ^ 63 :=
  rfl

theorem value?_of_top (top : infinityBits ≤ unsignedBits x.toBits.toNat) : value? x = none := by
  apply number?_of_top
  rw [exponent_toNat]
  show x.toBits.toNat / 2 ^ 52 % 2 ^ 11 = 2047
  have le : 2047 * 2 ^ 52 ≤ x.toBits.toNat % 2 ^ 63 := top
  omega

theorem eq_signed (finite : unsignedBits x.toBits.toNat < infinityBits) :
    x = signed (decide (2 ^ 63 ≤ x.toBits.toNat)) (Float.ofBits (UInt64.ofNat (unsignedBits x.toBits.toNat))) := by
  have lt := bits_lt x
  by_cases negative : 2 ^ 63 ≤ x.toBits.toNat
  · obtain ⟨q, valued, -⟩ := exists_value? finite
    have stands := (stands_of_value? valued).neg
    rw [decide_eq_true negative]
    apply eq_of_unpack
    show _ = (-_ : Float).toModel.unpack
    have plain := unpack_ofBits (UInt64.ofNat (unsignedBits x.toBits.toNat)) (valid_of_le finite.le)
    rw [unpack_neg, stands.unpack_pack, plain]
    show unpack Format.binary64 x.toBits.toBitVec =
      (unpack Format.binary64 (BitVec.ofNat 64 (unsignedBits x.toBits.toNat))).neg
    -- both sides are patterns now, which agree but for the first bit
    have whole : x.toBits.toBitVec.toNat = x.toBits.toNat := rfl
    have rest := ofNat_toNat finite.le
    rw [unsigned_le] at rest ⊢
    apply unpack_opposite <;> apply BitVec.eq_of_toNat_eq
    · rw [exponent_toNat, exponent_toNat, rest, whole]
      omega
    · rw [mantissa_toNat, mantissa_toNat, rest, whole]
      omega
    · rw [sign_toNat, whole]
      show x.toBits.toNat / 2 ^ 63 = 1
      omega
    · rw [sign_toNat, rest]
      show x.toBits.toNat % 2 ^ 63 / 2 ^ 63 = 0
      omega
  · have small : unsignedBits x.toBits.toNat = x.toBits.toNat := by
      rw [unsigned_le]
      omega
    rw [decide_eq_false negative, small, UInt64.ofNat_toNat, Float.ofBits_toBits]
    rfl

def Whole : Prop :=
  ∃ i : ℤ, value? x = some (i : ℚ)

theorem whole_iff_natural (finite : unsignedBits x.toBits.toNat < infinityBits) :
    Whole x ↔ Natural (Float.ofBits (UInt64.ofNat (unsignedBits x.toBits.toNat))) := by
  have same := eq_signed x finite
  obtain ⟨q, valued, nonneg⟩ := exists_value? finite
  generalize Float.ofBits (UInt64.ofNat (unsignedBits x.toBits.toNat)) = y at same valued ⊢
  have signs := value?_signed valued (decide (2 ^ 63 ≤ x.toBits.toNat))
  rw [← same] at signs
  generalize decide (2 ^ 63 ≤ x.toBits.toNat) = negative at signs
  constructor
  · rintro ⟨i, whole⟩
    have number := Option.some.inj (signs.symm.trans whole)
    refine ⟨i.natAbs, ?_⟩
    have size : q = |(i : ℚ)| := by
      rw [← number]
      cases negative <;> simp [abs_of_nonneg nonneg]
    rw [valued, size, ← Int.cast_abs, Int.abs_eq_natAbs, Int.cast_natCast]
  · rintro ⟨k, natural⟩
    rw [Option.some.inj (valued.symm.trans natural)] at signs
    cases negative with
    | false => exact ⟨k, by simpa using signs⟩
    | true => exact ⟨-k, by simpa using signs⟩

end Bits

end Reckon.Double
