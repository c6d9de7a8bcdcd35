import Mathlib
import Reckon.Decimal.Nearest

namespace Reckon.Double

open Float.Model (UnpackedFloat Format)
open Float.Model.UnpackedFloat

abbrev Pattern := BitVec Format.binary64.numBits

section Parts

variable (b : Pattern)

theorem mantissa_toNat : (unpackMantissa b).toNat = b.toNat % 2 ^ 52 := by
  simp [unpackMantissa]

theorem exponent_toNat : (unpackExponent b).toNat = b.toNat / 2 ^ 52 % 2 ^ 11 := by
  simp [unpackExponent, Nat.shiftRight_eq_div_pow]

theorem sign_toNat : (unpackSign b).toNat = b.toNat / 2 ^ 63 := by
  have small : b.toNat < 2 ^ 64 := b.isLt
  simp only [unpackSign, BitVec.toNat_cast, BitVec.extractLsb_toNat, Nat.shiftRight_eq_div_pow]
  omega

end Parts

theorem unpack_ofBits (bits : UInt64) (valid : Format.binary64.Valid bits.toBitVec) :
    (Float.ofBits bits).toModel.unpack = unpack Format.binary64 bits.toBitVec :=
  congrArg (unpack Format.binary64) (pack_unpack_of_valid valid)

inductive Plain : UnpackedFloat → Prop where
  | zero : Plain (.zero .positive)
  | finite {m e positive} : Plain (.finite .positive m e positive)
  | infinity : Plain (.infinity .positive)

theorem Plain.isNaN {u : UnpackedFloat} (plain : Plain u) : u.isNaN = false := by
  cases plain <;> rfl

theorem Plain.lt_zero {u : UnpackedFloat} (plain : Plain u) : u.lt (.zero .positive) = false := by
  cases plain <;> rfl

section Natural

variable {n : Nat}

theorem ofNat_toNat (le : n ≤ Decimal.infinityBits) : (BitVec.ofNat 64 n).toNat = n := by
  rw [BitVec.toNat_ofNat, Nat.mod_eq_of_lt]
  calc n ≤ Decimal.infinityBits := le
    _ < 2 ^ 64 := by decide

theorem mantissa_of_top (le : n ≤ Decimal.infinityBits)
    (top : @unpackExponent Format.binary64 (BitVec.ofNat 64 n) = -1#_) :
    @unpackMantissa Format.binary64 (BitVec.ofNat 64 n) = 0#_ := by
  have limit : n ≤ 2047 * 2 ^ 52 := le
  have exponent : n / 2 ^ 52 % 2 ^ 11 = 2047 := by
    rw [← ofNat_toNat le, ← exponent_toNat, top]
    rfl
  apply BitVec.eq_of_toNat_eq
  rw [mantissa_toNat, ofNat_toNat le]
  show n % 2 ^ 52 = 0
  omega

theorem valid_of_le (le : n ≤ Decimal.infinityBits) : Format.binary64.Valid (BitVec.ofNat 64 n) :=
  ⟨fun top more => absurd (mantissa_of_top le top) more⟩

theorem plain_unpack (le : n ≤ Decimal.infinityBits) : Plain (unpack Format.binary64 (BitVec.ofNat 64 n)) := by
  have limit : n ≤ 2047 * 2 ^ 52 := le
  have positive : @unpackSign Format.binary64 (BitVec.ofNat 64 n) = 0#1 := by
    apply BitVec.eq_of_toNat_eq
    rw [sign_toNat, ofNat_toNat le]
    show n / 2 ^ 63 = 0
    omega
  simp only [unpack, positive]
  split
  · rename_i top
    rw [if_pos (mantissa_of_top le top)]
    exact .infinity
  · split
    · split
      · exact .zero
      · exact .finite
    · exact .finite

end Natural

/-- Zero or more, with infinity. A NaN is not meant, and neither is the zero that has a sign. -/
structure Unsigned (x : Float) : Prop where
  number : x.isNaN = false
  nonnegative : ¬ x < 0
  plain_zero : x ≠ -0

theorem lt_zero_iff (x : Float) : x < 0 ↔ x.toModel.unpack.lt (.zero .positive) = true := by
  show decide (x.toModel < (0 : Float).toModel) = true ↔ _
  rw [decide_eq_true_iff]
  rfl

theorem unsigned_of_plain {x : Float} (plain : Plain x.toModel.unpack) : Unsigned x := by
  have negative : (-0 : Float).toModel.unpack = .zero .negative := rfl
  constructor
  · exact plain.isNaN
  · rw [lt_zero_iff, plain.lt_zero]
    exact Bool.false_ne_true
  · intro same
    rw [same, negative] at plain
    cases plain

theorem unsigned_nearest (n : Nat) : Unsigned (Decimal.nearest n) := by
  have le := Decimal.nearestBits_le_infinityBits n
  have same := unpack_ofBits (UInt64.ofNat (Decimal.nearestBits n)) (valid_of_le le)
  apply unsigned_of_plain
  rw [Decimal.nearest, same]
  exact plain_unpack le

end Reckon.Double
