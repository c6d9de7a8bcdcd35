import Reckon.Proofs.Double.Sign

namespace Reckon.Double

open Float.Model (UnpackedFloat Format)
open Float.Model.UnpackedFloat

/-- The two compare equal, where a NaN is taken as equal to a NaN. -/
def Alike (x y : Float) : Prop :=
  (x == y) = true ∨ x.isNaN = true ∧ y.isNaN = true

def mergeZeros : UnpackedFloat → UnpackedFloat
  | .zero _ => .zero .positive
  | u => u

section Parts

variable (u v : UnpackedFloat)

theorem compare_mergeZeros : (mergeZeros u).compare (mergeZeros v) = u.compare v := by
  cases u with
  | notANumber => cases v <;> rfl
  | infinity s => cases s <;> cases v <;> rfl
  | zero s =>
    cases v with
    | infinity t | finite t => cases t <;> rfl
    | notANumber | zero => rfl
  | finite s => cases s <;> cases v <;> rfl

theorem mergeZeros_neg : mergeZeros (mergeZeros u).neg = mergeZeros u.neg := by
  cases u <;> rfl

theorem mergeZeros_add :
    mergeZeros ((mergeZeros u).add Format.binary64 (mergeZeros v)) = mergeZeros (u.add Format.binary64 v) := by
  cases u with
  | zero s =>
    cases v with
    | zero t => cases s <;> cases t <;> rfl
    | notANumber | infinity | finite => rfl
  | notANumber | infinity | finite => cases v <;> rfl

theorem mergeZeros_sub :
    mergeZeros ((mergeZeros u).sub Format.binary64 (mergeZeros v)) = mergeZeros (u.sub Format.binary64 v) := by
  cases u with
  | zero s =>
    cases v with
    | zero t => cases s <;> cases t <;> rfl
    | notANumber | infinity | finite => rfl
  | notANumber | infinity | finite => cases v <;> rfl

theorem mergeZeros_mul :
    mergeZeros ((mergeZeros u).mul Format.binary64 (mergeZeros v)) = mergeZeros (u.mul Format.binary64 v) := by
  cases u <;> cases v <;> rfl

theorem mergeZeros_of_nonzero {v : UnpackedFloat} (nonzero : ∀ s, v ≠ .zero s) : mergeZeros v = v := by
  cases v with
  | zero s => exact absurd rfl (nonzero s)
  | notANumber | infinity | finite => rfl

theorem mergeZeros_div (nonzero : ∀ s, v ≠ .zero s) :
    mergeZeros ((mergeZeros u).div Format.binary64 v) = mergeZeros (u.div Format.binary64 v) := by
  cases v with
  | zero s => exact absurd rfl (nonzero s)
  | notANumber | infinity | finite => cases u <;> rfl

theorem mergeZeros_unpack_pack : mergeZeros (unpack Format.binary64 (pack Format.binary64 (mergeZeros u))) =
    mergeZeros (unpack Format.binary64 (pack Format.binary64 u)) := by
  cases u with
  | zero s =>
    show mergeZeros (unpack Format.binary64 (packedZero Format.binary64 .positive)) =
      mergeZeros (unpack Format.binary64 (packedZero Format.binary64 s))
    rw [unpack_packedZero, unpack_packedZero]
    rfl
  | notANumber | infinity | finite => rfl

end Parts

section Merged

variable {u v : UnpackedFloat}

theorem eq_notANumber (nan : u.isNaN = true) : u = .notANumber := by
  cases u with
  | notANumber => rfl
  | infinity | zero | finite => cases nan

theorem mergeZeros_eq_notANumber (same : mergeZeros u = .notANumber) : u = .notANumber := by
  cases u with
  | notANumber => rfl
  | infinity | zero | finite => cases same

theorem compare_self (number : u.isNaN = false) : u.compare u = some .eq := by
  cases u with
  | notANumber => cases number
  | infinity s => cases s <;> rfl
  | zero s => rfl
  | finite s => cases s <;> simp [UnpackedFloat.compare]

theorem mergeZeros_of_compare (equal : u.compare v = some .eq) : mergeZeros u = mergeZeros v := by
  cases u with
  | notANumber => cases equal
  | infinity s =>
    cases v with
    | infinity t =>
      have sign : s = t := by
        cases s with
        | negative =>
          cases t with
          | negative => rfl
          | positive => cases equal
        | positive =>
          cases t with
          | negative => cases equal
          | positive => rfl
      rw [sign]
    | notANumber | zero | finite => cases s <;> cases equal
  | zero s =>
    cases v with
    | zero t => rfl
    | infinity t | finite t => cases t <;> cases equal
    | notANumber => cases equal
  | finite s =>
    cases v with
    | finite t => cases s <;> cases t <;> simp_all [UnpackedFloat.compare, Ordering.then_eq_eq]
    | infinity t => cases s <;> cases t <;> cases equal
    | notANumber | zero => cases s <;> cases equal

end Merged

theorem beq_iff (x y : Float) : (x == y) = true ↔ x.toModel.unpack.compare y.toModel.unpack = some .eq := by
  show (x.toModel.unpack.compare y.toModel.unpack == some .eq) = true ↔ _
  exact beq_iff_eq

theorem lt_iff (x y : Float) : x < y ↔ x.toModel.unpack.compare y.toModel.unpack = some .lt := by
  show decide (x.toModel < y.toModel) = true ↔ _
  rw [decide_eq_true_iff]
  show (x.toModel.unpack.compare y.toModel.unpack == some .lt) = true ↔ _
  exact beq_iff_eq

theorem unpack_ne_zero {x : Float} (nonzero : (x == 0) = false) (s : Sign) : x.toModel.unpack ≠ .zero s := by
  intro parts
  have equal : (x == 0) = true := by
    rw [beq_iff, parts]
    rfl
  rw [nonzero] at equal
  cases equal

theorem alike_iff (x y : Float) : Alike x y ↔ mergeZeros x.toModel.unpack = mergeZeros y.toModel.unpack := by
  constructor
  · rintro (equal | ⟨nan, nan'⟩)
    · exact mergeZeros_of_compare ((beq_iff x y).mp equal)
    · rw [eq_notANumber nan, eq_notANumber nan']
  · intro same
    by_cases nan : x.isNaN = true
    · rw [eq_notANumber nan] at same
      have other : y.toModel.unpack = .notANumber := mergeZeros_eq_notANumber same.symm
      have nan' : y.toModel.unpack.isNaN = true := by rw [other]; rfl
      exact .inr ⟨nan, nan'⟩
    · left
      rw [beq_iff, ← compare_mergeZeros, ← same, compare_mergeZeros]
      exact compare_self (Bool.eq_false_of_not_eq_true nan)

section Packed

variable {x y : Float} {u v u' v' : UnpackedFloat}

theorem alike_of_packed (packed : x.toModel.unpack = unpack Format.binary64 (pack Format.binary64 u))
    (packed' : y.toModel.unpack = unpack Format.binary64 (pack Format.binary64 v))
    (same : mergeZeros u = mergeZeros v) : Alike x y := by
  rw [alike_iff, packed, packed', ← mergeZeros_unpack_pack, same, mergeZeros_unpack_pack]

theorem mergeZeros_congr {op : UnpackedFloat → UnpackedFloat → UnpackedFloat}
    (blind : ∀ u v, mergeZeros (op (mergeZeros u) (mergeZeros v)) = mergeZeros (op u v))
    (first : mergeZeros u = mergeZeros u') (second : mergeZeros v = mergeZeros v') :
    mergeZeros (op u v) = mergeZeros (op u' v') := by
  rw [← blind, first, second, blind]

end Packed

namespace Alike

variable {x x' y y' : Float}

theorem merged (alike : Alike x x') : mergeZeros x.toModel.unpack = mergeZeros x'.toModel.unpack :=
  (alike_iff x x').mp alike

theorem symm (alike : Alike x x') : Alike x' x :=
  (alike_iff x' x).mpr alike.merged.symm

theorem neg (alike : Alike x x') : Alike (-x) (-x') := by
  have same : mergeZeros x.toModel.unpack.neg = mergeZeros x'.toModel.unpack.neg := by
    rw [← mergeZeros_neg, alike.merged, mergeZeros_neg]
  exact alike_of_packed rfl rfl same

theorem add (first : Alike x x') (second : Alike y y') : Alike (x + y) (x' + y') :=
  alike_of_packed rfl rfl (mergeZeros_congr mergeZeros_add first.merged second.merged)

theorem sub (first : Alike x x') (second : Alike y y') : Alike (x - y) (x' - y') :=
  alike_of_packed rfl rfl (mergeZeros_congr mergeZeros_sub first.merged second.merged)

theorem mul (first : Alike x x') (second : Alike y y') : Alike (x * y) (x' * y') :=
  alike_of_packed rfl rfl (mergeZeros_congr mergeZeros_mul first.merged second.merged)

theorem beq_congr (alike : Alike x x') (z : Float) : (x == z) = (x' == z) := by
  rw [Bool.eq_iff_iff, beq_iff, beq_iff, ← compare_mergeZeros, alike.merged, compare_mergeZeros]

theorem lt_congr (alike : Alike x x') (z : Float) : x < z ↔ x' < z := by
  rw [lt_iff, lt_iff, ← compare_mergeZeros, alike.merged, compare_mergeZeros]

theorem eq_of_nonzero (alike : Alike y y') (nonzero : (y == 0) = false) : y = y' := by
  have nonzero' : (y' == 0) = false := by rw [← alike.beq_congr, nonzero]
  apply eq_of_unpack
  rw [← mergeZeros_of_nonzero (unpack_ne_zero nonzero), alike.merged, mergeZeros_of_nonzero (unpack_ne_zero nonzero')]

theorem div (first : Alike x x') (second : Alike y y') (nonzero : (y == 0) = false) : Alike (x / y) (x' / y') := by
  have divisor := unpack_ne_zero nonzero
  have same : mergeZeros (x.toModel.unpack.div Format.binary64 y.toModel.unpack) =
      mergeZeros (x'.toModel.unpack.div Format.binary64 y.toModel.unpack) := by
    rw [← mergeZeros_div _ _ divisor, first.merged, mergeZeros_div _ _ divisor]
  rw [second.eq_of_nonzero nonzero] at same ⊢
  exact alike_of_packed rfl rfl same

end Alike

end Reckon.Double
