import Reckon.Expr.Value
import Reckon.Proofs.Double.Alike
import Reckon.Proofs.Expression.Agreement

namespace Reckon

open Double (Alike)

/-- A power that cannot tell the two zeros apart, but where zero is raised to a negative number. -/
def Steady (power : Float → Float → Float) : Prop :=
  ∀ x x' y y', Alike x x' → Alike y y' → ¬ ((x == 0) = true ∧ y < 0) → Alike (power x y) (power x' y')

namespace Expr

def applyBinaryBy (power : Float → Float → Float) (op : Kind) (left right : Float) : Except EvalError Float :=
  match op with
  | .power => if left == 0 && right < 0 then .error .divisionByZero else .ok (power left right)
  | _ => applyBinary op left right

def valueBy (power : Float → Float → Float) : Expr → Except EvalError Float
  | number value => .ok value
  | unary op operand => do
    let operand ← operand.valueBy power
    applyUnary op operand
  | binary left op right => do
    let left ← left.valueBy power
    let right ← right.valueBy power
    applyBinaryBy power op left right

theorem applyBinaryBy_pow (op : Kind) (left right : Float) :
    applyBinaryBy Float.pow op left right = applyBinary op left right := by
  cases op <;> rfl

theorem valueBy_pow (e : Expr) : e.valueBy Float.pow = e.value := by
  induction e with
  | number x => rfl
  | unary op e ih => simp only [valueBy, value, ih]
  | binary left op right ihl ihr => simp only [valueBy, value, ihl, ihr, applyBinaryBy_pow]

section Apply

variable {power : Float → Float → Float} {x x' y y' : Float}

theorem applyUnary_congr (op : Kind) (alike : Alike x x') :
    Agree Eq Alike (applyUnary op x) (applyUnary op x') := by
  cases op with
  | plus => exact .valued alike
  | minus => exact .valued alike.neg
  | integer | times | divide | power | opening | closing | finish => exact .failed rfl

theorem applyBinary_divide_congr (first : Alike x x') (second : Alike y y') :
    Agree Eq Alike (applyBinary .divide x y) (applyBinary .divide x' y') := by
  have zero := second.beq_congr 0
  simp only [applyBinary, ← zero]
  cases pole : y == 0 with
  | true => exact .failed rfl
  | false => exact .valued (first.div second pole)

theorem applyBinaryBy_power_congr (steady : Steady power) (first : Alike x x') (second : Alike y y') :
    Agree Eq Alike (applyBinaryBy power .power x y) (applyBinaryBy power .power x' y') := by
  have zero := first.beq_congr 0
  have below := second.lt_congr 0
  simp only [applyBinaryBy, ← zero, ← below]
  cases pole : x == 0 && decide (y < 0) with
  | true => exact .failed rfl
  | false =>
    have regular : ¬ ((x == 0) = true ∧ y < 0) := by
      intro both
      simp [both.1, both.2] at pole
    exact .valued (steady x x' y y' first second regular)

theorem applyBinaryBy_congr (steady : Steady power) (op : Kind) (first : Alike x x') (second : Alike y y') :
    Agree Eq Alike (applyBinaryBy power op x y) (applyBinaryBy power op x' y') := by
  cases op with
  | plus => exact .valued (first.add second)
  | minus => exact .valued (first.sub second)
  | times => exact .valued (first.mul second)
  | divide => exact applyBinary_divide_congr first second
  | power => exact applyBinaryBy_power_congr steady first second
  | integer | opening | closing | finish => exact .failed rfl

end Apply

theorem valueBy_congr {power : Float → Float → Float} (steady : Steady power) {e e' : Expr}
    (equal : e.same e' = true) : Agree Eq Alike (e.valueBy power) (e'.valueBy power) := by
  induction e generalizing e' with
  | number x =>
    cases e' with
    | number y => exact .valued (.inl equal)
    | unary | binary => cases equal
  | unary op e ih =>
    cases e' with
    | unary op' e' =>
      simp only [same, Bool.and_eq_true, beq_iff_eq] at equal
      obtain ⟨rfl, inner⟩ := equal
      apply Agree.bind (ih inner)
      intro x x' alike
      exact applyUnary_congr op alike
    | number | binary => cases equal
  | binary left op right ihl ihr =>
    cases e' with
    | binary left' op' right' =>
      simp only [same, Bool.and_eq_true, beq_iff_eq] at equal
      obtain ⟨⟨first, rfl⟩, second⟩ := equal
      apply Agree.bind (ihl first)
      intro x x' alike
      apply Agree.bind (ihr second)
      intro y y' alike'
      exact applyBinaryBy_congr steady op alike alike'
    | number | unary => cases equal

theorem ok_iff_of_agree {r r' : Except EvalError Float} (agree : Agree Eq Alike r r') {x : Float}
    (nonzero : (x == 0) = false) : r = .ok x ↔ r' = .ok x := by
  cases agree with
  | failed related =>
    rw [related]
  | valued alike =>
    constructor
    · intro ok
      cases ok
      rw [alike.eq_of_nonzero nonzero]
    · intro ok
      cases ok
      rw [alike.symm.eq_of_nonzero nonzero]

/-- Equal trees have the same failure, or values that compare equal or are both NaN. The sign of a zero decides
neither whether there is a value nor which infinity it is. -/
theorem value_of_equal_trees {power : Float → Float → Float} (steady : Steady power) {e e' : Expr}
    (equal : (e == e') = true) :
    (∀ e : Expr, e.valueBy Float.pow = e.value) ∧
      Agree Eq Alike (e.valueBy power) (e'.valueBy power) ∧
      ∀ x : Float, (x == 0) = false → (e.valueBy power = .ok x ↔ e'.valueBy power = .ok x) := by
  have agree := valueBy_congr steady equal
  refine ⟨valueBy_pow, agree, ?_⟩
  intro x nonzero
  exact ok_iff_of_agree agree nonzero

def cube (x y : Float) : Float :=
  if y == 3 then x * x * x else 1

theorem steady_cube : Steady cube := by
  intro x x' y y' first second _
  have exponent := second.beq_congr 3
  simp only [cube, ← exponent]
  split
  · exact (first.mul first).mul first
  · exact .inl rfl

def overCube (x : Float) : Expr :=
  .binary (.number 1) .divide (.binary (.number x) .power (.number 3))

theorem value_of_equal_trees_overCube :
    Steady cube ∧ (overCube 0 == overCube (-0)) = true ∧
      Agree Eq Alike ((overCube 0).valueBy cube) ((overCube (-0)).valueBy cube) ∧
      (overCube 0).valueBy cube = .error .divisionByZero ∧ (overCube (-0)).valueBy cube = .error .divisionByZero := by
  have equal : (overCube 0 == overCube (-0)) = true := rfl
  obtain ⟨-, agree, -⟩ := value_of_equal_trees steady_cube equal
  exact ⟨steady_cube, equal, agree, rfl, rfl⟩

end Expr

end Reckon
