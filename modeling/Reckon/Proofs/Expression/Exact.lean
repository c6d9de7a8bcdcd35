import Reckon.Proofs.Double.Integer
import Reckon.Proofs.Expression.Formula

namespace Reckon

inductive Breach where
  | zeroDivisor
  | beyond
deriving DecidableEq, Repr

def Operation.apply : Operation → ℚ → ℚ → ℚ
  | plus, p, q => p + q
  | minus, p, q => p - q
  | times, p, q => p * q
  | divide, p, q => p / q

namespace Formula

def bounded (q : ℚ) : Except Breach ℚ :=
  if q.isInt ∧ |q| ≤ 2 ^ 53 then .ok q else .error .beyond

/-- The exact value. Operands are evaluated from left to right, and every number counts as a step, so the breach is
the first one in this order. -/
def exact : Formula → Except Breach ℚ
  | literal n => bounded n
  | signed negative operand => do
    let q ← operand.exact
    bounded (if negative then -q else q)
  | binary left operation right => do
    let p ← left.exact
    let q ← right.exact
    if operation = .divide ∧ q = 0 then .error .zeroDivisor
    else bounded (operation.apply p q)

theorem bounded_eq_ok {q r : ℚ} (given : bounded q = .ok r) : r = q ∧ ∃ i : ℤ, q = i ∧ |i| ≤ 2 ^ 53 := by
  unfold bounded at given
  split at given
  · rename_i holds
    cases given
    have whole : q = q.num := Rat.eq_num_of_isInt holds.1
    have small := holds.2
    rw [whole] at small
    exact ⟨rfl, q.num, whole, by exact_mod_cast small⟩
  · cases given

theorem bounded_ne_zeroDivisor (q : ℚ) : bounded q ≠ .error .zeroDivisor := by
  unfold bounded
  split <;> nofun

end Formula

open Double (value? Representable)

/-- How a computation with doubles follows an exact one. -/
structure Keeps (exact : Except Breach ℚ) (rounded : Except EvalError Float) : Prop where
  found : ∀ q, exact = .ok q → ∃ x, rounded = .ok x ∧ value? x = some q
  refused : exact = .error .zeroDivisor → rounded = .error .divisionByZero

namespace Keeps

theorem bounded {q : ℚ} {rounded : Except EvalError Float}
    (stays : ∀ i : ℤ, q = i → |i| ≤ 2 ^ 53 → ∃ x, rounded = .ok x ∧ value? x = some q) :
    Keeps (Formula.bounded q) rounded where
  found r given := by
    obtain ⟨rfl, i, whole, small⟩ := Formula.bounded_eq_ok given
    exact stays i whole small
  refused stopped := absurd stopped (Formula.bounded_ne_zeroDivisor q)

theorem bind {exact : Except Breach ℚ} {rounded : Except EvalError Float} {more : ℚ → Except Breach ℚ}
    {further : Float → Except EvalError Float} (first : Keeps exact rounded)
    (next : ∀ q x, value? x = some q → Keeps (more q) (further x)) :
    Keeps (exact >>= more) (rounded >>= further) := by
  cases exact with
  | error breach =>
    refine ⟨nofun, ?_⟩
    intro stopped
    rw [first.refused stopped]
    rfl
  | ok q =>
    obtain ⟨x, rfl, valued⟩ := first.found q rfl
    exact next q x valued

theorem applyUnary {q : ℚ} {x : Float} (valued : value? x = some q) (negative : Bool) :
    Keeps (Formula.bounded (if negative then -q else q)) (Expr.applyUnary (Formula.signKind negative) x) := by
  apply bounded
  intro _ _ _
  cases negative with
  | false => exact ⟨x, rfl, valued⟩
  | true => exact ⟨-x, rfl, Double.value?_neg valued⟩

theorem applyBinary {p q : ℚ} {x y : Float} (left : value? x = some p) (right : value? y = some q)
    (operation : Operation) :
    Keeps (if operation = .divide ∧ q = 0 then .error .zeroDivisor else Formula.bounded (operation.apply p q))
      (Expr.applyBinary operation.kind x y) := by
  have zero : (y == 0) = true ↔ q = 0 := by
    rw [Double.beq_zero_iff, right, Option.some.injEq]
  split
  · rename_i refused
    obtain ⟨rfl, none⟩ := refused
    refine ⟨nofun, fun _ => ?_⟩
    exact if_pos (zero.mpr none)
  · rename_i allowed
    apply bounded
    intro i whole small
    have representable : Representable (operation.apply p q) := whole ▸ Double.representable_intCast small
    cases operation with
    | plus => exact ⟨x + y, rfl, Double.value?_add left right representable⟩
    | minus => exact ⟨x - y, rfl, Double.value?_sub left right representable⟩
    | times => exact ⟨x * y, rfl, Double.value?_mul left right representable⟩
    | divide =>
      have nonzero : q ≠ 0 := fun none => allowed ⟨rfl, none⟩
      exact ⟨x / y, if_neg (nonzero ∘ zero.mp), Double.value?_div left right nonzero representable⟩

end Keeps

theorem Formula.keeps (f : Formula) : Keeps f.exact f.tree.value := by
  induction f with
  | literal n =>
    apply Keeps.bounded
    intro i whole small
    have natural : (n : ℤ) = i := by exact_mod_cast whole
    have fits : n ≤ 2 ^ 53 := by
      rw [← natural, Nat.abs_cast] at small
      exact_mod_cast small
    exact ⟨Decimal.nearest n, rfl, Double.value?_nearest fits⟩
  | signed negative operand ih => exact ih.bind fun q x valued => .applyUnary valued negative
  | binary left operation right ihl ihr =>
    exact ihl.bind fun p x valued => ihr.bind fun q y valued' => .applyBinary valued valued' operation

/-- A text without powers writes one formula. As long as every number and every value on the way is an integer of
magnitude at most `2 ^ 53`, its value is the exact one, and the first divisor that is exactly zero is reported. -/
theorem evaluate_exact {limit : Nat} {text : String} {e : Expr} (accepted : parse ⟨false, limit⟩ text = .ok e)
    (powerless : ¬ ['*', '*'] <:+: text.toList) :
    ∃ f : Formula, (∀ g, Formula.Writes .sum text.toList g ↔ g = f) ∧
      (∀ q, f.exact = .ok q → ∃ x, evaluate ⟨false, limit⟩ text = .ok x ∧ value? x = some q) ∧
      (f.exact = .error .zeroDivisor →
        evaluate ⟨false, limit⟩ text = .error (.valueless .divisionByZero)) := by
  obtain ⟨f, writes, rfl⟩ := exists_formula accepted powerless
  have evaluated : evaluate ⟨false, limit⟩ text = f.tree.value.mapError .valueless := by
    rw [evaluate_eq_bind, accepted]
    rfl
  refine ⟨f, writes, ?_, ?_⟩
  · intro q exact
    obtain ⟨x, value, valued⟩ := f.keeps.found q exact
    rw [evaluated, value]
    exact ⟨x, rfl, valued⟩
  · intro stopped
    rw [evaluated, f.keeps.refused stopped]
    rfl

theorem evaluate_quotients :
    ∃ limit e, parse ⟨false, limit⟩ "4/2-1/(2-2)" = .ok e ∧ ¬ ['*', '*'] <:+: "4/2-1/(2-2)".toList ∧
      evaluate ⟨false, limit⟩ "4/2-1/(2-2)" = .error (.valueless .divisionByZero) := by
  let f : Formula := .binary (.binary (.literal 4) .divide (.literal 2)) .minus
    (.binary (.literal 1) .divide (.binary (.literal 2) .minus (.literal 2)))
  have four : Formula.Writes .operand ['4'] (.literal 4) := .literal (by simp [DigitRun])
  have two : Formula.Writes .operand ['2'] (.literal 2) := .literal (by simp [DigitRun])
  have one : Formula.Writes .operand ['1'] (.literal 1) := .literal (by simp [DigitRun])
  have divide : Operation.divide.kind.isScale = true := rfl
  have minus : Operation.minus.kind.isSign = true := rfl
  have difference : Formula.Writes .operand "(2-2)".toList (.binary (.literal 2) .minus (.literal 2)) :=
    .bracket (.sum (.single (.factor two)) minus (.factor two))
  have writes : Formula.Writes .sum "4/2-1/(2-2)".toList f :=
    .sum (.single (.product (.factor four) divide two)) minus (.product (.factor one) divide difference)
  have powerless : ¬ ['*', '*'] <:+: "4/2-1/(2-2)".toList := by decide
  obtain ⟨limit, accepted⟩ := writes.exists_parse
  obtain ⟨g, unique, -, refused⟩ := evaluate_exact accepted powerless
  cases (unique f).mp writes
  have stopped : f.exact = .error .zeroDivisor := by decide +kernel
  exact ⟨limit, _, accepted, powerless, refused stopped⟩

end Reckon
