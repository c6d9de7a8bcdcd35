import Reckon.Expr.Basic

namespace Reckon

inductive EvalError where
  | noRule (node : String) (op : Kind)
  | divisionByZero
deriving DecidableEq, Repr

def EvalError.message : EvalError → String
  | noRule node op => s!"No handler for {node} node with operator {op.name}"
  | divisionByZero => "Division by zero"

namespace Expr

def applyUnary (op : Kind) (value : Float) : Except EvalError Float :=
  match op with
  | .plus => .ok value
  | .minus => .ok (-value)
  | _ => .error (.noRule unaryName op)

/-- An operator between two values. A quotient by zero is refused, whatever the sign of the zero,
and so is a negative power of zero, which would be one. -/
def applyBinary (op : Kind) (left right : Float) : Except EvalError Float :=
  match op with
  | .plus => .ok (left + right)
  | .minus => .ok (left - right)
  | .times => .ok (left * right)
  | .divide => if right == 0 then .error .divisionByZero else .ok (left / right)
  | .power =>
    if left == 0 && right < 0 then .error .divisionByZero else .ok (left.pow right)
  | _ => .error (.noRule binaryName op)

def value : Expr → Except EvalError Float
  | number value => .ok value
  | unary op operand => do
    let operand ← operand.value
    applyUnary op operand
  | binary left op right => do
    let left ← left.value
    let right ← right.value
    applyBinary op left right

end Expr

end Reckon
