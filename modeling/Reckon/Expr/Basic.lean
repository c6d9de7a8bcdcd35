import Reckon.Token.Basic

namespace Reckon

inductive Expr where
  | number (value : Float)
  | unary (op : Kind) (operand : Expr)
  | binary (left : Expr) (op : Kind) (right : Expr)

namespace Expr

def unaryName : String := "UnaryOp"

def binaryName : String := "BinOp"

def nodeName : Expr → String
  | number _ => "Num"
  | unary _ _ => unaryName
  | binary _ _ _ => binaryName

def depth : Expr → Nat
  | number _ => 1
  | unary _ operand => operand.depth + 1
  | binary left _ right => max left.depth right.depth + 1

/-- Equality of shape and operators, with numbers compared as doubles. -/
def same : Expr → Expr → Bool
  | number x, number y => x == y
  | unary op operand, unary op' operand' => op == op' && operand.same operand'
  | binary left op right, binary left' op' right' =>
    left.same left' && op == op' && right.same right'
  | _, _ => false

instance : BEq Expr := ⟨same⟩

theorem depth_pos (e : Expr) : 0 < e.depth := by
  cases e <;> simp only [depth] <;> omega

end Expr

end Reckon
