import Reckon.Expr.Basic

namespace Reckon.Expr

def chars : Expr → List Char
  | number value => Decimal.chars value
  | unary op operand => '(' :: op.symbol.toList ++ ' ' :: operand.chars ++ [')']
  | binary left op right =>
    '(' :: op.symbol.toList ++ ' ' :: left.chars ++ ' ' :: right.chars ++ [')']

def text (e : Expr) : String :=
  String.ofList e.chars

example : (binary (binary (number 3) .plus (number 2)) .minus (unary .minus (number 1))).text =
    "(- (+ 3 2) (- 1))" := by decide +kernel

end Reckon.Expr
