import Reckon.Expr.Value
import Reckon.Reader.Descent

namespace Reckon

inductive Failure where
  | unreadable (cause : Unreadable)
  | unparsable (cause : SyntaxError)
  | valueless (cause : EvalError)

def Failure.message : Failure → String
  | unreadable cause => "Lexer error: " ++ cause.message
  | unparsable cause => "Parser error: " ++ cause.message
  | valueless cause => "Evaluation error: " ++ cause.message

def Reader.evaluate (policy : Policy) (r : Reader) : Except Failure Float := do
  let e ← (r.read policy).1.mapError .unparsable
  e.value.mapError .valueless

def parse (policy : Policy) (text : String) : Except Failure Expr := do
  let reader ← (Reader.start (.ofText text)).mapError .unparsable
  (reader.read policy).1.mapError .unparsable

def evaluate (policy : Policy) (text : String) : Except Failure Float := do
  let reader ← (Reader.start (.ofText text)).mapError .unparsable
  reader.evaluate policy

end Reckon
