import Reckon.Calculation

namespace Reckon.SelfCheck

def table : List (String × Float) :=
  [("3 + 2 - 1", 4),
    ("56 / 2 - 4", 24),
    ("4 - 56 / 2", -24),
    ("2 / 20 * 2", 0.2),
    ("(2 + 3) / 2", 2.5),
    ("(3 - (2 + 3)) * 2", -4),
    ("(2*2) / (32 - 30) - 3", -1),
    ("-1+3*(-5+2)", -10),
    ("--3", 3),
    ("(5--16)*10/2", 105),
    ("2 ** 3 ** 2", 512),
    ("-2 ** 2", -4),
    ("2 ** -1", 0.5)]

inductive Mishap where
  | mismatch (expression : String) (expected actual : Float)
  | failed (expression : String) (cause : Failure)

def Mishap.message : Mishap → String
  | mismatch expression expected actual =>
    s!"{expression}: expected {Decimal.text expected}, got {Decimal.text actual}"
  | failed expression cause => s!"{expression}: {cause.message}"

def check (expression : String) (expected : Float) : Except Mishap Unit := do
  let actual ← (evaluate .strict expression).mapError (.failed expression)
  if actual == expected then pure () else throw (.mismatch expression expected actual)

def run : Except Mishap Nat := do
  for (expression, expected) in table do
    check expression expected
  return table.length

end Reckon.SelfCheck
