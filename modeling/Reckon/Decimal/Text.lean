import Reckon.Decimal.Shortest

namespace Reckon.Decimal

def unsignedBits (bits : Nat) : Nat :=
  bits % Nat.pow 2 63

/-- Patterns above infinity are no numbers, whatever their sign. Zero keeps its sign. -/
def charsOfBits (bits : Nat) : List Char :=
  let unsigned := unsignedBits bits
  if infinityBits < unsigned then ['N', 'a', 'N']
  else
    let body :=
      if unsigned = infinityBits then ['i', 'n', 'f']
      else if unsigned = 0 then ['0']
      else (shortest unsigned).plain
    if bits < Nat.pow 2 63 then body else '-' :: body

def chars (x : Float) : List Char :=
  charsOfBits x.toBits.toNat

def text (x : Float) : String :=
  String.ofList (chars x)

example : text 0.2 = "0.2" := by decide +kernel

example : text 1e24 = "1000000000000000000000000" := by decide +kernel

example : text (-0.0) = "-0" := by decide +kernel

end Reckon.Decimal
