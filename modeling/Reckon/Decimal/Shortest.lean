import Reckon.Decimal.Nearest
import Reckon.Decimal.Numeral

namespace Reckon.Decimal

/-- The reals that round to a double. All three numbers are counted in units of
`1 / 2 ^ places`; the ends belong to the interval when it is closed. -/
structure Interval where
  low : Nat
  value : Nat
  high : Nat
  places : Nat
  closed : Bool

namespace Interval

/-- The interval of the positive finite double with the given bits, from halfway to its neighbour
below to halfway to its neighbour above. A tie between neighbours goes to the even significand. Just
above a power of two the neighbour below is only half as far away. -/
def ofBits (bits : Nat) : Interval :=
  let field := bits / Nat.pow 2 52
  let fraction := bits % Nat.pow 2 52
  let exponent := max field 1
  let significand := if field = 0 then fraction else Nat.pow 2 52 + fraction
  let below := if fraction = 0 ∧ 1 < field then 1 else 2
  let unit := Nat.pow 2 (exponent - 1077)
  { low := (4 * significand - below) * unit
    value := 4 * significand * unit
    high := (4 * significand + 2) * unit
    places := 1077 - exponent
    closed := fraction % 2 == 0 }

def Holds (i : Interval) (n : Numeral) : Prop :=
  let point := n.digits * Nat.pow 10 n.exponent.toNat * Nat.pow 2 i.places
  let ten := Nat.pow 10 (-n.exponent).toNat
  if i.closed then i.low * ten ≤ point ∧ point ≤ i.high * ten
  else i.low * ten < point ∧ point < i.high * ten

instance (i : Interval) (n : Numeral) : Decidable (i.Holds n) := by
  unfold Holds
  infer_instance

def magnitude (i : Interval) : Int :=
  let whole := i.value / Nat.pow 2 i.places
  if 0 < whole then (Nat.toDigits 10 whole).length
  else 1 - (Nat.toDigits 10 ((Nat.pow 2 i.places - 1) / i.value)).length

def below (i : Interval) (exponent : Int) : Numeral :=
  { digits := i.value * Nat.pow 10 (-exponent).toNat / (Nat.pow 2 i.places * Nat.pow 10 exponent.toNat)
    exponent }

def Nearer (i : Interval) (n : Numeral) : Prop :=
  2 * i.value * Nat.pow 10 (-n.exponent).toNat <
    (2 * n.digits + 1) * Nat.pow 10 n.exponent.toNat * Nat.pow 2 i.places

instance (i : Interval) (n : Numeral) : Decidable (i.Nearer n) := by
  unfold Nearer
  infer_instance

/-- The numeral of the given exponent that is nearest to the value, if one lies in the interval. The
upper one is taken when two are equally near. -/
def onGrid? (i : Interval) (exponent : Int) : Option Numeral :=
  let lower := i.below exponent
  let upper : Numeral := { lower with digits := lower.digits + 1 }
  if i.Holds lower ∧ (i.Nearer lower ∨ ¬ i.Holds upper) then some lower
  else if i.Holds upper then some upper
  else none

def exact (i : Interval) : Numeral :=
  ⟨i.value * Nat.pow 5 i.places, -i.places⟩

def grids (i : Interval) : List Int :=
  (List.range 17).map fun (further : Nat) => i.magnitude - 1 - further

def shortest (i : Interval) : Numeral :=
  ((i.grids.findSome? i.onGrid?).getD i.exact).trim

theorem holds_of_onGrid? {i : Interval} {exponent : Int} {n : Numeral}
    (hit : i.onGrid? exponent = some n) : i.Holds n := by
  simp only [onGrid?] at hit
  split at hit
  · cases hit
    rename_i lower
    exact lower.1
  · split at hit
    · cases hit
      assumption
    · cases hit

end Interval

def shortest (bits : Nat) : Numeral :=
  (Interval.ofBits bits).shortest

example : shortest 0x3FB999999999999A = ⟨1, -1⟩ := by decide +kernel

example : shortest 0x3E60000000000000 = ⟨29802322387695313, -24⟩ := by decide +kernel

example : shortest 1 = ⟨5, -324⟩ := by decide +kernel

end Reckon.Decimal
