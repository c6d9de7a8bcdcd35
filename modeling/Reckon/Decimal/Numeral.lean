namespace Reckon.Decimal

/-- The number `digits * 10 ^ exponent`. -/
structure Numeral where
  digits : Nat
  exponent : Int
deriving DecidableEq, Repr

namespace Numeral

def trim (n : Numeral) : Numeral :=
  if 0 < n.digits ∧ n.digits % 10 = 0 then trim ⟨n.digits / 10, n.exponent + 1⟩ else n
termination_by n.digits
decreasing_by omega

/-- All the places of a numeral. A negative exponent is the number of places behind the point. -/
def plain (n : Numeral) : List Char :=
  if 0 ≤ n.exponent then
    Nat.toDigits 10 n.digits ++ List.replicate n.exponent.toNat '0'
  else
    let places := (-n.exponent).toNat
    Nat.toDigits 10 (n.digits / Nat.pow 10 places) ++
      '.' :: List.leftpad places '0' (Nat.toDigits 10 (n.digits % Nat.pow 10 places))

theorem trim_digits_mod (n : Numeral) (positive : 0 < n.digits) : n.trim.digits % 10 ≠ 0 := by
  fun_induction trim n with
  | case1 n ends ih =>
    have ten_le : 10 ≤ n.digits := Nat.le_of_dvd ends.1 (Nat.dvd_of_mod_eq_zero ends.2)
    exact ih (Nat.div_pos ten_le (by decide))
  | case2 n ends => omega

example : plain ⟨25, -1⟩ = ['2', '.', '5'] := by decide

example : plain ⟨5, -3⟩ = ['0', '.', '0', '0', '5'] := by decide

example : plain ⟨12, 2⟩ = ['1', '2', '0', '0'] := by decide

end Numeral

end Reckon.Decimal
