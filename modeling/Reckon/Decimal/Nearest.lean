namespace Reckon.Decimal

/-- The natural number nearest to `n / 2 ^ shift`, and the even one of two equally near. -/
def roundShift (n shift : Nat) : Nat :=
  let quotient := n / Nat.pow 2 shift
  let remainder := n % Nat.pow 2 shift
  if 2 * remainder < Nat.pow 2 shift then quotient
  else if Nat.pow 2 shift < 2 * remainder then quotient + 1
  else quotient + quotient % 2

theorem roundShift_near (n shift : Nat) :
    2 * (roundShift n shift * Nat.pow 2 shift) ≤ 2 * n + Nat.pow 2 shift ∧
      2 * n ≤ 2 * (roundShift n shift * Nat.pow 2 shift) + Nat.pow 2 shift := by
  have split := Nat.div_add_mod n (Nat.pow 2 shift)
  have positive : 0 < Nat.pow 2 shift := Nat.two_pow_pos shift
  have small := Nat.mod_lt n positive
  simp only [roundShift]
  generalize n / Nat.pow 2 shift = quotient at split ⊢
  generalize n % Nat.pow 2 shift = remainder at split small ⊢
  generalize Nat.pow 2 shift = unit at split small positive ⊢
  have commuted : quotient * unit = unit * quotient := Nat.mul_comm ..
  have next : (quotient + 1) * unit = unit * quotient + unit := by rw [Nat.add_mul, commuted, Nat.one_mul]
  rcases Nat.mod_two_eq_zero_or_one quotient with even | odd
  · simp only [even, Nat.add_zero]
    generalize unit * quotient = part at split commuted next
    split
    · omega
    · split <;> omega
  · simp only [odd]
    generalize unit * quotient = part at split commuted next
    split
    · omega
    · split <;> omega

theorem roundShift_tie (n shift : Nat) (tie : 2 * (n % Nat.pow 2 shift) = Nat.pow 2 shift) :
    roundShift n shift % 2 = 0 := by
  simp only [roundShift, tie, Nat.lt_irrefl, if_false]
  omega

def infinityBits : Nat := 2047 * Nat.pow 2 52

/-- The bits of the double nearest to `n`. The significand has 53 bits, its first one standing for
`2 ^ log2 n`; one that is rounded up to `2 ^ 53` carries into the exponent by mere addition. -/
def nearestBits (n : Nat) : Nat :=
  if n = 0 then 0
  else min ((n.log2 + 1022) * Nat.pow 2 52 + roundShift (n * Nat.pow 2 52) n.log2) infinityBits

theorem nearestBits_le_infinityBits (n : Nat) : nearestBits n ≤ infinityBits := by
  unfold nearestBits
  split
  · exact Nat.zero_le _
  · exact Nat.min_le_right _ _

def nearest (n : Nat) : Float :=
  Float.ofBits (UInt64.ofNat (nearestBits n))

example : nearestBits (2 ^ 53 + 1) = nearestBits (2 ^ 53) := by decide +kernel

example : nearestBits (2 ^ 1024 - 2 ^ 970) = infinityBits ∧
    nearestBits (2 ^ 1024 - 2 ^ 970 - 1) + 1 = infinityBits := by decide +kernel

end Reckon.Decimal
