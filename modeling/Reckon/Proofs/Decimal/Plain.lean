import Reckon.Proofs.Decimal.Whole

namespace Reckon.Decimal

/-- The number that digits stand for, with a point among them or without. -/
def textValue (cs : List Char) : ℚ :=
  let places := (cs.dropWhile Char.isDigit).tail
  Nat.ofDigitChars 10 (cs.takeWhile Char.isDigit) 0 + Nat.ofDigitChars 10 places 0 / 10 ^ places.length

theorem isDigit_of_mem_toDigits {n : ℕ} : ∀ c ∈ Nat.toDigits 10 n, c.isDigit = true :=
  fun _ member => Nat.isDigit_of_mem_toDigits (by decide) (by decide) member

theorem textValue_digits {cs : List Char} (all : ∀ c ∈ cs, c.isDigit = true) :
    textValue cs = Nat.ofDigitChars 10 cs 0 := by
  have whole : cs.takeWhile Char.isDigit = cs := List.takeWhile_eq_self_iff.mpr all
  have rest : cs.dropWhile Char.isDigit = [] := List.dropWhile_eq_nil_iff.mpr all
  simp [textValue, whole, rest]

theorem textValue_point {cs places : List Char} (all : ∀ c ∈ cs, c.isDigit = true) :
    textValue (cs ++ '.' :: places) = Nat.ofDigitChars 10 cs 0 + Nat.ofDigitChars 10 places 0 / 10 ^ places.length := by
  have point : '.'.isDigit = false := rfl
  have whole : (cs ++ '.' :: places).takeWhile Char.isDigit = cs := by
    rw [List.takeWhile_append_of_pos all]
    simp [point]
  have rest : (cs ++ '.' :: places).dropWhile Char.isDigit = '.' :: places := by
    rw [List.dropWhile_append_of_pos all]
    simp [point]
  simp only [textValue, whole, rest, List.tail_cons]

theorem leftpad_toDigits {n places : ℕ} (positive : 0 < places) (lt : n < 10 ^ places) :
    (List.leftpad places '0' (Nat.toDigits 10 n)).length = places ∧
      Nat.ofDigitChars 10 (List.leftpad places '0' (Nat.toDigits 10 n)) 0 = n := by
  have short : (Nat.toDigits 10 n).length ≤ places := (Nat.length_toDigits_le_iff (by decide) positive).mpr lt
  constructor
  · rw [List.length_leftpad]
    exact Nat.max_eq_left short
  · rw [List.leftpad, Nat.ofDigitChars_append, Nat.ofDigitChars_replicate_zero, Nat.mul_zero,
      Nat.ofDigitChars_ten_toDigits]

namespace Numeral

variable {n : Numeral}

theorem plain_whole (whole : 0 ≤ n.exponent) :
    (n.plain ≠ [] ∧ ∀ c ∈ n.plain, c.isDigit = true) ∧
      Nat.ofDigitChars 10 n.plain 0 = n.digits * 10 ^ n.exponent.toNat := by
  rw [plain, if_pos whole]
  refine ⟨⟨by simp, ?_⟩, ?_⟩
  · intro c member
    rcases List.mem_append.mp member with digit | zero
    · exact isDigit_of_mem_toDigits c digit
    · rw [List.eq_of_mem_replicate zero]
      rfl
  · rw [Nat.ofDigitChars_append, Nat.ofDigitChars_ten_toDigits, Nat.ofDigitChars_replicate_zero, Nat.mul_comm]

theorem plain_broken (broken : ¬ 0 ≤ n.exponent) :
    ∃ cs places, n.plain = cs ++ '.' :: places ∧ cs ≠ [] ∧ (∀ c ∈ cs, c.isDigit = true) ∧
      (∀ c ∈ places, c.isDigit = true) ∧ (places.length : ℤ) = -n.exponent ∧
      Nat.ofDigitChars 10 cs 0 * 10 ^ places.length + Nat.ofDigitChars 10 places 0 = n.digits := by
  have positive : 0 < (-n.exponent).toNat := by omega
  have lt : n.digits % 10 ^ (-n.exponent).toNat < 10 ^ (-n.exponent).toNat := Nat.mod_lt _ (by positivity)
  obtain ⟨length, value⟩ := leftpad_toDigits positive lt
  refine ⟨_, _, if_neg broken, by simp, isDigit_of_mem_toDigits, ?_, ?_, ?_⟩
  · intro c member
    rcases List.mem_append.mp member with zero | digit
    · rw [List.eq_of_mem_replicate zero]
      rfl
    · exact isDigit_of_mem_toDigits c digit
  · rw [Nat.pow_eq, length]
    omega
  · rw [Nat.pow_eq, length, value, Nat.ofDigitChars_ten_toDigits]
    exact Nat.div_add_mod' n.digits (10 ^ (-n.exponent).toNat)

theorem plain_chars (n : Numeral) : ∀ c ∈ n.plain, c.isDigit = true ∨ c = '.' := by
  intro c member
  by_cases whole : 0 ≤ n.exponent
  · obtain ⟨⟨-, all⟩, -⟩ := plain_whole whole
    exact .inl (all c member)
  · obtain ⟨cs, places, plain, -, all, all', -⟩ := plain_broken whole
    rw [plain, List.mem_append, List.mem_cons] at member
    rcases member with front | point | behind
    · exact .inl (all c front)
    · exact .inr point
    · exact .inl (all' c behind)

theorem textValue_plain (n : Numeral) : textValue n.plain = n.value := by
  by_cases whole : 0 ≤ n.exponent
  · obtain ⟨⟨-, all⟩, number⟩ := plain_whole whole
    rw [textValue_digits all, number, value_of_exponent_nonneg whole]
  · obtain ⟨cs, places, plain, -, all, -, length, number⟩ := plain_broken whole
    have exponent : n.exponent = -(places.length : ℤ) := by omega
    rw [plain, textValue_point all, value, exponent, zpow_neg, zpow_natCast, ← number]
    push_cast
    field_simp

end Numeral

end Reckon.Decimal
