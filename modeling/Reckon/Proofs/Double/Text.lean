import Reckon.Decimal.Text
import Reckon.Proofs.Decimal.Plain
import Reckon.Proofs.Double.Interval
import Reckon.Proofs.Double.Sign

namespace Reckon

open Decimal (Interval infinityBits unsignedBits textValue)

def signChars (negative : Bool) : List Char :=
  if negative then ['-'] else []

theorem eq_of_mem_signChars {negative : Bool} {c : Char} (member : c ∈ signChars negative) : c = '-' := by
  cases negative with
  | false => cases member
  | true => exact List.mem_singleton.mp member

namespace Double

open Float.Model (UnpackedFloat Format)
open Float.Model.UnpackedFloat

/-- The same double, where all NaNs count as one and the two zeros as different. -/
def Same (x y : Float) : Prop :=
  x.toBits = y.toBits ∨ x.isNaN = true ∧ y.isNaN = true

theorem isNaN_unpack (b : Pattern) : (unpack Format.binary64 b).isNaN = true ↔
    @unpackExponent Format.binary64 b = -1#11 ∧ @unpackMantissa Format.binary64 b ≠ 0#52 := by
  simp only [unpack]
  split
  · rename_i top
    split
    · rename_i none
      exact iff_of_false Bool.false_ne_true fun both => both.2 none
    · rename_i some
      exact iff_of_true rfl ⟨top, some⟩
  · rename_i low
    refine iff_of_false ?_ fun both => low both.1
    split
    · split <;> exact Bool.false_ne_true
    · exact Bool.false_ne_true

theorem isNaN_iff (x : Float) : x.isNaN = true ↔ infinityBits < unsignedBits x.toBits.toNat := by
  have limit : infinityBits = 2047 * 2 ^ 52 := rfl
  have field : (@unpackExponent Format.binary64 x.toBits.toBitVec).toNat = x.toBits.toNat / 2 ^ 52 % 2 ^ 11 :=
    exponent_toNat _
  have fraction : (@unpackMantissa Format.binary64 x.toBits.toBitVec).toNat = x.toBits.toNat % 2 ^ 52 :=
    mantissa_toNat _
  show (unpack Format.binary64 x.toBits.toBitVec).isNaN = true ↔ _
  rw [isNaN_unpack, ← BitVec.toNat_inj, Ne, ← BitVec.toNat_inj, field, fraction, unsigned_le, limit]
  show x.toBits.toNat / 2 ^ 52 % 2 ^ 11 = 2047 ∧ ¬ x.toBits.toNat % 2 ^ 52 = 0 ↔ _
  omega

def magnitudeChars (unsigned : ℕ) : List Char :=
  if unsigned = infinityBits then ['i', 'n', 'f']
  else if unsigned = 0 then ['0']
  else (Decimal.shortest unsigned).plain

theorem chars_of_isNaN {x : Float} (nan : x.isNaN = true) : Decimal.chars x = ['N', 'a', 'N'] :=
  if_pos ((isNaN_iff x).mp nan)

theorem chars_of_number {x : Float} (number : unsignedBits x.toBits.toNat ≤ infinityBits) :
    Decimal.chars x = signChars (decide (2 ^ 63 ≤ x.toBits.toNat)) ++ magnitudeChars (unsignedBits x.toBits.toNat) := by
  simp only [Decimal.chars, Decimal.charsOfBits, Nat.not_lt.mpr number, if_false, Nat.pow_eq]
  by_cases negative : 2 ^ 63 ≤ x.toBits.toNat
  · rw [if_neg (not_lt.mpr negative), decide_eq_true negative]
    rfl
  · rw [if_pos (not_le.mp negative), decide_eq_false negative]
    rfl

section Magnitude

variable {u v : ℕ}

theorem magnitudeChars_infinity : magnitudeChars infinityBits = ['i', 'n', 'f'] :=
  if_pos rfl

theorem plain_head (n : Decimal.Numeral) : ∃ c rest, n.plain = c :: rest ∧ c.isDigit = true := by
  by_cases whole : 0 ≤ n.exponent
  · obtain ⟨⟨nonempty, all⟩, -⟩ := Decimal.Numeral.plain_whole whole
    obtain ⟨c, rest, plain⟩ := List.exists_cons_of_ne_nil nonempty
    exact ⟨c, rest, plain, all c (by simp [plain])⟩
  · obtain ⟨cs, places, plain, nonempty, all, -⟩ := Decimal.Numeral.plain_broken whole
    obtain ⟨c, rest, rfl⟩ := List.exists_cons_of_ne_nil nonempty
    exact ⟨c, _, plain, all c (List.mem_cons_self ..)⟩

theorem magnitudeChars_head (finite : u < infinityBits) :
    ∃ c rest, magnitudeChars u = c :: rest ∧ c.isDigit = true := by
  rw [magnitudeChars, if_neg finite.ne]
  split
  · exact ⟨'0', [], rfl, rfl⟩
  · exact plain_head _

theorem magnitudeChars_positive (positive : 0 < u) (finite : u < infinityBits) :
    magnitudeChars u = (Decimal.shortest u).plain := by
  rw [magnitudeChars, if_neg finite.ne, if_neg positive.ne']

theorem shortest_value_pos (positive : 0 < u) : 0 < (Decimal.shortest u).value :=
  (around_ofBits positive).value_pos (around_ofBits positive).holds_shortest

theorem magnitudeChars_ne_zero (positive : 0 < u) (finite : u < infinityBits) : magnitudeChars u ≠ ['0'] := by
  intro same
  have zero : textValue ['0'] = 0 := by simp [textValue, Nat.ofDigitChars]
  rw [magnitudeChars_positive positive finite] at same
  have value := shortest_value_pos positive
  rw [← Decimal.Numeral.textValue_plain, same, zero] at value
  exact lt_irrefl 0 value

theorem magnitudeChars_ne_infinity (finite : u < infinityBits) : magnitudeChars u ≠ ['i', 'n', 'f'] := by
  obtain ⟨c, rest, head, digit⟩ := magnitudeChars_head finite
  rintro same
  cases head.symm.trans same
  cases digit

/-- The shortest numerals of two doubles with the same text lie in the intervals of both. -/
theorem magnitudeChars_inj (le : u ≤ infinityBits) (le' : v ≤ infinityBits)
    (same : magnitudeChars u = magnitudeChars v) : u = v := by
  rcases Nat.lt_or_eq_of_le le with finite | rfl
  · rcases Nat.lt_or_eq_of_le le' with finite' | rfl
    · rcases Nat.eq_zero_or_pos u with rfl | positive
      · rcases Nat.eq_zero_or_pos v with rfl | positive'
        · rfl
        · exact absurd same.symm (magnitudeChars_ne_zero positive' finite')
      · rcases Nat.eq_zero_or_pos v with rfl | positive'
        · exact absurd same (magnitudeChars_ne_zero positive finite)
        · rw [magnitudeChars_positive positive finite, magnitudeChars_positive positive' finite'] at same
          have value : (Decimal.shortest u).value = (Decimal.shortest v).value := by
            rw [← Decimal.Numeral.textValue_plain, same, Decimal.Numeral.textValue_plain]
          have holds := (around_ofBits positive).holds_shortest
          have holds' := (around_ofBits positive').holds_shortest
          exact bits_unique holds ((Interval.holds_congr value).mpr holds')
    · exact absurd same (magnitudeChars_ne_infinity finite)
  · rcases Nat.lt_or_eq_of_le le' with finite' | rfl
    · exact absurd same.symm (magnitudeChars_ne_infinity finite')
    · rfl

theorem magnitudeChars_head_ne (le : u ≤ infinityBits) :
    ∃ c rest, magnitudeChars u = c :: rest ∧ c ≠ '-' ∧ c ≠ 'N' := by
  rcases Nat.lt_or_eq_of_le le with finite | rfl
  · obtain ⟨c, rest, head, digit⟩ := magnitudeChars_head finite
    refine ⟨c, rest, head, ?_, ?_⟩
    · rintro rfl
      cases digit
    · rintro rfl
      cases digit
  · exact ⟨'i', ['n', 'f'], magnitudeChars_infinity, by decide, by decide⟩

theorem signed_inj {negative negative' : Bool} (le : u ≤ infinityBits) (le' : v ≤ infinityBits)
    (same : signChars negative ++ magnitudeChars u = signChars negative' ++ magnitudeChars v) :
    negative = negative' ∧ u = v := by
  obtain ⟨c, rest, head, unsigned, -⟩ := magnitudeChars_head_ne le
  obtain ⟨c', rest', head', unsigned', -⟩ := magnitudeChars_head_ne le'
  cases negative with
  | false =>
    cases negative' with
    | false => exact ⟨rfl, magnitudeChars_inj le le' same⟩
    | true =>
      rw [head] at same
      exact absurd (List.cons.inj same).1 unsigned
  | true =>
    cases negative' with
    | false =>
      rw [head'] at same
      exact absurd (List.cons.inj same).1.symm unsigned'
    | true => exact ⟨rfl, magnitudeChars_inj le le' (List.cons.inj same).2⟩

theorem signed_ne_nan (negative : Bool) (le : u ≤ infinityBits) :
    signChars negative ++ magnitudeChars u ≠ ['N', 'a', 'N'] := by
  obtain ⟨c, rest, head, -, other⟩ := magnitudeChars_head_ne le
  intro same
  cases negative with
  | false =>
    rw [head] at same
    exact other (List.cons.inj same).1
  | true => cases (List.cons.inj same).1

end Magnitude

theorem toBits_of_parts {x y : Float} (sign : decide (2 ^ 63 ≤ x.toBits.toNat) = decide (2 ^ 63 ≤ y.toBits.toNat))
    (unsigned : unsignedBits x.toBits.toNat = unsignedBits y.toBits.toNat) : x.toBits = y.toBits := by
  have bound := bits_lt x
  have bound' := bits_lt y
  rw [unsigned_le, unsigned_le] at unsigned
  rw [decide_eq_decide] at sign
  apply UInt64.toNat_inj.mp
  omega

theorem toBits_eq_of_chars {x y : Float} (number : unsignedBits x.toBits.toNat ≤ infinityBits)
    (number' : unsignedBits y.toBits.toNat ≤ infinityBits) (same : Decimal.chars x = Decimal.chars y) :
    x.toBits = y.toBits := by
  rw [chars_of_number number, chars_of_number number'] at same
  obtain ⟨sign, unsigned⟩ := signed_inj number number' same
  exact toBits_of_parts sign unsigned

theorem chars_eq_iff (x y : Float) : Decimal.chars x = Decimal.chars y ↔ Same x y := by
  constructor
  · intro same
    rcases Nat.lt_or_ge infinityBits (unsignedBits x.toBits.toNat) with nan | number
    · rcases Nat.lt_or_ge infinityBits (unsignedBits y.toBits.toNat) with nan' | number'
      · exact .inr ⟨(isNaN_iff x).mpr nan, (isNaN_iff y).mpr nan'⟩
      · rw [chars_of_isNaN ((isNaN_iff x).mpr nan), chars_of_number number'] at same
        exact absurd same.symm (signed_ne_nan _ number')
    · rcases Nat.lt_or_ge infinityBits (unsignedBits y.toBits.toNat) with nan' | number'
      · rw [chars_of_isNaN ((isNaN_iff y).mpr nan'), chars_of_number number] at same
        exact absurd same (signed_ne_nan _ number)
      · exact .inl (toBits_eq_of_chars number number' same)
  · rintro (same | ⟨nan, nan'⟩)
    · rw [Decimal.chars, same, Decimal.chars]
    · rw [chars_of_isNaN nan, chars_of_isNaN nan']

theorem chars_wordlike (x : Float) : ∀ c ∈ Decimal.chars x, c.isAlphanum = true ∨ c = '-' ∨ c = '.' := by
  have letters : ∀ c ∈ ['N', 'a', 'N'] ++ ['i', 'n', 'f'], c.isAlphanum = true := by simp
  have of_digit {c : Char} (digit : c.isDigit = true) : c.isAlphanum = true := by simp [Char.isAlphanum, digit]
  intro c member
  rcases Nat.lt_or_ge infinityBits (unsignedBits x.toBits.toNat) with nan | number
  · rw [chars_of_isNaN ((isNaN_iff x).mpr nan)] at member
    exact .inl (letters c (List.mem_append_left _ member))
  · rw [chars_of_number number, List.mem_append] at member
    rcases member with sign | magnitude
    · exact .inr (.inl (eq_of_mem_signChars sign))
    · unfold magnitudeChars at magnitude
      split at magnitude
      · exact .inl (letters c (List.mem_append_right _ magnitude))
      · split at magnitude
        · rw [List.mem_singleton.mp magnitude]
          exact .inl rfl
        · rcases Decimal.Numeral.plain_chars _ c magnitude with digit | point
          · exact .inl (of_digit digit)
          · exact .inr (.inr point)

end Double

end Reckon
