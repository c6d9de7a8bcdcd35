import Reckon.Proofs.Double.Nearest
import Reckon.Proofs.Token.Spelling
import Reckon.Proofs.Token.Stream

namespace Reckon

open Double (IsNearest Unsigned place? value?)

/-- The number that a run of digits denotes. The last digit counts ones, the one before it tens, and so on. -/
def denoted (run : List Char) : ℕ :=
  Nat.ofDigits 10 (run.reverse.map fun c => c.toNat - '0'.toNat)

theorem denoted_append_digit (run : List Char) (c : Char) :
    denoted (run ++ [c]) = c.toNat - '0'.toNat + 10 * denoted run := by
  simp only [denoted, List.reverse_append, List.reverse_singleton, List.singleton_append, List.map_cons,
    Nat.ofDigits_cons]

theorem ofDigitChars_eq_denoted (run : List Char) : Nat.ofDigitChars 10 run 0 = denoted run := by
  induction run using List.reverseRecOn with
  | nil => rfl
  | append_singleton run c ih =>
    rw [denoted_append_digit, Nat.ofDigitChars_append, ih, Nat.ofDigitChars_cons, Nat.ofDigitChars_nil]
    ring

theorem runValue_eq (run : List Char) : runValue run = Decimal.nearest (denoted run) := by
  rw [runValue, ofDigitChars_eq_denoted]

theorem tokens_of_run {run : List Char} (digits : DigitRun run) :
    tokens (String.ofList run) = .ok [.integer (runValue run) 0] := by
  have ahead : NoDigitAhead [] := by rintro c ⟨⟩
  have read := Cursor.next_run 0 digits ahead
  rw [List.append_nil] at read
  have place : Cursor.ofText (String.ofList run) = ⟨run, 0⟩ := by rw [Cursor.ofText, String.toList_ofList]
  rw [tokens_eq_ok_iff, place]
  exact ⟨_, _, _, .cons read (by rintro ⟨⟩) .nil, Cursor.next_of_rest_nil rfl, rfl⟩

/-- A run of digits, however long it is and whatever zeros it begins with, is one token, and its value is the double
nearest to the number that the run denotes, the even one of two equally near. It is the number itself up to `2 ^ 53`,
and above for those numbers that a double stands for. It is infinity from halfway behind the greatest double on, and it
does not become less when the number becomes greater. -/
theorem run_reads_nearest :
    (∀ run, DigitRun run →
      tokens (String.ofList run) = .ok [.integer (runValue run) 0] ∧
      (∀ rest pos, NoDigitAhead rest →
        Cursor.next ⟨run ++ rest, pos⟩ = .ok (.integer (runValue run) pos, ⟨rest, pos + run.length⟩)) ∧
      Unsigned (runValue run) ∧ IsNearest (denoted run) (runValue run) ∧
      (∀ x, IsNearest (denoted run) x → place? x = place? (runValue run)) ∧
      (denoted run ≤ 2 ^ 53 → value? (runValue run) = some (denoted run : ℚ)) ∧
      (value? (runValue run) = some (denoted run : ℚ) ↔ ∃ x, value? x = some (denoted run : ℚ)) ∧
      ((runValue run).isInf = true ↔ 2 ^ 1024 - 2 ^ 970 ≤ denoted run)) ∧
    ∀ run run', DigitRun run → DigitRun run' → denoted run ≤ denoted run' → runValue run ≤ runValue run' := by
  constructor
  · intro run digits
    refine ⟨tokens_of_run digits, fun rest pos ahead => Cursor.next_run pos digits ahead, ?_⟩
    rw [runValue_eq]
    exact ⟨Double.unsigned_nearest _, Double.isNearest_nearest _, fun x other => other.place?_eq, Double.value?_nearest,
      Double.value?_nearest_iff _, Double.isInf_nearest_iff _⟩
  · intro run run' _ _ le
    rw [runValue_eq, runValue_eq]
    exact Double.nearest_le_nearest le

/-- Some numbers above `2 ^ 53` are read as themselves, too. -/
theorem run_exact_above :
    DigitRun "9007199254740994".toList ∧
    tokens "9007199254740994" = .ok [.integer (runValue "9007199254740994".toList) 0] ∧
    ¬ (value? (runValue "9007199254740994".toList) = some (denoted "9007199254740994".toList : ℚ) ↔
      denoted "9007199254740994".toList ≤ 2 ^ 53) := by
  have digits : DigitRun "9007199254740994".toList := ⟨by decide, by simp⟩
  have number : denoted "9007199254740994".toList = 9007199254740994 := by decide +kernel
  have bits : Decimal.nearestBits 9007199254740994 = 1076 * 2 ^ 52 + 1 := by decide +kernel
  have exact : value? (Decimal.nearest 9007199254740994) = some (9007199254740994 : ℚ) := by
    rw [Decimal.nearest, bits, Double.value?_point (by decide)]
    norm_num [Double.point, Double.significand]
  refine ⟨digits, tokens_of_run digits, ?_⟩
  rw [runValue_eq, number]
  intro bounded
  exact absurd (bounded.mp exact) (by decide)

end Reckon
