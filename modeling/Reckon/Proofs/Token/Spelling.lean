import Reckon.Proofs.Grammar.Derivation
import Reckon.Proofs.Token.Reading

namespace Reckon

def runValue (run : List Char) : Float :=
  Decimal.nearest (Nat.ofDigitChars 10 run 0)

def DigitRun (run : List Char) : Prop :=
  run ≠ [] ∧ ∀ c ∈ run, c.isDigit = true

def NoDigitAhead (rest : List Char) : Prop :=
  ∀ c ∈ rest.head?, c.isDigit = false

theorem Kind.written_of_isOperator {kind : Kind} (operator : kind.isOperator = true) :
    kind ≠ .integer ∧ kind ≠ .finish := by
  constructor <;> (rintro rfl; cases operator)

theorem Kind.symbol_noDigitAhead {kind : Kind} (written : kind ≠ .integer ∧ kind ≠ .finish) (rest : List Char) :
    NoDigitAhead (kind.symbol.toList ++ rest) := by
  intro c head
  cases kind with
  | integer | finish => simp at written
  | plus | minus | times | divide | power | opening | closing =>
    cases head
    rfl

theorem Kind.symbol_of_isSign {kind : Kind} (sign : kind.isSign = true) :
    ∃ c, kind.symbol.toList = [c] ∧ c ≠ '*' := by
  cases kind with
  | plus => exact ⟨'+', rfl, by decide⟩
  | minus => exact ⟨'-', rfl, by decide⟩
  | integer | times | divide | power | opening | closing | finish => cases sign

namespace NoDigitAhead

variable {rest : List Char}

theorem takeWhile (ahead : NoDigitAhead rest) : rest.takeWhile Char.isDigit = [] := by
  cases rest with
  | nil => rfl
  | cons c cs =>
    have other : c.isDigit = false := ahead c rfl
    simp [other]

theorem dropWhile (ahead : NoDigitAhead rest) : rest.dropWhile Char.isDigit = rest := by
  cases rest with
  | nil => rfl
  | cons c cs =>
    have other : c.isDigit = false := ahead c rfl
    simp [other]

end NoDigitAhead

namespace Cursor

variable {run rest : List Char} (pos : Nat)

theorem lead_of_isDigit {first : Char} (digit : first.isDigit = true) :
    lead ⟨first :: rest, pos⟩ = .ok (integer ⟨first :: rest, pos⟩) := by
  unfold lead
  split
  · rename_i empty
    cases empty
  · rename_i head
    cases head
    cases digit
  · rename_i head
    cases head
    rw [if_pos digit]

theorem next_run (digits : DigitRun run) (ahead : NoDigitAhead rest) :
    next ⟨run ++ rest, pos⟩ = .ok (.integer (runValue run) pos, ⟨rest, pos + run.length⟩) := by
  obtain ⟨nonempty, all⟩ := digits
  have whole : (run ++ rest).takeWhile Char.isDigit = run := by
    rw [List.takeWhile_append_of_pos all, ahead.takeWhile, List.append_nil]
  have behind : (run ++ rest).dropWhile Char.isDigit = rest := by
    rw [List.dropWhile_append_of_pos all, ahead.dropWhile]
  cases run with
  | nil => exact absurd rfl nonempty
  | cons first more =>
    have digit : first.isDigit = true := all first (List.mem_cons_self ..)
    have visible := Text.isBlank_eq_false_of_isDigit first digit
    have unmoved : skip Text.isBlank ⟨first :: (more ++ rest), pos⟩ = ⟨first :: (more ++ rest), pos⟩ := by
      simp [skip, visible]
    rw [List.cons_append] at whole behind ⊢
    rw [next, unmoved, lead_of_isDigit pos digit]
    simp only [integer, skip, whole, behind, runValue]

theorem lead_times (single : rest.head? ≠ some '*') :
    lead ⟨'*' :: rest, pos⟩ = .ok (.symbol .times "*" pos, ⟨rest, pos + 1⟩) := by
  unfold lead
  split
  · rename_i empty
    cases empty
  · rename_i stars
    cases stars
    exact absurd rfl single
  · rename_i head
    cases head
    rfl

theorem next_symbol {kind : Kind} (written : kind ≠ .integer ∧ kind ≠ .finish)
    (single : kind = .times → rest.head? ≠ some '*') :
    next ⟨kind.symbol.toList ++ rest, pos⟩ =
      .ok (.symbol kind kind.symbol pos, ⟨rest, pos + kind.symbol.length⟩) := by
  cases kind with
  | integer | finish => simp at written
  | plus | minus | divide | power | opening | closing => rfl
  | times => exact lead_times pos (single rfl)

end Cursor

end Reckon
