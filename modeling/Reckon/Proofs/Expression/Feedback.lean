import Reckon.Proofs.Double.Text
import Reckon.Proofs.Expression.Verdict
import Reckon.Proofs.Expression.Acceptance
import Reckon.Proofs.Grammar.Spelling
import Reckon.Proofs.Token.Cut

namespace Reckon

open Decimal (Numeral infinityBits nearest nearestBits unsignedBits)
open Double (Whole signed)

section Text

variable {run rest : List Char} {c : Char}

theorem evaluate_of_spells {room : Nat} {cs : List Char} {e : Expr} (spells : Spells .operand room cs e)
    (fits : room ≤ Policy.defaultMaxDepth) :
    evaluate .strict (String.ofList cs) = e.value.mapError .valueless := by
  obtain ⟨ts, tokenized, derived⟩ := spells.factor.single.exists_tokens
  have parsed : parse .strict (String.ofList cs) = .ok e := parse_strict_of_derives tokenized derived fits
  rw [evaluate_eq_bind, parsed]
  rfl

theorem evaluate_run (digits : DigitRun run) (negative : Bool) :
    evaluate .strict (String.ofList (signChars negative ++ run)) = .ok (signed negative (runValue run)) := by
  have number : Spells .operand 1 run (.number (runValue run)) := (Spells.number digits).base
  cases negative with
  | false => exact evaluate_of_spells number (by decide)
  | true =>
    have minus : Kind.minus.isSign = true := rfl
    exact evaluate_of_spells (number.signed minus) (by decide)

theorem reads_digits (all : ∀ d ∈ run, d.isDigit = true) (ahead : NoDigitAhead rest) (pos : Nat) :
    ∃ ts, Cursor.Reads ⟨run ++ rest, pos⟩ ts ⟨rest, pos + run.length⟩ ∧
      (ts = [] ∨ ∃ value place, ts = [.integer value place]) := by
  cases run with
  | nil => exact ⟨[], .nil, .inl rfl⟩
  | cons first run =>
    have digits : DigitRun (first :: run) := ⟨by simp, all⟩
    exact ⟨_, .cons (Cursor.next_run pos digits ahead) nofun .nil, .inr ⟨_, _, rfl⟩⟩

theorem exists_scanned (all : ∀ d ∈ run, d.isDigit = true) (ahead : NoDigitAhead rest) (negative : Bool) :
    ∃ ts s, Cursor.Reads ⟨signChars negative ++ (run ++ rest), 0⟩ ts ⟨rest, (signChars negative ++ run).length⟩ ∧
      (Scan.due 0 []).run Policy.strict.maxDepth ts = some s := by
  cases negative with
  | false =>
    obtain ⟨ts, reads, scanned⟩ := reads_digits all ahead 0
    rw [Nat.zero_add] at reads
    rcases scanned with rfl | ⟨value, place, rfl⟩
    · exact ⟨_, _, reads, rfl⟩
    · exact ⟨_, _, reads, rfl⟩
  | true =>
    obtain ⟨ts, reads, scanned⟩ := reads_digits all ahead 1
    have minus : Cursor.next ⟨'-' :: (run ++ rest), 0⟩ = .ok (.symbol .minus "-" 0, ⟨run ++ rest, 1⟩) := rfl
    have whole := Cursor.Reads.cons minus nofun reads
    rw [Nat.add_comm] at whole
    rcases scanned with rfl | ⟨value, place, rfl⟩
    · exact ⟨_, _, whole, rfl⟩
    · exact ⟨_, _, whole, rfl⟩

theorem noDigitAhead_of_not_readable (other : readable c = false) : NoDigitAhead (c :: rest) := by
  intro d head
  cases head
  rw [← Bool.not_eq_true]
  intro digit
  cases other.symm.trans (readable_of_isDigit digit)

theorem evaluate_torn (all : ∀ d ∈ run, d.isDigit = true) (other : readable c = false) (negative : Bool) :
    evaluate .strict (String.ofList (signChars negative ++ (run ++ c :: rest))) =
      .error (.unparsable (.unreadable ⟨c, (signChars negative ++ run).length⟩)) := by
  have ahead : NoDigitAhead (c :: rest) := noDigitAhead_of_not_readable other
  obtain ⟨ts, s, reads, ran⟩ := exists_scanned all ahead negative
  have torn := Cursor.next_of_not_readable other rest (signChars negative ++ run).length
  have start : Cursor.ofText (String.ofList (signChars negative ++ (run ++ c :: rest))) =
      ⟨signChars negative ++ (run ++ c :: rest), 0⟩ := by
    rw [Cursor.ofText, String.toList_ofList]
  have ends := Scan.Ends.of_error reads ran torn
  rw [← start] at ends
  have fault : s.fault .strict (Cursor.next ⟨c :: rest, (signChars negative ++ run).length⟩) =
      some (.unreadable ⟨c, (signChars negative ++ run).length⟩) := by
    rw [torn]
    rfl
  rw [evaluate_eq_bind, ends.parse_of_fault fault]
  rfl

end Text

section Shape

/-- The text has a sign or none and digits, which are read as the double. -/
def ReadsBack (x : Float) (cs : List Char) : Prop :=
  ∃ negative run, cs = signChars negative ++ run ∧ DigitRun run ∧ x = signed negative (runValue run)

def Breaks (cs : List Char) : Prop :=
  ∃ negative run c rest, cs = signChars negative ++ (run ++ c :: rest) ∧ (∀ d ∈ run, d.isDigit = true) ∧
    readable c = false

variable (x : Float)

theorem chars_of_top (top : infinityBits ≤ unsignedBits x.toBits.toNat) : Breaks (Decimal.chars x) := by
  have word {c : Char} (rest : List Char) (negative : Bool) (other : readable c = false) :
      Breaks (signChars negative ++ c :: rest) :=
    ⟨negative, [], c, rest, rfl, by simp, other⟩
  rw [Decimal.chars, Decimal.charsOfBits]
  split
  · exact word ['a', 'N'] false (by decide)
  · rename_i le
    have infinite : unsignedBits x.toBits.toNat = infinityBits := by omega
    simp only [infinite, if_true]
    split
    · exact word ['n', 'f'] false (by decide)
    · exact word ['n', 'f'] true (by decide)

theorem chars_of_finite (finite : unsignedBits x.toBits.toNat < infinityBits) :
    Decimal.chars x = signChars (decide (2 ^ 63 ≤ x.toBits.toNat)) ++
      if unsignedBits x.toBits.toNat = 0 then ['0'] else (Decimal.shortest (unsignedBits x.toBits.toNat)).plain := by
  rw [Double.chars_of_number finite.le, Double.magnitudeChars, if_neg finite.ne]

theorem chars_cases :
    Whole x ∧ ReadsBack x (Decimal.chars x) ∨ ¬ Whole x ∧ Breaks (Decimal.chars x) := by
  by_cases finite : unsignedBits x.toBits.toNat < infinityBits
  · have same := Double.eq_signed x finite
    rw [Double.whole_iff_natural x finite, chars_of_finite x finite]
    -- the sign is written and read by itself, so the rest is about the double without it
    generalize decide (2 ^ 63 ≤ x.toBits.toNat) = negative at same ⊢
    generalize unsignedBits x.toBits.toNat = bits at same finite ⊢
    rcases Nat.eq_zero_or_pos bits with rfl | positive
    · refine .inl ⟨⟨0, rfl⟩, negative, ['0'], rfl, by simp [DigitRun], same⟩
    · rw [if_neg positive.ne', ← Double.shortest_exponent_nonneg_iff positive finite]
      by_cases whole : 0 ≤ (Decimal.shortest bits).exponent
      · obtain ⟨digits, number⟩ := Numeral.plain_whole whole
        have read := Double.nearestBits_shortest positive finite whole
        refine .inl ⟨whole, negative, _, rfl, digits, ?_⟩
        rw [runValue, number, nearest, read]
        exact same
      · obtain ⟨run, rest, plain, -, all, -⟩ := Numeral.plain_broken whole
        exact .inr ⟨whole, negative, run, '.', rest, by rw [plain], all, by decide⟩
  · have top : infinityBits ≤ unsignedBits x.toBits.toNat := not_lt.mp finite
    refine .inr ⟨?_, chars_of_top x top⟩
    rintro ⟨i, valued⟩
    cases (Double.value?_of_top x top).symm.trans valued

end Shape

def Numeric (pos : Nat) (c : Char) : Prop :=
  c.isDigit = true ∨ pos = 0 ∧ c = '-'

/-- The character and its position are those of the first one that is neither a digit nor a sign in front. -/
structure FirstOther (cs : List Char) (e : Unreadable) : Prop where
  stands : cs[e.pos]? = some e.char
  other : ¬ Numeric e.pos e.char
  first : ∀ i c, i < e.pos → cs[i]? = some c → Numeric i c

theorem numeric_of_front {negative : Bool} {run : List Char} (all : ∀ d ∈ run, d.isDigit = true) {i : Nat} {c : Char}
    (char : (signChars negative ++ run)[i]? = some c) : Numeric i c := by
  cases negative with
  | false => exact .inl (all c (List.mem_of_getElem? char))
  | true =>
    cases i with
    | zero =>
      cases char
      exact .inr ⟨rfl, rfl⟩
    | succ i => exact .inl (all c (List.mem_of_getElem? char))

theorem firstOther_of_breaks {negative : Bool} {run rest : List Char} {c : Char} (all : ∀ d ∈ run, d.isDigit = true)
    (other : readable c = false) :
    FirstOther (signChars negative ++ (run ++ c :: rest)) ⟨c, (signChars negative ++ run).length⟩ where
  stands := by simp [← List.append_assoc]
  other := by
    rintro (digit | ⟨-, rfl⟩)
    · cases other.symm.trans (readable_of_isDigit digit)
    · cases other
  first i d lt char := by
    rw [← List.append_assoc, List.getElem?_append_left lt] at char
    exact numeric_of_front all char

/-- The text of a finite whole number is evaluated to the same double, with its sign, and in any other text the first
character that stands in no such text is reported. -/
theorem evaluate_text (x : Float) :
    (Whole x → evaluate .strict (Decimal.text x) = .ok x) ∧
      (¬ Whole x → ∃ e, FirstOther (Decimal.text x).toList e ∧
        evaluate .strict (Decimal.text x) = .error (.unparsable (.unreadable e))) := by
  rw [Decimal.text, String.toList_ofList]
  rcases chars_cases x with ⟨whole, negative, run, chars, digits, same⟩ |
    ⟨broken, negative, run, c, rest, chars, all, other⟩
  · refine ⟨fun _ => ?_, fun broken => absurd whole broken⟩
    rw [chars, evaluate_run digits, ← same]
  · rw [chars]
    exact ⟨fun whole => absurd whole broken,
      fun _ => ⟨_, firstOther_of_breaks all other, evaluate_torn all other negative⟩⟩

end Reckon
