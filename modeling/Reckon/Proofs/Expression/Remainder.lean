import Reckon.Proofs.Expression.Verdict
import Reckon.Proofs.Token.Lookahead

namespace Reckon

namespace Text

def leadingBlanks (text : String) : Nat :=
  (text.toList.takeWhile isBlank).length

def visible (text : String) : List Char :=
  text.toList.dropWhile isBlank

end Text

namespace Cursor

variable {c behind : Cursor} {t : Token} {first : Char}

theorem blank_of_finish (read : c.next = .ok (t, behind)) (kind : t.kind = .finish) :
    ∀ d ∈ c.rest, Text.isBlank d = true :=
  List.dropWhile_eq_nil_iff.mp (lead_finish read kind).1

theorem exists_lead_of_beginsToken (begins : beginsToken first = true) (plain : first ∉ ['+', '-', '*', '/'])
    (rest : List Char) (pos : Nat) :
    ∃ t behind, lead ⟨first :: rest, pos⟩ = .ok (t, behind) ∧ t.kind.isOperator = false := by
  rcases Bool.or_eq_true_iff.mp begins with digit | sign
  · exact ⟨_, _, lead_of_isDigit pos digit, rfl⟩
  · unfold sign? at sign
    split at sign
    · simp at plain
    · simp at plain
    · simp at plain
    · simp at plain
    · exact ⟨_, _, rfl, rfl⟩
    · exact ⟨_, _, rfl, rfl⟩
    · cases sign

end Cursor

def SetApart (remainder : String) : Prop :=
  ∃ c ∈ remainder.toList.head?, Text.isBlank c = true

/-- Behind an expression the remainder would not be read as the operator of a longer one. -/
def NoOperator (remainder : String) : Prop :=
  ∀ c ∈ (Text.visible remainder).head?, c ∉ ['+', '-', '*', '/']

variable {limit : Nat} {text remainder : String} {ts : List Token} {e : Expr} {value : Float}

theorem exists_reads_followed {t : Token} (before : Precedes text ts t) (finish : t.kind = .finish)
    (apart : SetApart remainder) :
    ∃ stop, (Cursor.ofText (text ++ remainder)).Reads ts stop ∧
      stop.next = Cursor.lead ⟨Text.visible remainder, text.length + Text.leadingBlanks remainder⟩ := by
  obtain ⟨stop, behind, reads, final⟩ := before
  obtain ⟨front, whole, again⟩ := reads.exists_front
  have blank := Cursor.blank_of_finish final finish
  have like : BeginsLike (stop.rest ++ remainder.toList) stop.rest := by
    obtain ⟨c, head, space⟩ := apart
    cases rest : stop.rest with
    | nil =>
      refine .inr ?_
      intro d same
      cases Option.mem_unique head same
      exact space
    | cons d ds => exact .inl rfl
  refine ⟨⟨stop.rest ++ remainder.toList, stop.pos⟩, ?_, ?_⟩
  · have replaced := again _ like
    rw [← List.append_assoc, ← whole] at replaced
    simpa [Cursor.ofText] using replaced
  · have place : stop.pos + stop.rest.length = text.length := by
      rw [reads.total]
      simp [Cursor.ofText, String.length_toList]
    rw [Cursor.next_of_blanks blank, place]
    rfl

theorem parse_followed (parsed : parse ⟨false, limit⟩ text = .ok e) (apart : SetApart remainder)
    (plain : NoOperator remainder) :
    ((∀ c ∈ (Text.visible remainder).head?, Cursor.beginsToken c = true) →
      parse ⟨true, limit⟩ (text ++ remainder) = .ok e) ∧
    ∀ c ∈ (Text.visible remainder).head?, Cursor.beginsToken c = false →
      parse ⟨true, limit⟩ (text ++ remainder) =
        .error (.unparsable (.unreadable ⟨c, text.length + Text.leadingBlanks remainder⟩)) := by
  obtain ⟨ts, t, before, derived, -, finish⟩ := parse_eq_ok_iff.mp parsed
  obtain ⟨stop, reads, next⟩ := exists_reads_followed before (finish rfl) apart
  unfold NoOperator at plain
  constructor
  · intro begins
    have ahead : ∃ u behind, stop.next = .ok (u, behind) ∧ u.kind.isOperator = false := by
      rw [next]
      cases rest : Text.visible remainder with
      | nil => exact ⟨_, _, rfl, rfl⟩
      | cons c cs =>
        rw [rest] at begins plain
        exact Cursor.exists_lead_of_beginsToken (begins c rfl) (plain c rfl) cs _
    obtain ⟨u, behind, final, other⟩ := ahead
    exact parse_eq_ok_iff.mpr ⟨ts, u, ⟨stop, behind, reads, final⟩, derived, other, by simp⟩
  · intro c head other
    obtain ⟨cs, rest⟩ := List.head?_eq_some_iff.mp head
    rw [rest] at next
    have torn := next.trans (Cursor.lead_of_not_beginsToken other cs _)
    obtain ⟨level, ran, -⟩ := derived.scan (.outermost _) (Nat.le_refl _)
    have ends : Scan.Ends (Policy.mk true limit).maxDepth _ ts stop _ := .of_error reads ran torn
    refine ends.parse_of_fault ?_
    rw [torn]
    rfl

/-- Text behind an expression is ignored exactly if it is blank or its first visible character begins a token.
Otherwise this character is reported, although the expression in front of it is complete. -/
theorem remainder_ignored_iff (evaluated : evaluate ⟨false, limit⟩ text = .ok value) (apart : SetApart remainder)
    (plain : NoOperator remainder) :
    (evaluate ⟨true, limit⟩ (text ++ remainder) = .ok value ↔
      ∀ c ∈ (Text.visible remainder).head?, Cursor.beginsToken c = true) ∧
    ∀ c ∈ (Text.visible remainder).head?, Cursor.beginsToken c = false →
      evaluate ⟨true, limit⟩ (text ++ remainder) =
        .error (.unparsable (.unreadable ⟨c, text.length + Text.leadingBlanks remainder⟩)) := by
  obtain ⟨e, parsed⟩ := exists_parse_of_evaluate evaluated
  obtain ⟨ignored, reported⟩ := parse_followed parsed apart plain
  have failed : ∀ c ∈ (Text.visible remainder).head?, Cursor.beginsToken c = false →
      evaluate ⟨true, limit⟩ (text ++ remainder) =
        .error (.unparsable (.unreadable ⟨c, text.length + Text.leadingBlanks remainder⟩)) := by
    intro c head other
    rw [evaluate_eq_bind, reported c head other]
    rfl
  refine ⟨⟨?_, ?_⟩, failed⟩
  · intro same c head
    rw [← Bool.not_eq_false]
    intro other
    cases same.symm.trans (failed c head other)
  · intro begins
    rw [← evaluated, evaluate_eq_bind, evaluate_eq_bind, ignored begins, parsed]

section Counterexample

theorem evaluate_sum_text : evaluate ⟨false, 256⟩ "3+2" = .ok (Decimal.nearest 3 + Decimal.nearest 2) := by
  have left : (Cursor.ofText "3+2").next = .ok (.integer (Decimal.nearest 3) 0, ⟨"+2".toList, 1⟩) := rfl
  have sign : (Cursor.mk "+2".toList 1).next = .ok (.symbol .plus "+" 1, ⟨"2".toList, 2⟩) := rfl
  have right : (Cursor.mk "2".toList 2).next = .ok (.integer (Decimal.nearest 2) 2, ⟨[], 3⟩) := rfl
  have last : (Cursor.mk [] 3).next = .ok (.finish 3, ⟨[], 3⟩) := rfl
  have member : Derives .sum 256 [.integer (Decimal.nearest 3) 0] (.number (Decimal.nearest 3)) :=
    .single (.factor (.unsigned (.base (.number rfl rfl))))
  have derived : Derives .sum 256
      [.integer (Decimal.nearest 3) 0, .symbol .plus "+" 1, .integer (Decimal.nearest 2) 2]
      (.binary (.number (Decimal.nearest 3)) .plus (.number (Decimal.nearest 2))) :=
    .sum member rfl (.factor (.unsigned (.base (.number rfl rfl))))
  have before : Precedes "3+2" _ (.finish 3) :=
    ⟨_, _, .cons left nofun (.cons sign nofun (.cons right nofun .nil)), last⟩
  have parsed : parse ⟨false, 256⟩ "3+2" = .ok _ :=
    parse_eq_ok_iff.mpr ⟨_, _, before, derived, rfl, fun _ => rfl⟩
  rw [evaluate_eq_bind, parsed]
  rfl

theorem setApart_garbage : SetApart " garbage" :=
  ⟨' ', rfl, by decide⟩

theorem noOperator_garbage : NoOperator " garbage" := by
  rintro c ⟨⟩
  decide

theorem remainder_reported_behind_sum :
    evaluate ⟨false, 256⟩ "3+2" = .ok (Decimal.nearest 3 + Decimal.nearest 2) ∧ SetApart " garbage" ∧
      NoOperator " garbage" ∧
      evaluate ⟨true, 256⟩ "3+2 garbage" = .error (.unparsable (.unreadable ⟨'g', 4⟩)) := by
  have both := remainder_ignored_iff evaluate_sum_text setApart_garbage noOperator_garbage
  exact ⟨evaluate_sum_text, setApart_garbage, noOperator_garbage, both.2 'g' rfl rfl⟩

/-- Not every remainder that stands apart from an expression is ignored. -/
theorem not_remainder_ignored :
    ¬ ∀ limit text remainder value, evaluate ⟨false, limit⟩ text = .ok value → SetApart remainder →
      NoOperator remainder → evaluate ⟨true, limit⟩ (text ++ remainder) = .ok value := by
  intro ignored
  obtain ⟨e, parsed⟩ := exists_parse_of_evaluate evaluate_sum_text
  have failed := (parse_followed parsed setApart_garbage noOperator_garbage).2 'g' rfl rfl
  have same := ignored 256 "3+2" " garbage" _ evaluate_sum_text setApart_garbage noOperator_garbage
  rw [evaluate_eq_bind, failed] at same
  cases same

end Counterexample

end Reckon
