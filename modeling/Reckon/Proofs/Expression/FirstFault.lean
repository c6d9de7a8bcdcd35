import Mathlib
import Reckon.Proofs.Expression.Parsing
import Reckon.Proofs.Grammar.Scan

namespace Reckon

def OperandDue (ts : List Token) : Prop :=
  ∀ room more e, Derives .sum room (ts ++ more) e → ∃ t rest, more = t :: rest ∧ t.kind.beginsOperand = true

def EndsWithOperand (ts : List Token) : Prop :=
  ∃ us room e, us <:+ ts ∧ Derives .operand room us e

def HasOpenBracket (ts : List Token) : Prop :=
  ts.countP (·.kind = .closing) < ts.countP (·.kind = .opening)

namespace Missing

theorem Refuses.ne_nothing {w : Missing} {kind : Kind} (refused : w.Refuses kind) (finish : kind = .finish) :
    w ≠ .nothing := by
  rintro rfl
  exact refused.2 finish

theorem Refuses.ne_kind {w : Missing} {kind : Kind} (refused : w.Refuses kind) : kind ≠ w.kind := by
  rintro rfl
  cases w with
  | operand room =>
    cases room with
    | zero => exact refused
    | succ room => cases refused
  | closing => exact refused.2 rfl
  | nothing => exact refused.2 rfl

end Missing

theorem Scan.brackets_of_run {limit : Nat} {ts : List Token} {s : Scan}
    (ran : (Scan.due 0 []).run limit ts = some s) :
    s.brackets.length + ts.countP (·.kind = .closing) = ts.countP (·.kind = .opening) := by
  have count := run_brackets ran
  simpa [brackets] using count

namespace Begins

variable {room : Nat} {ts : List Token} {w : Missing}

theorem operandDue {inner : Nat} (begun : Begins .sum room ts (.operand inner)) : OperandDue ts := by
  intro more us e derived
  cases us with
  | nil =>
    rw [List.append_nil] at derived
    exact absurd derived (begun.not_derives_of_missing (by simp))
  | cons t rest =>
    obtain ⟨limit, s, next, ⟨level, brackets, rfl, -⟩, stepped⟩ := begun.step_of_derives derived
    exact ⟨t, rest, rfl, stepped.begins⟩

theorem kind_eq_integer_iff (begun : Begins .sum room ts w) (fits : w ≠ .operand 0) :
    w.kind = .integer ↔ OperandDue ts := by
  constructor
  · intro kind
    cases w with
    | operand inner => exact begun.operandDue
    | closing | nothing => cases kind
  · intro due
    -- The shortest completion begins with an operand only if an operand is missing.
    obtain ⟨more, e, derived⟩ := begun.completion fits
    rw [List.append_assoc] at derived
    obtain ⟨t, rest, next, begins⟩ := due _ _ _ derived
    cases w with
    | operand inner => rfl
    | closing =>
      cases next
      cases begins
    | nothing =>
      obtain ⟨e, whole⟩ := begun.derives
      rw [← List.append_nil ts] at whole
      obtain ⟨t, rest, none, -⟩ := due _ _ _ whole
      cases none

theorem kind_eq_closing_iff (begun : Begins .sum room ts w) :
    w.kind = .closing ↔ EndsWithOperand ts ∧ HasOpenBracket ts := by
  obtain ⟨s, ran, awaited⟩ := begun.scan (.outermost room) (Nat.le_refl room)
  have brackets := Scan.brackets_of_run ran
  unfold HasOpenBracket
  cases w with
  | operand inner =>
    obtain ⟨level, outer, rfl, -⟩ := awaited
    refine iff_of_false (by simp [Missing.kind]) ?_
    rintro ⟨⟨us, place, e, ends, derived⟩, -⟩
    obtain ⟨last, final, kind⟩ := derived.exists_last
    obtain ⟨level', outer', same⟩ := Scan.done_of_run ran (final.trans ends) kind
    cases same
  | closing =>
    obtain ⟨level, opened, outer, rfl⟩ := awaited
    refine iff_of_true rfl ⟨begun.exists_operand, ?_⟩
    simp only [Scan.brackets, List.length_cons] at brackets
    omega
  | nothing =>
    obtain ⟨level, rfl⟩ := awaited
    refine iff_of_false (by simp [Missing.kind]) ?_
    rintro ⟨-, unclosed⟩
    simp only [Scan.brackets, List.length_nil] at brackets
    omega

theorem kind_eq_finish_iff (begun : Begins .sum room ts w) :
    w.kind = .finish ↔ ∃ e, Derives .sum room ts e := by
  constructor
  · intro kind
    cases w with
    | nothing => exact begun.derives
    | operand _ | closing => cases kind
  · rintro ⟨e, derived⟩
    by_cases missing : w = .nothing
    · rw [missing]
      rfl
    · exact absurd derived (begun.not_derives_of_missing missing)

end Begins

/-- The tokens `ts` are the whole of the text that has been understood when the token `found` turns up in
place of the expected kind. -/
structure FirstFault (limit : Nat) (text : String) (ts : List Token) (expected : Kind) (found : Token) : Prop where
  precedes : Precedes text ts found
  finish_pos : found.kind = .finish → found = .finish text.length
  viable : ∃ more e, Derives .sum limit (ts ++ more) e
  refused : ∀ room more e, ¬ Derives .sum room (ts ++ found :: more) e
  incomplete : found.kind = .finish → ∀ room e, ¬ Derives .sum room ts e
  expected_kind : expected = .integer ∨ expected = .closing ∨ expected = .finish
  operand : expected = .integer ↔ OperandDue ts
  bracket : expected = .closing ↔ EndsWithOperand ts ∧ HasOpenBracket ts
  complete : expected = .finish ↔ ∃ e, Derives .sum limit ts e
  differs : found.kind ≠ expected

theorem Begins.firstFault {limit : Nat} {text : String} {ts : List Token} {w : Missing} {t : Token}
    (begun : Begins .sum limit ts w) (refused : w.Refuses t.kind) (precedes : Precedes text ts t) :
    FirstFault limit text ts w.kind t := by
  have fits : w ≠ .operand 0 := by
    rintro rfl
    exact refused
  refine ⟨precedes, precedes.finish_pos, ?_, ?_, ?_, ?_, begun.kind_eq_integer_iff fits,
    begun.kind_eq_closing_iff, begun.kind_eq_finish_iff, refused.ne_kind⟩
  · obtain ⟨more, e, derived⟩ := begun.completion fits
    rw [List.append_assoc] at derived
    exact ⟨_, e, derived⟩
  · intro room more e
    exact begun.not_derives_of_refuses refused
  · intro finish room e
    exact begun.not_derives_of_missing (refused.ne_nothing finish)
  · cases w with
    | operand inner => exact .inl rfl
    | closing => exact .inr (.inl rfl)
    | nothing => exact .inr (.inr rfl)

/-- A token that is reported as unexpected stands in the text behind tokens that begin an expression,
and is the first one with which no expression goes on. -/
theorem parse_unexpected_firstFault {limit : Nat} {text : String} {expected : Kind} {found : Token}
    (failed : parse ⟨false, limit⟩ text = .error (.unparsable (.unexpected expected found))) :
    ∃ ts, FirstFault limit text ts expected found ∧ ∀ us, Precedes text us found → us = ts := by
  obtain ⟨err, same, cause | ⟨ts, stop, t, behind, reads, final, halted⟩⟩ := parse_error_cases failed
  · obtain ⟨cause, -, rfl, -⟩ := cause
    cases same
  · cases same
    have precedes : Precedes text ts t := ⟨stop, behind, reads, final⟩
    rcases halted with halts | ⟨⟨e, derived⟩, refused, same⟩
    · cases halts with
      | unexpected begun missing refused =>
        exact ⟨ts, begun.firstFault refused precedes, fun us other => precedes.unique other⟩
    · cases same
      have begun : Begins .sum limit ts .nothing := .whole derived
      exact ⟨ts, begun.firstFault refused precedes, fun us other => precedes.unique other⟩

theorem firstFault_in_bracket :
    parse ⟨false, 3⟩ "1*-(/2" = .error (.unparsable (.unexpected .integer (.symbol .divide "/" 4))) ∧
      ∃ ts, FirstFault 3 "1*-(/2" ts .integer (.symbol .divide "/" 4) ∧
        ∀ us, Precedes "1*-(/2" us (.symbol .divide "/" 4) → us = ts := by
  have failed : parse ⟨false, 3⟩ "1*-(/2" = .error (.unparsable (.unexpected .integer (.symbol .divide "/" 4))) := by
    have first : (Cursor.ofText "1*-(/2").next = .ok (.integer (Decimal.nearest 1) 0, ⟨"*-(/2".toList, 1⟩) := rfl
    rw [parse_of_next first]
    generalize Decimal.nearest 1 = value
    cbv
  exact ⟨failed, parse_unexpected_firstFault failed⟩

end Reckon
