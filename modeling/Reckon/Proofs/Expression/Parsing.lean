import Reckon.Calculation
import Reckon.Proofs.Reader.Answers

namespace Reckon

variable {policy : Policy} {text : String}

theorem parse_of_error {cause : Unreadable} {place : Cursor}
    (torn : (Cursor.ofText text).next = .error (cause, place)) :
    parse policy text = .error (.unparsable (.unreadable cause)) := by
  simp only [parse, Reader.start, torn]
  rfl

theorem parse_of_next {t : Token} {behind : Cursor} (read : (Cursor.ofText text).next = .ok (t, behind)) :
    parse policy text = ((Reader.mk t behind 0).read policy).1.mapError .unparsable := by
  simp only [parse, Reader.start, read]
  rfl

theorem parse_cases (policy : Policy) (text : String) :
    (∃ cause place, parse policy text = .error (.unparsable (.unreadable cause)) ∧
      (Cursor.ofText text).next = .error (cause, place)) ∨
    ∃ ts stop t behind outcome, (Cursor.ofText text).Reads ts stop ∧ stop.next = .ok (t, behind) ∧
      Answers policy ts t behind outcome ∧ parse policy text = outcome.mapError .unparsable := by
  cases first : (Cursor.ofText text).next with
  | error fault => exact .inl ⟨fault.1, fault.2, parse_of_error first, rfl⟩
  | ok result =>
    obtain ⟨t, behind⟩ := result
    have views : (Reader.mk t behind 0).Views (.ofText text) := .of_next first
    obtain ⟨ts, stop, last, beyond, reading⟩ := Reader.read_answers policy views rfl
    exact .inr ⟨ts, stop, _, _, _, reading.reads, reading.final, reading.answers, parse_of_next first⟩

theorem parse_eq_ok_iff {e : Expr} :
    parse policy text = .ok e ↔ ∃ ts t, Precedes text ts t ∧ Derives .sum policy.maxDepth ts e ∧
      Level.sum.continues t.kind = false ∧ (policy.allowTrailing = false → t.kind = .finish) := by
  constructor
  · intro parsed
    rcases parse_cases policy text with
      ⟨cause, -, failed, -⟩ | ⟨ts, stop, t, behind, outcome, reads, final, answers, same⟩
    · cases failed.symm.trans parsed
    · rw [same] at parsed
      cases answers with
      | found derived stops accepted =>
        cases parsed
        refine ⟨ts, t, ⟨stop, behind, reads, final⟩, derived, stops, ?_⟩
        intro strict
        exact accepted.resolve_left (by simp [strict])
      | leftOver | halted => cases parsed
  · rintro ⟨ts, last, ⟨stop, behind, reads, final⟩, derived, stops, finish⟩
    obtain ⟨t, beyond, first⟩ := reads.exists_next final
    have takes : (Reader.mk t beyond 0).Takes ts ⟨last, behind, 0⟩ := Reader.takes_of_reads reads first final rfl
    have accepted : policy.allowTrailing = true ∨ last.kind = .finish := by
      cases trailing : policy.allowTrailing with
      | true => exact .inl rfl
      | false => exact .inr (finish trailing)
    rw [parse_of_next first, Reader.read_of_derives derived takes stops (.of_next first) rfl, if_pos accepted]
    rfl

theorem parse_error_cases {failure : Failure} (failed : parse policy text = .error failure) :
    ∃ err, failure = .unparsable err ∧
      ((∃ cause place, err = .unreadable cause ∧ (Cursor.ofText text).next = .error (cause, place)) ∨
        ∃ ts stop t behind, Cursor.Reads (.ofText text) ts stop ∧ stop.next = .ok (t, behind) ∧
          (Halts policy.maxDepth .sum policy.maxDepth ts t behind err ∨
            (∃ e, Derives .sum policy.maxDepth ts e) ∧ Missing.nothing.Refuses t.kind ∧
              err = .unexpected .finish t)) := by
  rcases parse_cases policy text with
    ⟨cause, place, same, torn⟩ | ⟨ts, stop, t, behind, outcome, reads, final, answers, same⟩
  · cases same.symm.trans failed
    exact ⟨_, rfl, .inl ⟨cause, place, rfl, torn⟩⟩
  · rw [same] at failed
    cases answers with
    | found => cases failed
    | leftOver derived stops refused =>
      cases failed
      have behind : Missing.nothing.Refuses t.kind := ⟨stops, fun finish => refused (.inr finish)⟩
      exact ⟨_, rfl, .inr ⟨ts, stop, t, _, reads, final, .inr ⟨⟨_, derived⟩, behind, rfl⟩⟩⟩
    | halted halts =>
      cases failed
      exact ⟨_, rfl, .inr ⟨ts, stop, t, behind, reads, final, .inl halts⟩⟩

theorem evaluate_eq_bind (policy : Policy) (text : String) :
    evaluate policy text = (parse policy text).bind fun e => e.value.mapError .valueless := by
  unfold evaluate parse
  cases Reader.start (.ofText text) with
  | error e => rfl
  | ok reader => rfl

theorem exists_parse_of_evaluate {policy : Policy} {text : String} {value : Float}
    (evaluated : evaluate policy text = .ok value) : ∃ e, parse policy text = .ok e := by
  rw [evaluate_eq_bind] at evaluated
  cases parsed : parse policy text with
  | ok e => exact ⟨e, rfl⟩
  | error failure =>
    rw [parsed] at evaluated
    cases evaluated

end Reckon
