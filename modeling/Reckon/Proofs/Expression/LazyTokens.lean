import Reckon.Proofs.Reader.Runs

namespace Reckon

variable {policy : Policy} {text : String} {r : Reader} {cause : Unreadable}

namespace Reader

theorem StandsIn.tokens_of_unreadable (stands : r.StandsIn text)
    (torn : (r.read policy).1 = .error (.unreadable cause)) : tokens text = .error cause := by
  obtain ⟨us, c, before, views⟩ := stands.place
  obtain ⟨ts, stop, last, behind, reading⟩ := read_answers policy views stands.outermost
  obtain ⟨place, next, -, -⟩ := reading.torn torn
  have more := Cursor.more_of_torn reading.final next
  have whole := (before.append reading.reads).append (.cons reading.final more .nil)
  exact (tokens_eq_error_iff text cause).mpr ⟨_, _, place, whole, next⟩

theorem start_tokens_of_unreadable {requests : List Scanner.Request}
    (torn : Reader.start ((Scanner.ofText text).serveAll requests).cursor = .error (.unreadable cause)) :
    tokens text = .error cause := by
  obtain ⟨cause', place, same, last⟩ := start_eq_error torn
  cases same
  obtain ⟨ts, stop, reads, follows⟩ := Scanner.serveAll_follows text requests
  exact (tokens_eq_error_iff text cause).mpr ⟨ts, stop, place, reads, follows.symm.trans last⟩

end Reader

/-- What a reader answers if `cause` is the first unreadable character of its text. Only that character is
reported as unreadable. Everything else lies with a token in front of it, and so does the token that is left
over behind an expression, which is why no expression fills the rest of the text. -/
structure AnswersBefore (policy : Policy) (text : String) (cause : Unreadable) (r : Reader) : Prop where
  unreadable : ∀ other, (r.read policy).1 = .error (.unreadable other) → other = cause
  unexpected : ∀ expected found, (r.read policy).1 = .error (.unexpected expected found) →
    found ∈ (Cursor.ofText text).stream ∧ found.pos < cause.pos
  tooDeep : ∀ limit pos, (r.read policy).1 = .error (.tooDeep limit pos) →
    ∃ t ∈ (Cursor.ofText text).stream, t.pos = pos ∧ pos < cause.pos
  found : ∀ e, (r.read policy).1 = .ok e → policy.allowTrailing = true ∧
    ∃ ts t, r.Takes ts (r.read policy).2 ∧ Derives .sum policy.maxDepth ts e ∧ (r.read policy).2.current = t ∧
      t ∈ (Cursor.ofText text).stream ∧ t.pos < cause.pos

theorem Reader.StandsIn.answersBefore (stands : r.StandsIn text) (torn : tokens text = .error cause) :
    AnswersBefore policy text cause r := by
  obtain ⟨us, c, before, views⟩ := stands.place
  obtain ⟨ts, stop, last, behind, reading⟩ := read_answers policy views stands.outermost
  obtain ⟨member, real, ahead⟩ := before_unreadable torn (before.append reading.reads) reading.final
  have answers := reading.answers
  constructor
  · intro other reported
    cases torn.symm.trans (stands.tokens_of_unreadable reported)
    rfl
  · intro expected found reported
    rw [reported] at answers
    cases answers with
    | leftOver => exact ⟨member, ahead⟩
    | halted halts =>
      cases halts with
      | unexpected => exact ⟨member, ahead⟩
  · intro limit pos reported
    rw [reported] at answers
    cases answers with
    | halted halts =>
      cases halts with
      | tooDeep => exact ⟨_, member, rfl, ahead⟩
  · intro e found
    obtain ⟨derived, accepted, left⟩ := reading.found found
    rw [left]
    exact ⟨accepted.resolve_right real, ts, _, reading.takes, derived, rfl, member, ahead⟩

theorem Reader.read_unreadable_of_start {rest : Reader} (started : Reader.start (.ofText text) = .ok r)
    (torn : r.read policy = (.error (.unreadable cause), rest)) :
    ∃ ts last, r.Takes ts last ∧ (Cursor.ofText text).stream = ts ++ [rest.current] ∧
      (∃ w, Begins .sum policy.maxDepth (ts ++ [rest.current]) w) ∧
      last.expect rest.current.kind = .error (.unreadable cause, rest) ∧
      rest.expect rest.current.kind = .error (.unreadable cause, rest) := by
  obtain ⟨first, outermost⟩ := start_eq_ok_iff.mp started
  obtain ⟨ts, stop, last, behind, reading⟩ := read_answers policy (.of_next first) outermost
  obtain ⟨place, next, left, begun⟩ := reading.torn (congrArg Prod.fst torn)
  have ahead := reading.ahead.trans next
  rw [torn] at left
  cases left
  have whole := reading.reads.append (.cons reading.final (Cursor.more_of_torn reading.final next) .nil)
  refine ⟨ts, last, reading.takes, ?_, begun, ?_, ?_⟩
  · rw [whole.stream, (Cursor.Exhausted.of_error next).stream, List.append_nil]
  · rw [expect, if_pos rfl, advance_of_torn ahead]
  · have again : (Reader.mk last.current place last.depth).cursor.next = .error (cause, place) :=
      (Cursor.next_of_torn next).trans next
    rw [expect, if_pos rfl, advance_of_torn again]

/-- Where a text can be cut into tokens, no reader of it finds an unreadable character. Where it cannot, every
reader that finds one finds the same, a fresh one only behind all the tokens in front of it, and all other
answers lie with these tokens. -/
theorem read_agrees_with_tokens (policy : Policy) (text : String) :
    (∀ ts, tokens text = .ok ts →
      (∀ requests cause, Reader.start ((Scanner.ofText text).serveAll requests).cursor ≠ .error (.unreadable cause)) ∧
      ∀ r, Reader.UsedOn policy text r → ∀ cause, (r.read policy).1 ≠ .error (.unreadable cause)) ∧
    (∀ cause, tokens text = .error cause →
      (∀ requests other, Reader.start ((Scanner.ofText text).serveAll requests).cursor = .error (.unreadable other) →
        other = cause) ∧
      (∀ r, Reader.UsedOn policy text r → AnswersBefore policy text cause r) ∧
      ∀ r rest other, Reader.start (.ofText text) = .ok r → r.read policy = (.error (.unreadable other), rest) →
        ∃ ts last, r.Takes ts last ∧ (Cursor.ofText text).stream = ts ++ [rest.current] ∧
          (∃ w, Begins .sum policy.maxDepth (ts ++ [rest.current]) w) ∧
          last.expect rest.current.kind = .error (.unreadable other, rest) ∧
          rest.expect rest.current.kind = .error (.unreadable other, rest)) := by
  refine ⟨?_, ?_⟩
  · intro ts tokenized
    refine ⟨?_, ?_⟩
    · intro requests cause torn
      cases tokenized.symm.trans (Reader.start_tokens_of_unreadable torn)
    · intro r used cause torn
      cases tokenized.symm.trans (used.standsIn.tokens_of_unreadable torn)
  · intro cause torn
    refine ⟨?_, ?_, ?_⟩
    · intro requests other started
      cases torn.symm.trans (Reader.start_tokens_of_unreadable started)
      rfl
    · intro r used
      exact used.standsIn.answersBefore torn
    · intro r rest other started reported
      exact Reader.read_unreadable_of_start started reported

end Reckon
