import Reckon.Proofs.Expression.Agreement
import Reckon.Proofs.Expression.Verdict
import Reckon.Proofs.Token.Stream

namespace Reckon

namespace Cursor

variable {c d behind stop : Cursor} {t : Token} {ts : List Token}

/-- The tokens from the two places on have the same kinds and numbers, and both end with the text or neither. -/
structure SameAhead (c d : Cursor) : Prop where
  stream : c.stream.map Token.content = d.stream.map Token.content
  torn : (∃ cause, c.drain.1 = .error cause) ↔ ∃ cause, d.drain.1 = .error cause

theorem torn_of_more (read : c.next = .ok (t, behind)) (more : t.kind ≠ .finish) :
    (∃ cause, c.drain.1 = .error cause) ↔ ∃ cause, behind.drain.1 = .error cause := by
  rw [drain_of_more read more]
  cases behind.drain.1 with
  | error cause => exact Iff.rfl
  | ok ts => exact ⟨nofun, nofun⟩

theorem torn_of_exhausted (done : c.Exhausted) :
    (∃ cause, c.drain.1 = .error cause) ↔ ∃ fault, c.next = .error fault := by
  cases read : c.next with
  | error fault =>
    rw [drain_of_error read]
    exact iff_of_true ⟨fault.1, rfl⟩ ⟨fault, rfl⟩
  | ok result =>
    rw [drain_of_finish read (done _ _ read)]
    exact ⟨nofun, nofun⟩

namespace SameAhead

theorem symm (same : SameAhead c d) : SameAhead d c :=
  ⟨same.stream.symm, same.torn.symm⟩

theorem exhausted (same : SameAhead c d) (done : c.Exhausted) : d.Exhausted := by
  have stream := same.stream
  rw [done.stream] at stream
  exact .of_stream (List.map_eq_nil_iff.mp stream.symm)

theorem exists_error {fault : Unreadable × Cursor} (same : SameAhead c d) (torn : c.next = .error fault) :
    ∃ fault', d.next = .error fault' := by
  have done := Exhausted.of_error torn
  rw [← torn_of_exhausted (same.exhausted done), ← same.torn, torn_of_exhausted done]
  exact ⟨fault, torn⟩

theorem exists_next (same : SameAhead c d) (read : c.next = .ok (t, behind)) :
    ∃ u beyond, d.next = .ok (u, beyond) ∧ u.content = t.content ∧ (t.kind ≠ .finish → SameAhead behind beyond) := by
  by_cases kind : t.kind = .finish
  · have done := same.exhausted (.of_finish read kind)
    cases read' : d.next with
    | error fault =>
      obtain ⟨fault', torn⟩ := same.symm.exists_error read'
      cases read.symm.trans torn
    | ok result =>
      obtain ⟨u, beyond⟩ := result
      refine ⟨u, beyond, rfl, ?_, fun more => absurd kind more⟩
      rw [next_finish read kind, next_finish read' (done _ _ read')]
      rfl
  · have stream := same.stream
    rw [stream_of_more read kind] at stream
    obtain ⟨u, us, ahead, content, -⟩ := List.map_eq_cons_iff.mp stream.symm
    obtain ⟨beyond, read', more⟩ := exists_next_of_stream ahead
    refine ⟨u, beyond, read', content, fun _ => ⟨?_, ?_⟩⟩
    · rw [stream_of_more read' more] at stream
      exact (List.cons.inj stream).2
    · rw [← torn_of_more read kind, ← torn_of_more read' more]
      exact same.torn

theorem exists_reads (same : SameAhead c d) (reads : Reads c ts stop) :
    ∃ us place, Reads d us place ∧ us.map Token.content = ts.map Token.content ∧ SameAhead stop place := by
  induction reads generalizing d with
  | nil => exact ⟨[], d, .nil, rfl, same⟩
  | @cons c behind stop t ts read more _ ih =>
    obtain ⟨u, beyond, read', content, further⟩ := same.exists_next read
    obtain ⟨us, place, reads, contents, ahead⟩ := ih (further more)
    have more' : u.kind ≠ .finish := by
      rw [Token.kind_of_content content]
      exact more
    refine ⟨u :: us, place, .cons read' more' reads, ?_, ahead⟩
    rw [List.map_cons, List.map_cons, content, contents]

end SameAhead

end Cursor

/-- What is read behind the first `index` tokens of a text. -/
def StandsAt (text : String) (index : Nat) (found : Except Unreadable Token) : Prop :=
  ∃ ts stop, (Cursor.ofText text).Reads ts stop ∧ ts.length = index ∧
    (stop.next.map Prod.fst).mapError Prod.fst = found

inductive SameFault (text text' : String) : SyntaxError → SyntaxError → Prop where
  | unreadable {index : Nat} {cause cause' : Unreadable} (here : StandsAt text index (.error cause))
      (there : StandsAt text' index (.error cause')) : SameFault text text' (.unreadable cause) (.unreadable cause')
  | unexpected (expected : Kind) {index : Nat} {t u : Token} (here : StandsAt text index (.ok t))
      (there : StandsAt text' index (.ok u)) (content : u.content = t.content) :
      SameFault text text' (.unexpected expected t) (.unexpected expected u)
  | tooDeep (limit : Nat) {index : Nat} {t u : Token} (here : StandsAt text index (.ok t))
      (there : StandsAt text' index (.ok u)) (content : u.content = t.content) :
      SameFault text text' (.tooDeep limit t.pos) (.tooDeep limit u.pos)

inductive SameFailure (text text' : String) : Failure → Failure → Prop where
  | unparsable {err err' : SyntaxError} (same : SameFault text text' err err') :
      SameFailure text text' (.unparsable err) (.unparsable err')
  | valueless (cause : EvalError) : SameFailure text text' (.valueless cause) (.valueless cause)

variable {policy : Policy} {text text' : String} {c d stop : Cursor} {ts : List Token} {s : Scan}

open Cursor (SameAhead)

theorem Scan.Ends.exists_same {limit : Nat} (ends : Scan.Ends limit c ts stop s) (same : SameAhead c d) :
    ∃ us place, Scan.Ends limit d us place s ∧ us.length = ts.length ∧ SameAhead stop place := by
  obtain ⟨us, place, reads, contents, ahead⟩ := same.exists_reads ends.reads
  have kinds : us.map Token.kind = ts.map Token.kind := by
    have firsts := congrArg (List.map Prod.fst) contents
    rwa [List.map_map, List.map_map] at firsts
  have count : us.length = ts.length := by
    have lengths := congrArg List.length contents
    rwa [List.length_map, List.length_map] at lengths
  refine ⟨us, place, ⟨reads, ?_, ?_⟩, count, ahead⟩
  · rw [Scan.run_of_kinds limit _ kinds]
    exact ends.ran
  · intro u beyond read
    obtain ⟨t, behind, read', content, -⟩ := ahead.symm.exists_next read
    have stuck := ends.stuck t behind read'
    rwa [Token.kind_of_content content] at stuck

namespace Scan

variable {err : SyntaxError} {index : Nat}

theorem exists_fault_of_content {t u : Token} {behind beyond : Cursor} (here : StandsAt text index (.ok t))
    (there : StandsAt text' index (.ok u)) (content : u.content = t.content)
    (fault : s.fault policy (.ok (t, behind)) = some err) :
    ∃ err', s.fault policy (.ok (u, beyond)) = some err' ∧ SameFault text text' err err' := by
  have kind := Token.kind_of_content content
  cases s with
  | due level brackets =>
    simp only [Scan.fault, Option.some.injEq] at fault ⊢
    subst fault
    by_cases full : policy.maxDepth ≤ level
    · rw [if_pos full, if_pos full]
      exact ⟨_, rfl, .tooDeep policy.maxDepth here there content⟩
    · rw [if_neg full, if_neg full]
      exact ⟨_, rfl, .unexpected .integer here there content⟩
  | done level brackets =>
    cases brackets with
    | nil =>
      simp only [Scan.fault, kind] at fault ⊢
      by_cases accepted : policy.allowTrailing = true ∨ t.kind = .finish
      · rw [if_pos accepted] at fault
        cases fault
      · rw [if_neg accepted] at fault ⊢
        cases fault
        exact ⟨_, rfl, .unexpected .finish here there content⟩
    | cons opened outer =>
      cases fault
      exact ⟨_, rfl, .unexpected .closing here there content⟩

theorem Ends.exists_fault {limit : Nat} {us : List Token} {place : Cursor} (ends : Ends limit (.ofText text) ts stop s)
    (ends' : Ends limit (.ofText text') us place s) (count : us.length = ts.length) (ahead : SameAhead stop place)
    (fault : s.fault policy stop.next = some err) :
    ∃ err', s.fault policy place.next = some err' ∧ SameFault text text' err err' := by
  cases read : stop.next with
  | error met =>
    obtain ⟨cause, met⟩ := met
    obtain ⟨⟨cause', met'⟩, read'⟩ := ahead.exists_error read
    rw [read] at fault
    cases fault
    rw [read']
    have here : StandsAt text ts.length (.error cause) := ⟨ts, stop, ends.reads, rfl, by rw [read]; rfl⟩
    have there : StandsAt text' ts.length (.error cause') := ⟨us, place, ends'.reads, count, by rw [read']; rfl⟩
    exact ⟨_, rfl, .unreadable here there⟩
  | ok result =>
    obtain ⟨t, behind⟩ := result
    obtain ⟨u, beyond, read', content, -⟩ := ahead.exists_next read
    rw [read] at fault
    rw [read']
    have here : StandsAt text ts.length (.ok t) := ⟨ts, stop, ends.reads, rfl, by rw [read]; rfl⟩
    have there : StandsAt text' ts.length (.ok u) := ⟨us, place, ends'.reads, count, by rw [read']; rfl⟩
    exact exists_fault_of_content here there content fault

end Scan

theorem parse_ok_of_sameAhead {e : Expr} (same : SameAhead (.ofText text) (.ofText text'))
    (parsed : parse policy text = .ok e) : parse policy text' = .ok e := by
  rw [parse_eq_ok_iff] at parsed ⊢
  obtain ⟨ts, t, ⟨stop, behind, reads, read⟩, derived, stops, finish⟩ := parsed
  obtain ⟨us, place, reads', contents, ahead⟩ := same.exists_reads reads
  obtain ⟨u, beyond, read', content, -⟩ := ahead.exists_next read
  have kind := Token.kind_of_content content
  rw [← kind] at stops finish
  exact ⟨us, u, ⟨place, beyond, reads', read'⟩, derived.of_content contents, stops, finish⟩

theorem parse_agree_of_sameAhead (policy : Policy) (same : SameAhead (.ofText text) (.ofText text')) :
    Agree (SameFailure text text') Eq (parse policy text) (parse policy text') := by
  cases parsed : parse policy text with
  | ok e =>
    rw [parse_ok_of_sameAhead same parsed]
    exact .valued rfl
  | error failure =>
    obtain ⟨err, ts, stop, s, rfl, ends, fault⟩ := exists_ends_of_failed parsed
    obtain ⟨us, place, ends', count, ahead⟩ := ends.exists_same same
    obtain ⟨err', fault', related⟩ := ends.exists_fault ends' count ahead fault
    rw [ends'.parse_of_fault fault']
    exact .failed (.unparsable related)

/-- Two texts whose tokens have the same kinds and numbers have the same tree and the same value, or the same failure
behind the same number of tokens. -/
theorem outcomes_of_same_tokens (policy : Policy) (same : SameAhead (.ofText text) (.ofText text')) :
    Agree (SameFailure text text') Eq (parse policy text) (parse policy text') ∧
      Agree (SameFailure text text') Eq (evaluate policy text) (evaluate policy text') := by
  have parsed := parse_agree_of_sameAhead policy same
  refine ⟨parsed, ?_⟩
  rw [evaluate_eq_bind, evaluate_eq_bind]
  apply parsed.bind
  rintro e - rfl
  cases e.value with
  | error cause => exact .failed (.valueless cause)
  | ok x => exact .valued rfl

theorem outcomes_of_unclosed_bracket :
    SameAhead (.ofText "( 01") (.ofText "(1") ∧
      Agree (SameFailure "( 01" "(1") Eq (parse ⟨false, 256⟩ "( 01") (parse ⟨false, 256⟩ "(1") ∧
      Agree (SameFailure "( 01" "(1") Eq (evaluate ⟨false, 256⟩ "( 01") (evaluate ⟨false, 256⟩ "(1") := by
  have spaced : Cursor.Reads (.ofText "( 01") [.symbol .opening "(" 0, .integer (Decimal.nearest 1) 2] ⟨[], 4⟩ :=
    .cons rfl nofun (.cons rfl nofun .nil)
  have tight : Cursor.Reads (.ofText "(1") [.symbol .opening "(" 0, .integer (Decimal.nearest 1) 1] ⟨[], 2⟩ :=
    .cons rfl nofun (.cons rfl nofun .nil)
  have last (pos : Nat) : Cursor.next ⟨[], pos⟩ = .ok (.finish pos, ⟨[], pos⟩) := rfl
  have same : SameAhead (.ofText "( 01") (.ofText "(1") := by
    constructor
    · rw [spaced.stream, tight.stream, (Cursor.Exhausted.of_finish (last 4) rfl).stream,
        (Cursor.Exhausted.of_finish (last 2) rfl).stream]
      rfl
    · rw [spaced.drain, tight.drain, Cursor.drain_of_finish (last 4) rfl, Cursor.drain_of_finish (last 2) rfl]
      exact ⟨nofun, nofun⟩
  exact ⟨same, outcomes_of_same_tokens ⟨false, 256⟩ same⟩

end Reckon
