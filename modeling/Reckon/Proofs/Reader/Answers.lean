import Reckon.Proofs.Reader.Outcomes
import Reckon.Proofs.Reader.Recognition

namespace Reckon

namespace Reply.Reports

variable {limit room n : Nat} {phrase : Level} {r rest : Reader} {reply : Reply n}

theorem found {e : Expr} (reports : reply.Reports limit phrase room r) (outcome : reply.outcome = (.ok e, rest)) :
    ∃ ts, r.Takes ts rest ∧ Derives phrase room ts e ∧ phrase.continues rest.current.kind = false := by
  cases reply with
  | tree e' rest' shorter =>
    cases outcome
    exact reports
  | failed err rest' => cases outcome

theorem halted {err : SyntaxError} (reports : reply.Reports limit phrase room r)
    (outcome : reply.outcome = (.error err, rest)) :
    ∃ ts last, r.Takes ts last ∧ Halts limit phrase room ts last.current last.cursor err ∧
      rest = last.leftBy (.error err) := by
  cases reply with
  | tree e rest' shorter => cases outcome
  | failed err' rest' =>
    cases outcome
    exact reports

end Reply.Reports

/-- What reading answers behind the tokens `ts`, where `t` is in view and `c` is the place behind it. -/
inductive Answers (policy : Policy) (ts : List Token) (t : Token) (c : Cursor) : Except SyntaxError Expr → Prop where
  | found {e} (derived : Derives .sum policy.maxDepth ts e) (stops : Level.sum.continues t.kind = false)
      (accepted : policy.allowTrailing = true ∨ t.kind = .finish) : Answers policy ts t c (.ok e)
  | leftOver {e} (derived : Derives .sum policy.maxDepth ts e) (stops : Level.sum.continues t.kind = false)
      (refused : ¬ (policy.allowTrailing = true ∨ t.kind = .finish)) :
      Answers policy ts t c (.error (.unexpected .finish t))
  | halted {err} (halts : Halts policy.maxDepth .sum policy.maxDepth ts t c err) : Answers policy ts t c (.error err)

namespace Answers

variable {policy : Policy} {ts : List Token} {t : Token} {c d : Cursor} {outcome : Except SyntaxError Expr}

theorem of_next_eq (answers : Answers policy ts t c outcome) (same : c.next = d.next) :
    Answers policy ts t d outcome := by
  cases answers with
  | found derived stops accepted => exact .found derived stops accepted
  | leftOver derived stops refused => exact .leftOver derived stops refused
  | halted halts => exact .halted (halts.of_next_eq same)

theorem torn {cause : Unreadable} (answers : Answers policy ts t c (.error (.unreadable cause))) :
    (∃ place, c.next = .error (cause, place)) ∧ ∃ w, Begins .sum policy.maxDepth (ts ++ [t]) w := by
  cases answers with
  | halted halts =>
    cases halts with
    | unreadable begun torn => exact ⟨⟨_, torn⟩, _, begun⟩

end Answers

namespace Reader

variable {policy : Policy} {c : Cursor} {r rest : Reader} {ts : List Token} {e : Expr}

theorem expect_finish (views : r.Views c) (kind : r.current.kind = .finish) : r.expect .finish = .ok r :=
  expect_eq_ok_iff.mpr ⟨kind, advance_eq_ok_iff.mpr ⟨views.again_of_finish kind, rfl⟩⟩

theorem read_of_found (found : (r.sum policy.maxDepth).outcome = (.ok e, rest)) (views : rest.Views c) :
    r.read policy =
      (if policy.allowTrailing = true ∨ rest.current.kind = .finish then .ok e
        else .error (.unexpected .finish rest.current), rest) := by
  unfold Reader.read
  cases reply : r.sum policy.maxDepth with
  | failed err rest' =>
    rw [reply] at found
    cases found
  | tree e' rest' shorter =>
    rw [reply] at found
    cases found
    by_cases trailing : policy.allowTrailing = true
    · simp [trailing]
    · by_cases kind : rest.current.kind = .finish
      · simp [trailing, kind, expect_finish views kind]
      · simp [trailing, kind, expect]

theorem read_of_halted {err : SyntaxError} (halted : (r.sum policy.maxDepth).outcome = (.error err, rest)) :
    r.read policy = (.error err, rest) := by
  unfold read
  cases reply : r.sum policy.maxDepth with
  | tree e rest' shorter =>
    rw [reply] at halted
    cases halted
  | failed err' rest' =>
    rw [reply] at halted
    cases halted
    rfl

/-- One reading from the place `c` on takes the tokens `ts`. They lead to the place `stop`, where `last` has a token in
view, and what is answered there is what is behind this token, at the place `behind`. -/
structure ReadsTo (policy : Policy) (c : Cursor) (r : Reader) (ts : List Token) (stop : Cursor) (last : Reader)
    (behind : Cursor) : Prop where
  takes : r.Takes ts last
  reads : c.Reads ts stop
  final : stop.next = .ok (last.current, behind)
  ahead : last.cursor.next = behind.next
  answers : Answers policy ts last.current behind (r.read policy).1
  left : (r.read policy).2 = last.leftBy (r.read policy).1
  views : (r.read policy).2.Views stop

namespace ReadsTo

variable {stop behind : Cursor} {last : Reader} {cause : Unreadable}

theorem depth_eq (reading : ReadsTo policy c r ts stop last behind) : (r.read policy).2.depth = r.depth := by
  rw [reading.left, leftBy_depth, reading.takes.depth_eq]

theorem found (reading : ReadsTo policy c r ts stop last behind) (found : (r.read policy).1 = .ok e) :
    Derives .sum policy.maxDepth ts e ∧ (policy.allowTrailing = true ∨ last.current.kind = .finish) ∧
      (r.read policy).2 = last := by
  have answers := reading.answers
  have left := reading.left
  rw [found] at answers left
  cases answers with
  | found derived _ accepted => exact ⟨derived, accepted, left⟩

/-- The reader that has met an unreadable character has moved to its place, and the token in view belongs to the
expression that breaks off. -/
theorem torn (reading : ReadsTo policy c r ts stop last behind)
    (torn : (r.read policy).1 = .error (.unreadable cause)) :
    ∃ place, behind.next = .error (cause, place) ∧ (r.read policy).2 = { last with cursor := place } ∧
      ∃ w, Begins .sum policy.maxDepth (ts ++ [last.current]) w := by
  have answers := reading.answers
  have left := reading.left
  rw [torn] at answers left
  obtain ⟨⟨place, next⟩, begun⟩ := answers.torn
  rw [leftBy_of_torn (reading.ahead.trans next)] at left
  exact ⟨place, next, left, begun⟩

end ReadsTo

theorem read_answers (policy : Policy) (views : r.Views c) (outermost : r.depth = 0) :
    ∃ ts stop last behind, ReadsTo policy c r ts stop last behind := by
  obtain ⟨_, first, -⟩ := views.exists_next
  have reports := sum_reported policy.maxDepth r (Cursor.next_valued first)
  rw [outermost, Nat.sub_zero] at reports
  rcases outcome : (r.sum policy.maxDepth).outcome with ⟨err | e, rest⟩
  · obtain ⟨ts, last, takes, halts, left⟩ := reports.halted outcome
    obtain ⟨stop, reads, final⟩ := reads_of_takes takes views
    obtain ⟨behind, read, same⟩ := final.exists_next
    have answer := read_of_halted outcome
    refine ⟨ts, stop, last, behind, takes, reads, read, same, ?_, ?_, ?_⟩
    · rw [answer]
      exact .halted (halts.of_next_eq same)
    · rw [answer]
      exact left
    · rw [answer, left]
      exact halts.views final
  · obtain ⟨ts, takes, derived, stops⟩ := reports.found outcome
    obtain ⟨stop, reads, final⟩ := reads_of_takes takes views
    obtain ⟨behind, read, same⟩ := final.exists_next
    have answer := read_of_found outcome final
    refine ⟨ts, stop, rest, behind, takes, reads, read, same, ?_, ?_, ?_⟩
    · rw [answer]
      split
      · exact .found derived stops ‹_›
      · exact .leftOver derived stops ‹_›
    · rw [answer]
      split <;> rfl
    · rw [answer]
      exact final

theorem read_of_derives (derived : Derives .sum policy.maxDepth ts e) (takes : r.Takes ts rest)
    (stops : Level.sum.continues rest.current.kind = false) (views : r.Views c) (outermost : r.depth = 0) :
    r.read policy =
      (if policy.allowTrailing = true ∨ rest.current.kind = .finish then .ok e
        else .error (.unexpected .finish rest.current), rest) := by
  have fits : r.depth + policy.maxDepth ≤ policy.maxDepth := by omega
  obtain ⟨stop, -, final⟩ := reads_of_takes takes views
  exact read_of_found ((derived.finds policy.maxDepth).whole_sum takes fits stops) final

end Reader

end Reckon
