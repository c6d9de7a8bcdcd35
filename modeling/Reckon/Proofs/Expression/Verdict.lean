import Reckon.Proofs.Expression.Parsing
import Reckon.Proofs.Grammar.Levels

namespace Reckon

namespace Scan

variable {limit : Nat} {c stop stop' : Cursor} {ts us : List Token} {s s' : Scan}

/-- The scan of the text from a place on gets through the tokens `ts`, which lead to the place `stop`, and
does not get through what stands there. -/
structure Ends (limit : Nat) (c : Cursor) (ts : List Token) (stop : Cursor) (s : Scan) : Prop where
  reads : c.Reads ts stop
  ran : (due 0 []).run limit ts = some s
  stuck : ∀ t behind, stop.next = .ok (t, behind) → s.step limit t.kind = none

theorem Ends.of_not_step {t : Token} {behind : Cursor} (reads : c.Reads ts stop)
    (ran : (due 0 []).run limit ts = some s) (final : stop.next = .ok (t, behind))
    (stuck : ∀ next, ¬ Step limit s t.kind next) : Ends limit c ts stop s := by
  refine ⟨reads, ran, ?_⟩
  intro t' behind' read
  cases Except.ok.inj (final.symm.trans read)
  cases stepped : s.step limit t.kind with
  | none => rfl
  | some next => exact absurd (step_cases stepped) (stuck next)

theorem Ends.of_error {cause : Unreadable} {place : Cursor} (reads : c.Reads ts stop)
    (ran : (due 0 []).run limit ts = some s) (torn : stop.next = .error (cause, place)) : Ends limit c ts stop s := by
  refine ⟨reads, ran, ?_⟩
  intro t behind read
  cases torn.symm.trans read

theorem Ends.reaches (ends : Ends limit c ts stop s) (reads : c.Reads us stop')
    (ran : (due 0 []).run limit us = some s') : ∃ more, ts = us ++ more ∧ stop'.Reads more stop := by
  rcases reads.comparable ends.reads with ⟨more, rfl, between⟩ | ⟨more, rfl, between⟩
  · exact ⟨more, rfl, between⟩
  · cases between with
    | nil => exact ⟨[], by simp, .nil⟩
    | cons read _ _ =>
      obtain ⟨next, stepped⟩ := step_of_run ends.ran ran
      cases (ends.stuck _ _ read).symm.trans stepped.eq_some

theorem Ends.unique (ends : Ends limit c ts stop s) (ends' : Ends limit c us stop' s') :
    us = ts ∧ stop' = stop ∧ s' = s := by
  obtain ⟨more, rfl, between⟩ := ends.reaches ends'.reads ends'.ran
  obtain ⟨back, same, -⟩ := ends'.reaches ends.reads ends.ran
  have none : more = [] ∧ back = [] := by simpa using same
  cases none.1
  cases between
  rw [List.append_nil] at ends ⊢
  exact ⟨rfl, rfl, Option.some.inj (ends'.ran.symm.trans ends.ran)⟩

/-- What is wrong where a scan comes to its end. Nothing is if an expression is complete and may stop
there. -/
def fault (policy : Policy) : Scan → Except (Unreadable × Cursor) (Token × Cursor) → Option SyntaxError
  | _, .error (cause, _) => some (.unreadable cause)
  | due level _, .ok (t, _) =>
    some (if policy.maxDepth ≤ level then .tooDeep policy.maxDepth t.pos else .unexpected .integer t)
  | done _ (_ :: _), .ok (t, _) => some (.unexpected .closing t)
  | done _ [], .ok (t, _) =>
    if policy.allowTrailing = true ∨ t.kind = .finish then none else some (.unexpected .finish t)

theorem fault_of_awaited {policy : Policy} {w : Missing} {t : Token} {behind : Cursor}
    (awaited : w.AwaitedBy policy.maxDepth [] s) (missing : w ≠ .nothing) (refused : w.Refuses t.kind) :
    s.fault policy (.ok (t, behind)) = some (.unexpected w.kind t) := by
  cases w with
  | operand room =>
    obtain ⟨level, brackets, rfl, place⟩ := awaited
    cases room with
    | zero => exact absurd refused id
    | succ room =>
      have fits : ¬ policy.maxDepth ≤ level := by omega
      simp only [fault, if_neg fits, Missing.kind]
  | closing =>
    obtain ⟨level, opened, outer, rfl⟩ := awaited
    rfl
  | nothing => exact absurd rfl missing

theorem fault_cases {policy : Policy} {ahead : Except (Unreadable × Cursor) (Token × Cursor)} {err : SyntaxError}
    (fault : s.fault policy ahead = some err) :
    (∃ cause place, ahead = .error (cause, place) ∧ err = .unreadable cause) ∨
    ∃ t behind, ahead = .ok (t, behind) ∧
      ((∃ kind, err = .unexpected kind t) ∨
        err = .tooDeep policy.maxDepth t.pos ∧
          ∃ level brackets, s = due level brackets ∧ policy.maxDepth ≤ level) := by
  cases ahead with
  | error met =>
    cases fault
    exact .inl ⟨met.1, met.2, rfl, rfl⟩
  | ok read =>
    refine .inr ⟨read.1, read.2, rfl, ?_⟩
    cases s with
    | due level brackets =>
      simp only [Scan.fault] at fault
      split at fault
      · rename_i full
        cases fault
        exact .inr ⟨rfl, level, brackets, rfl, full⟩
      · cases fault
        exact .inl ⟨.integer, rfl⟩
    | done level brackets =>
      cases brackets with
      | nil =>
        simp only [Scan.fault] at fault
        split at fault
        · cases fault
        · cases fault
          exact .inl ⟨.finish, rfl⟩
      | cons _ _ =>
        cases fault
        exact .inl ⟨.closing, rfl⟩

end Scan

variable {policy : Policy} {text : String} {c stop : Cursor} {ts : List Token} {s : Scan}

theorem Halts.exists_ends {t : Token} {behind : Cursor} {err : SyntaxError}
    (halts : Halts policy.maxDepth .sum policy.maxDepth ts t behind err)
    (reads : c.Reads ts stop) (final : stop.next = .ok (t, behind)) :
    ∃ us place s, Scan.Ends policy.maxDepth c us place s ∧ s.fault policy place.next = some err := by
  cases halts with
  | @unexpected w begun missing refused =>
    obtain ⟨s, ran, awaited⟩ := begun.scan (.outermost _) (Nat.le_refl _)
    refine ⟨ts, stop, s, .of_not_step reads ran final ?_, ?_⟩
    · intro next stepped
      exact awaited.not_refuses stepped refused
    · rw [final]
      exact Scan.fault_of_awaited awaited missing refused
  | tooDeep begun =>
    obtain ⟨s, ran, level, brackets, rfl, place⟩ := begun.scan (.outermost _) (Nat.le_refl _)
    refine ⟨ts, stop, _, .of_not_step reads ran final ?_, ?_⟩
    · intro next stepped
      have fits := stepped.due_lt rfl
      omega
    · have full : policy.maxDepth ≤ level := by omega
      rw [final]
      simp only [Scan.fault, if_pos full]
  | @unreadable w cause beyond begun torn =>
    obtain ⟨s, ran, -⟩ := begun.scan (.outermost _) (Nat.le_refl _)
    have whole := reads.append (.cons final (Cursor.more_of_torn final torn) .nil)
    refine ⟨ts ++ [t], behind, s, .of_error whole ran torn, ?_⟩
    rw [torn]
    rfl

theorem Derives.ends {t : Token} {behind : Cursor} {e : Expr} (derived : Derives .sum policy.maxDepth ts e)
    (reads : c.Reads ts stop) (final : stop.next = .ok (t, behind))
    (stops : Level.sum.continues t.kind = false) :
    ∃ level, Scan.Ends policy.maxDepth c ts stop (.done level []) := by
  obtain ⟨level, ran, -⟩ := derived.scan (.outermost _) (Nat.le_refl _)
  refine ⟨level, .of_not_step reads ran final ?_⟩
  intro next stepped
  rcases stepped.behind with operator | ⟨-, none⟩
  · exact absurd operator (Bool.eq_false_iff.mp stops)
  · exact none rfl

theorem Answers.exists_ends {t : Token} {behind : Cursor} {outcome : Except SyntaxError Expr}
    (answers : Answers policy ts t behind outcome) (reads : c.Reads ts stop)
    (final : stop.next = .ok (t, behind)) :
    ∃ us place s, Scan.Ends policy.maxDepth c us place s ∧
      match s.fault policy place.next with
      | some err => outcome = .error err
      | none => ∃ e, outcome = .ok e := by
  cases answers with
  | found derived stops accepted =>
    obtain ⟨level, ends⟩ := derived.ends reads final stops
    refine ⟨ts, stop, _, ends, ?_⟩
    simp only [final, Scan.fault, if_pos accepted]
    exact ⟨_, rfl⟩
  | leftOver derived stops refused =>
    obtain ⟨level, ends⟩ := derived.ends reads final stops
    refine ⟨ts, stop, _, ends, ?_⟩
    simp only [final, Scan.fault, if_neg refused]
  | halted halts =>
    obtain ⟨us, place, s, ends, fault⟩ := halts.exists_ends reads final
    refine ⟨us, place, s, ends, ?_⟩
    rw [fault]

theorem Scan.Ends.read_of_fault {r : Reader} {err : SyntaxError} (ends : Scan.Ends policy.maxDepth c ts stop s)
    (fault : s.fault policy stop.next = some err) (views : r.Views c) (outermost : r.depth = 0) :
    (r.read policy).1 = .error err := by
  obtain ⟨us, place, last, behind, reading⟩ := Reader.read_answers policy views outermost
  obtain ⟨us', place', s', ends', verdict⟩ := reading.answers.exists_ends reading.reads reading.final
  obtain ⟨rfl, rfl, rfl⟩ := ends.unique ends'
  rw [fault] at verdict
  exact verdict

/-- Parsing answers as the place demands where the scan comes to its end. -/
theorem exists_verdict (policy : Policy) (text : String) :
    ∃ ts stop s, Scan.Ends policy.maxDepth (.ofText text) ts stop s ∧
      match s.fault policy stop.next with
      | some err => parse policy text = .error (.unparsable err)
      | none => ∃ e, parse policy text = .ok e := by
  rcases parse_cases policy text with
    ⟨cause, place, failed, torn⟩ | ⟨ts, stop, t, behind, outcome, reads, final, answers, same⟩
  · refine ⟨[], .ofText text, _, .of_error .nil rfl torn, ?_⟩
    rw [torn]
    exact failed
  · obtain ⟨us, place, s, ends, verdict⟩ := answers.exists_ends reads final
    refine ⟨us, place, s, ends, ?_⟩
    rw [same]
    cases fault : s.fault policy place.next with
    | some err =>
      rw [fault] at verdict
      rw [verdict]
      rfl
    | none =>
      rw [fault] at verdict
      obtain ⟨e, rfl⟩ := verdict
      exact ⟨e, rfl⟩

theorem exists_ends_of_failed {failure : Failure} (failed : parse policy text = .error failure) :
    ∃ err ts stop s, failure = .unparsable err ∧ Scan.Ends policy.maxDepth (.ofText text) ts stop s ∧
      s.fault policy stop.next = some err := by
  obtain ⟨ts, stop, s, ends, verdict⟩ := exists_verdict policy text
  cases fault : s.fault policy stop.next with
  | some err =>
    rw [fault, failed] at verdict
    exact ⟨err, ts, stop, s, Except.error.inj verdict, ends, fault⟩
  | none =>
    rw [fault, failed] at verdict
    obtain ⟨e, same⟩ := verdict
    cases same

theorem Scan.Ends.parse_of_fault {err : SyntaxError} (ends : Ends policy.maxDepth (.ofText text) ts stop s)
    (fault : s.fault policy stop.next = some err) : parse policy text = .error (.unparsable err) := by
  obtain ⟨us, stop', s', ends', verdict⟩ := exists_verdict policy text
  obtain ⟨rfl, rfl, rfl⟩ := ends.unique ends'
  rw [fault] at verdict
  exact verdict

theorem parse_eq_unparsable_iff {err : SyntaxError} :
    parse policy text = .error (.unparsable err) ↔
      ∃ ts stop s, Scan.Ends policy.maxDepth (.ofText text) ts stop s ∧ s.fault policy stop.next = some err := by
  constructor
  · intro failed
    obtain ⟨err', ts, stop, s, same, ends, fault⟩ := exists_ends_of_failed failed
    cases same
    exact ⟨ts, stop, s, ends, fault⟩
  · rintro ⟨ts, stop, s, ends, fault⟩
    exact ends.parse_of_fault fault

end Reckon
