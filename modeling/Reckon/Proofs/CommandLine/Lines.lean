import Reckon.CommandLine.Plan
import Reckon.Proofs.Expression.Parsing

namespace Reckon

namespace CommandLine

def printed (entries : List Entry) : String :=
  (Outcome.mk entries 0).stdout

theorem printed_append (front back : List Entry) : printed (front ++ back) = printed front ++ printed back := by
  simp only [printed, Outcome.stdout, List.map_append, String.join_append]

theorem printed_out (line : String) : printed [.out line] = line ++ "\n" := by
  simp [printed, Outcome.stdout]

theorem printed_err (line : String) : printed [.err line] = "" := by
  simp [printed, Outcome.stdout]

def answerLine (text : String) (value : Float) : String :=
  s!"{text} = {Decimal.text value}\n"

def written (o : Options) (text : String) : List Entry :=
  (afterNotes (evaluate o.policy text) (notes o text)).1

/-- What the work on an expression comes to: its value, unless the notes fail. -/
def result (o : Options) (text : String) : Except Failure Float :=
  (afterNotes (evaluate o.policy text) (notes o text)).2

variable {o : Options} {text : String} {texts : List String} {value : Float}

theorem afterNotes_cases (result : Except Failure Float) {notes : List (Except Failure Entry)}
    (quiet : ∀ entry, .ok entry ∈ notes → ∃ line, entry = .err line) :
    ∃ entries, printed entries = "" ∧
      ((afterNotes result notes = (entries, result) ∧ ∀ e, .error e ∉ notes) ∨
        ∃ e, afterNotes result notes = (entries, .error e) ∧ .error e ∈ notes) := by
  induction notes with
  | nil => exact ⟨[], rfl, .inl ⟨rfl, by simp⟩⟩
  | cons note notes ih =>
    cases note with
    | error e => exact ⟨[], rfl, .inr ⟨e, rfl, by simp⟩⟩
    | ok entry =>
      obtain ⟨line, rfl⟩ := quiet entry (by simp)
      obtain ⟨entries, silent, cases⟩ := ih fun entry member => quiet entry (List.mem_cons_of_mem _ member)
      refine ⟨.err line :: entries, ?_, ?_⟩
      · rw [← List.singleton_append, printed_append, printed_err, silent]
        rfl
      · rcases cases with ⟨all, none⟩ | ⟨e, some, member⟩
        · exact .inl ⟨by simp only [afterNotes, all], by simpa using none⟩
        · exact .inr ⟨e, by simp only [afterNotes, some], List.mem_cons_of_mem _ member⟩

theorem tokensNote_cases (text : String) :
    (∃ ts line, tokens text = .ok ts ∧ tokensNote text = .ok (.err line)) ∨
      ∃ cause, tokens text = .error cause ∧ tokensNote text = .error (.unreadable cause) := by
  unfold tokensNote
  cases tokens text with
  | ok ts => exact .inl ⟨ts, _, rfl, rfl⟩
  | error cause => exact .inr ⟨cause, rfl, rfl⟩

theorem treeNote_cases (policy : Policy) (text : String) :
    (∃ e line, parse policy text = .ok e ∧ treeNote policy text = .ok (.err line)) ∨
      ∃ failure, parse policy text = .error failure ∧ treeNote policy text = .error failure := by
  unfold treeNote
  cases parse policy text with
  | ok e => exact .inl ⟨e, _, rfl, rfl⟩
  | error failure => exact .inr ⟨failure, rfl, rfl⟩

theorem mem_notes_iff {note : Except Failure Entry} :
    note ∈ notes o text ↔
      o.verbosity ≠ 0 ∧ note = tokensNote text ∨ 2 ≤ o.verbosity ∧ note = treeNote o.policy text := by
  unfold notes
  rw [List.mem_append, List.mem_ite_nil_right, List.mem_ite_nil_right]
  simp [Nat.one_le_iff_ne_zero]

theorem notes_quiet (o : Options) (text : String) (entry : Entry) (member : .ok entry ∈ notes o text) :
    ∃ line, entry = .err line := by
  rcases mem_notes_iff.mp member with ⟨-, same⟩ | ⟨-, same⟩
  · rcases tokensNote_cases text with ⟨ts, line, -, note⟩ | ⟨cause, -, note⟩
    · cases same.trans note
      exact ⟨line, rfl⟩
    · cases same.trans note
  · rcases treeNote_cases o.policy text with ⟨e, line, -, note⟩ | ⟨failure, -, note⟩
    · cases same.trans note
      exact ⟨line, rfl⟩
    · cases same.trans note

/-- An expression succeeds with its value if the notes on it do not fail. Of these only the list of its
tokens can fail where there is a value. -/
structure Succeeds (o : Options) (text : String) (value : Float) : Prop where
  evaluated : evaluate o.policy text = .ok value
  tokenized : o.verbosity ≠ 0 → ∃ ts, tokens text = .ok ts

theorem Succeeds.no_error (succeeds : Succeeds o text value) (e : Failure) : .error e ∉ notes o text := by
  intro member
  rcases mem_notes_iff.mp member with ⟨noted, same⟩ | ⟨-, same⟩
  · obtain ⟨ts, tokenized⟩ := succeeds.tokenized noted
    rcases tokensNote_cases text with ⟨us, line, -, note⟩ | ⟨cause, torn, -⟩
    · cases same.trans note
    · cases tokenized.symm.trans torn
  · obtain ⟨e, parsed⟩ := exists_parse_of_evaluate succeeds.evaluated
    rcases treeNote_cases o.policy text with ⟨f, line, -, note⟩ | ⟨failure, failed, -⟩
    · cases same.trans note
    · cases parsed.symm.trans failed

theorem printed_written (o : Options) (text : String) : printed (written o text) = "" := by
  unfold written
  obtain ⟨entries, silent, ⟨all, -⟩ | ⟨e, some, -⟩⟩ :=
    afterNotes_cases (evaluate o.policy text) (notes_quiet o text)
  · rw [all, silent]
  · rw [some, silent]

theorem result_eq_ok_iff : result o text = .ok value ↔ Succeeds o text value := by
  unfold result
  obtain ⟨entries, -, ⟨all, none⟩ | ⟨e, some, member⟩⟩ :=
    afterNotes_cases (evaluate o.policy text) (notes_quiet o text)
  · rw [all]
    constructor
    · intro evaluated
      refine ⟨evaluated, ?_⟩
      intro noted
      rcases tokensNote_cases text with ⟨ts, -, tokenized, -⟩ | ⟨cause, -, note⟩
      · exact ⟨ts, tokenized⟩
      · exact absurd (mem_notes_iff.mpr (.inl ⟨noted, note.symm⟩)) (none _)
    · exact Succeeds.evaluated
  · rw [some]
    constructor
    · intro impossible
      cases impossible
    · intro succeeds
      exact absurd member (succeeds.no_error e)

theorem single_eq (o : Options) (text : String) :
    single o text = (match result o text with
      | .ok value => (written o text ++ [.out s!"{text} = {Decimal.text value}"], false)
      | .error e => (written o text ++ [.err s!"{text}: {e.message}"], true)) := by
  unfold single written result
  rcases afterNotes (evaluate o.policy text) (notes o text) with ⟨entries, _ | _⟩ <;> rfl

theorem single_of_ok (valued : result o text = .ok value) :
    single o text = (written o text ++ [.out s!"{text} = {Decimal.text value}"], false) := by
  rw [single_eq, valued]

theorem single_of_error {e : Failure} (failed : result o text = .error e) :
    single o text = (written o text ++ [.err s!"{text}: {e.message}"], true) := by
  rw [single_eq, failed]

theorem single_of_succeeds (succeeds : Succeeds o text value) :
    printed (single o text).1 = answerLine text value ∧ (single o text).2 = false := by
  rw [single_of_ok (result_eq_ok_iff.mpr succeeds), printed_append, printed_written, printed_out]
  exact ⟨rfl, rfl⟩

theorem single_of_fails (fails : ∀ value, ¬ Succeeds o text value) :
    printed (single o text).1 = "" ∧ (single o text).2 = true := by
  cases worked : result o text with
  | ok value => exact absurd (result_eq_ok_iff.mp worked) (fails value)
  | error e =>
    rw [single_of_error worked, printed_append, printed_written, printed_err]
    exact ⟨rfl, rfl⟩

theorem batch_of_succeeds (succeeds : Succeeds o text value) (texts : List String) :
    printed (batch o (text :: texts)).1 = answerLine text value ++ printed (batch o texts).1 ∧
      (batch o (text :: texts)).2 = (batch o texts).2 := by
  obtain ⟨line, passed⟩ := single_of_succeeds succeeds
  simp [batch, passed, printed_append, line]

theorem batch_of_fails (fails : ∀ value, ¬ Succeeds o text value) (texts : List String) :
    printed (batch o (text :: texts)).1 = (if o.keepGoing then printed (batch o texts).1 else "") ∧
      (batch o (text :: texts)).2 = true := by
  obtain ⟨silent, failed⟩ := single_of_fails fails
  cases going : o.keepGoing with
  | true => simp [batch, failed, going, printed_append, silent]
  | false => simp [batch, failed, going, silent]

end CommandLine

end Reckon
