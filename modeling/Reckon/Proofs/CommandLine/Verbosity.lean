import Reckon.Proofs.CommandLine.Lines
import Reckon.Proofs.Expression.Acceptance

namespace Reckon.CommandLine

def Listable (policy : Policy) (text : String) : Prop :=
  ∀ value, evaluate policy text = .ok value → ∃ ts, tokens text = .ok ts

/-- The expressions to which a run without notes comes, up to its first failure unless it keeps going. -/
def reached (o : Options) (texts : List String) : List String :=
  if o.keepGoing then texts else texts.takeWhile fun text => (evaluate o.policy text).toBool

theorem listable_of_strict {policy : Policy} (strict : policy.allowTrailing = false) (text : String) :
    Listable policy text := by
  intro value evaluated
  obtain ⟨e, parsed⟩ := exists_parse_of_evaluate evaluated
  obtain ⟨trailing, limit⟩ := policy
  cases strict
  obtain ⟨ts, tokenized, -⟩ := derives_of_parse_strict parsed
  exact ⟨ts, tokenized⟩

def Options.noting (o : Options) (v : Nat) : Options :=
  { o with verbosity := v }

variable {o : Options} {text other : String} {texts : List String} {value : Float} {v w : Nat}

theorem Options.noting_keepGoing (o : Options) (v : Nat) : (o.noting v).keepGoing = o.keepGoing :=
  rfl

theorem succeeds_noting_iff :
    Succeeds (o.noting v) text value ↔
      evaluate o.policy text = .ok value ∧ (v ≠ 0 → ∃ ts, tokens text = .ok ts) :=
  ⟨fun succeeds => ⟨succeeds.evaluated, succeeds.tokenized⟩, fun both => ⟨both.1, both.2⟩⟩

theorem mem_reached_cons_iff :
    other ∈ reached o (text :: texts) ↔
      (o.keepGoing = true ∨ ∃ value, evaluate o.policy text = .ok value) ∧
        (other = text ∨ other ∈ reached o texts) := by
  unfold reached
  split
  · rename_i going
    simp [going]
  · rename_i stops
    cases evaluated : evaluate o.policy text with
    | ok value => simp [evaluated, Except.toBool]
    | error e => simp [evaluated, Except.toBool, stops]

theorem batch_agrees
    (same : ∀ text ∈ reached o texts, ∀ value,
      Succeeds (o.noting v) text value ↔ Succeeds (o.noting w) text value) :
    printed (batch (o.noting v) texts).1 = printed (batch (o.noting w) texts).1 ∧
      (batch (o.noting v) texts).2 = (batch (o.noting w) texts).2 := by
  induction texts with
  | nil => exact ⟨rfl, rfl⟩
  | cons text texts ih =>
    by_cases succeeds : ∃ value, Succeeds (o.noting v) text value
    · obtain ⟨value, succeeds⟩ := succeeds
      have passes : o.keepGoing = true ∨ ∃ value, evaluate o.policy text = .ok value :=
        .inr ⟨value, succeeds.evaluated⟩
      have alike := (same text (mem_reached_cons_iff.mpr ⟨passes, .inl rfl⟩) value).mp succeeds
      have further := ih fun other member => same other (mem_reached_cons_iff.mpr ⟨passes, .inr member⟩)
      obtain ⟨line, passed⟩ := batch_of_succeeds succeeds texts
      obtain ⟨line', passed'⟩ := batch_of_succeeds alike texts
      rw [line, line', passed, passed', further.1, further.2]
      exact ⟨rfl, rfl⟩
    · have fails : ∀ value, ¬ Succeeds (o.noting v) text value := not_exists.mp succeeds
      have fails' : ∀ value, ¬ Succeeds (o.noting w) text value := by
        intro value alike
        have here : text ∈ reached o (text :: texts) :=
          mem_reached_cons_iff.mpr ⟨.inr ⟨value, alike.evaluated⟩, .inl rfl⟩
        exact fails value ((same text here value).mpr alike)
      obtain ⟨rest, failed⟩ := batch_of_fails fails texts
      obtain ⟨rest', failed'⟩ := batch_of_fails fails' texts
      rw [rest, rest', failed, failed', Options.noting_keepGoing, Options.noting_keepGoing]
      refine ⟨?_, rfl⟩
      split
      · rename_i going
        have further := ih fun other member => same other (mem_reached_cons_iff.mpr ⟨.inl going, .inr member⟩)
        exact further.1
      · rfl

theorem answerLine_length_pos (text : String) (value : Float) : 0 < (answerLine text value).length := by
  have ending : (toString "\n").length = 1 := by decide
  simp only [answerLine, String.length_append]
  omega

theorem exists_unlisted_tail (unlisted : ∃ other ∈ reached o (text :: texts), ¬ Listable o.policy other)
    (listable : Listable o.policy text) :
    (o.keepGoing = true ∨ ∃ value, evaluate o.policy text = .ok value) ∧
      ∃ other ∈ reached o texts, ¬ Listable o.policy other := by
  obtain ⟨other, member, unlisted⟩ := unlisted
  obtain ⟨passes, rfl | tail⟩ := mem_reached_cons_iff.mp member
  · exact absurd listable unlisted
  · exact ⟨passes, other, tail, unlisted⟩

theorem printed_le_and_lt (noted : v ≠ 0) (texts : List String) :
    (printed (batch (o.noting v) texts).1).length ≤ (printed (batch (o.noting 0) texts).1).length ∧
      ((∃ text ∈ reached o texts, ¬ Listable o.policy text) →
        (printed (batch (o.noting v) texts).1).length < (printed (batch (o.noting 0) texts).1).length) := by
  induction texts with
  | nil => simp [reached, batch]
  | cons text texts ih =>
    obtain ⟨le, lt⟩ := ih
    cases evaluated : evaluate o.policy text with
    | error e =>
      have fails : ∀ u value, ¬ Succeeds (o.noting u) text value := by
        intro u value succeeds
        cases evaluated.symm.trans succeeds.evaluated
      have listable : Listable o.policy text := by
        intro value valued
        cases evaluated.symm.trans valued
      rw [(batch_of_fails (fails v) texts).1, (batch_of_fails (fails 0) texts).1]
      rw [Options.noting_keepGoing, Options.noting_keepGoing]
      split
      · exact ⟨le, fun unlisted => lt (exists_unlisted_tail unlisted listable).2⟩
      · rename_i stops
        refine ⟨Nat.le_refl _, ?_⟩
        intro unlisted
        obtain ⟨going | ⟨value, valued⟩, -⟩ := exists_unlisted_tail unlisted listable
        · exact absurd going stops
        · cases evaluated.symm.trans valued
    | ok value =>
      have quiet : Succeeds (o.noting 0) text value := ⟨evaluated, fun noted => absurd rfl noted⟩
      rw [(batch_of_succeeds quiet texts).1, String.length_append]
      by_cases tokenized : ∃ ts, tokens text = .ok ts
      · have succeeds : Succeeds (o.noting v) text value := ⟨evaluated, fun _ => tokenized⟩
        rw [(batch_of_succeeds succeeds texts).1, String.length_append]
        refine ⟨Nat.add_le_add_left le _, ?_⟩
        intro unlisted
        exact Nat.add_lt_add_left (lt (exists_unlisted_tail unlisted fun _ _ => tokenized).2) _
      · -- Here the run with notes loses a line, and the rest of the output if it stops.
        have fails : ∀ value, ¬ Succeeds (o.noting v) text value := by
          intro value succeeds
          exact tokenized (succeeds.tokenized noted)
        rw [(batch_of_fails fails texts).1, Options.noting_keepGoing]
        have shorter : (if o.keepGoing then printed (batch (o.noting v) texts).1 else "").length ≤
            (printed (batch (o.noting 0) texts).1).length := by
          split
          · exact le
          · exact Nat.zero_le _
        have line := answerLine_length_pos text value
        exact ⟨by omega, fun _ => by omega⟩

theorem batchOutcome_stdout (o : Options) (texts : List String) :
    (batchOutcome o texts).stdout = printed (batch o texts).1 :=
  rfl

theorem batchOutcome_code (o : Options) (texts : List String) :
    (batchOutcome o texts).code = if (batch o texts).2 then 1 else 0 :=
  rfl

def SameOutcome (o o' : Options) (texts : List String) : Prop :=
  (batchOutcome o texts).stdout = (batchOutcome o' texts).stdout ∧
    (batchOutcome o texts).code = (batchOutcome o' texts).code

theorem sameOutcome_of_listable
    (listable : (v = 0 ↔ w = 0) ∨ ∀ text ∈ reached o texts, Listable o.policy text) :
    SameOutcome (o.noting v) (o.noting w) texts := by
  have same : ∀ text ∈ reached o texts, ∀ value,
      Succeeds (o.noting v) text value ↔ Succeeds (o.noting w) text value := by
    intro text member value
    rw [succeeds_noting_iff, succeeds_noting_iff]
    rcases listable with alike | listable
    · simp only [ne_eq, alike]
    · constructor
      · rintro ⟨evaluated, -⟩
        exact ⟨evaluated, fun _ => listable text member value evaluated⟩
      · rintro ⟨evaluated, -⟩
        exact ⟨evaluated, fun _ => listable text member value evaluated⟩
  obtain ⟨written, failed⟩ := batch_agrees same
  exact ⟨written, by rw [batchOutcome_code, batchOutcome_code, failed]⟩

theorem listable_of_sameOutcome (noted : v ≠ 0) (same : SameOutcome (o.noting v) (o.noting 0) texts) :
    ∀ text ∈ reached o texts, Listable o.policy text := by
  intro text member
  refine Classical.byContradiction fun unlisted => ?_
  have shorter := (printed_le_and_lt noted texts).2 ⟨text, member, unlisted⟩
  rw [← batchOutcome_stdout, ← batchOutcome_stdout, same.1] at shorter
  exact Nat.lt_irrefl _ shorter

/-- Whether notes are asked for makes a difference exactly if an expression is reached that has a value but
cannot be cut into tokens. How many notes are asked for makes none, and neither does it make one where no
trailing text is allowed. -/
theorem sameOutcome_noting_iff (o : Options) (texts : List String) (v w : Nat) :
    (SameOutcome (o.noting v) (o.noting w) texts ↔
      (v = 0 ↔ w = 0) ∨ ∀ text ∈ reached o texts, Listable o.policy text) ∧
    (o.allowTrailing = false → SameOutcome (o.noting v) (o.noting w) texts) := by
  refine ⟨⟨?_, sameOutcome_of_listable⟩, ?_⟩
  · intro same
    by_cases quiet : v = 0
    · by_cases quiet' : w = 0
      · exact .inl (by simp [quiet, quiet'])
      · subst quiet
        exact .inr (listable_of_sameOutcome quiet' ⟨same.1.symm, same.2.symm⟩)
    · by_cases quiet' : w = 0
      · subst quiet'
        exact .inr (listable_of_sameOutcome quiet same)
      · exact .inl (by simp [quiet, quiet'])
  · intro strict
    exact sameOutcome_of_listable (.inr fun text _ => listable_of_strict strict text)

section Counterexample

theorem first_number_read :
    (Cursor.ofText "1 2 #").next = .ok (.integer (Decimal.nearest 1) 0, ⟨" 2 #".toList, 1⟩) :=
  rfl

theorem second_number_read :
    (Cursor.mk " 2 #".toList 1).next = .ok (.integer (Decimal.nearest 2) 2, ⟨" #".toList, 3⟩) :=
  rfl

theorem evaluate_behind_first_number : evaluate ⟨true, 256⟩ "1 2 #" = .ok (Decimal.nearest 1) := by
  have derived : Derives .sum 256 [.integer (Decimal.nearest 1) 0] (.number (Decimal.nearest 1)) :=
    .single (.factor (.unsigned (.base (.number rfl rfl))))
  have parsed : parse ⟨true, 256⟩ "1 2 #" = .ok (.number (Decimal.nearest 1)) :=
    parse_eq_ok_iff.mpr
      ⟨_, _, ⟨_, _, .cons first_number_read nofun .nil, second_number_read⟩, derived, rfl, by simp⟩
  rw [evaluate_eq_bind, parsed]
  rfl

theorem tokens_behind_first_number : tokens "1 2 #" = .error ⟨'#', 4⟩ := by
  have torn : (Cursor.mk " #".toList 3).next = .error (⟨'#', 4⟩, ⟨['#'], 4⟩) := rfl
  rw [tokens, Cursor.drain_of_more first_number_read (by decide), Cursor.drain_of_more second_number_read (by decide),
    Cursor.drain_of_error torn]
  rfl

/-- A run that leaves trailing text alone fails at it once the tokens are asked for. -/
theorem not_sameOutcome_of_tokens_listed :
    ¬ SameOutcome ⟨false, true, false, 1, none, []⟩ ⟨false, true, false, 0, none, []⟩ ["1 2 #"] := by
  intro same
  have listable := listable_of_sameOutcome (o := ⟨false, true, false, 0, none, []⟩) (v := 1) nofun same
  have here : "1 2 #" ∈ reached ⟨false, true, false, 0, none, []⟩ ["1 2 #"] :=
    mem_reached_cons_iff.mpr ⟨.inr ⟨_, evaluate_behind_first_number⟩, .inl rfl⟩
  obtain ⟨ts, tokenized⟩ := listable _ here _ evaluate_behind_first_number
  cases tokenized.symm.trans tokens_behind_first_number

end Counterexample

end Reckon.CommandLine
