import Reckon.Proofs.CommandLine.Lines

namespace Reckon.CommandLine

def reported (entries : List Entry) : String :=
  (Outcome.mk entries 0).stderr

theorem reported_append (front back : List Entry) : reported (front ++ back) = reported front ++ reported back := by
  simp only [reported, Outcome.stderr, List.map_append, String.join_append]

def Options.keeping (o : Options) (going : Bool) : Options :=
  { o with keepGoing := going }

def errorLine (text : String) (e : Failure) : String :=
  s!"{text}: {e.message}\n"

def fails (o : Options) (text : String) : Bool :=
  match result o text with
  | .ok _ => false
  | .error _ => true

def outputOf (o : Options) (text : String) : String :=
  match result o text with
  | .ok value => answerLine text value
  | .error _ => ""

def errorsOf (o : Options) (text : String) : String :=
  reported (written o text) ++
    match result o text with
    | .ok _ => ""
    | .error e => errorLine text e

def upToFailure (o : Options) (texts : List String) : List String :=
  texts.take (texts.findIdx (fails o) + 1)

variable {o : Options}

theorem single_keeping (o : Options) (going : Bool) (text : String) : single (o.keeping going) text = single o text :=
  rfl

theorem single_fails (o : Options) (text : String) : (single o text).2 = fails o text := by
  unfold fails
  cases worked : result o text with
  | ok value => rw [single_of_ok worked]
  | error e => rw [single_of_error worked]

theorem printed_single (o : Options) (text : String) : printed (single o text).1 = outputOf o text := by
  unfold outputOf
  cases worked : result o text with
  | ok value =>
    rw [single_of_ok worked, printed_append, printed_written, printed_out]
    rfl
  | error e =>
    rw [single_of_error worked, printed_append, printed_written, printed_err]
    rfl

theorem reported_single (o : Options) (text : String) : reported (single o text).1 = errorsOf o text := by
  unfold errorsOf
  cases worked : result o text with
  | ok value =>
    rw [single_of_ok worked, reported_append]
    rfl
  | error e =>
    rw [single_of_error worked, reported_append]
    rfl

theorem batch_going_cons (o : Options) (text : String) (texts : List String) :
    batch (o.keeping true) (text :: texts) =
      ((single o text).1 ++ (batch (o.keeping true) texts).1, fails o text || (batch (o.keeping true) texts).2) := by
  rw [batch, single_keeping, ← single_fails]
  simp [Options.keeping]

theorem batch_stopping_cons (o : Options) (text : String) (texts : List String) :
    batch (o.keeping false) (text :: texts) =
      if fails o text then ((single o text).1, true)
      else ((single o text).1 ++ (batch (o.keeping false) texts).1, (batch (o.keeping false) texts).2) := by
  rw [batch, single_keeping, ← single_fails]
  cases failed : (single o text).2 <;> simp [failed, Options.keeping]

theorem upToFailure_cons (o : Options) (text : String) (texts : List String) :
    upToFailure o (text :: texts) = text :: if fails o text then [] else upToFailure o texts := by
  unfold upToFailure
  rw [List.findIdx_cons]
  cases fails o text <;> simp

theorem batch_going_append (o : Options) (front back : List String) :
    (batch (o.keeping true) (front ++ back)).1 =
      (batch (o.keeping true) front).1 ++ (batch (o.keeping true) back).1 := by
  induction front with
  | nil => rfl
  | cons text texts ih => rw [List.cons_append, batch_going_cons, batch_going_cons, ih, List.append_assoc]

theorem batch_going_failed (o : Options) (texts : List String) :
    (batch (o.keeping true) texts).2 = texts.any (fails o) := by
  induction texts with
  | nil => rfl
  | cons text texts ih => rw [batch_going_cons, List.any_cons, ih]

theorem printed_going (o : Options) (texts : List String) :
    printed (batch (o.keeping true) texts).1 = String.join (texts.map (outputOf o)) := by
  induction texts with
  | nil => rfl
  | cons text texts ih =>
    rw [batch_going_cons, printed_append, printed_single, ih, List.map_cons, String.join_cons]

theorem reported_going (o : Options) (texts : List String) :
    reported (batch (o.keeping true) texts).1 = String.join (texts.map (errorsOf o)) := by
  induction texts with
  | nil => rfl
  | cons text texts ih =>
    rw [batch_going_cons, reported_append, reported_single, ih, List.map_cons, String.join_cons]

theorem batch_stopping (o : Options) (texts : List String) :
    batch (o.keeping false) texts = batch (o.keeping true) (upToFailure o texts) := by
  induction texts with
  | nil => rfl
  | cons text texts ih =>
    rw [batch_stopping_cons, upToFailure_cons, batch_going_cons]
    cases failed : fails o text with
    | true => simp [batch]
    | false => simp [ih]

theorem any_upToFailure (o : Options) (texts : List String) :
    (upToFailure o texts).any (fails o) = texts.any (fails o) := by
  induction texts with
  | nil => rfl
  | cons text texts ih =>
    rw [upToFailure_cons, List.any_cons, List.any_cons]
    cases fails o text with
    | true => rfl
    | false => simpa using ih

theorem upToFailure_of_failure {text : String} (failed : fails o text = true) (front later : List String) :
    upToFailure o (front ++ text :: later) = upToFailure o (front ++ [text]) := by
  induction front with
  | nil =>
    rw [List.nil_append, List.nil_append, upToFailure_cons, upToFailure_cons, failed]
    rfl
  | cons first front ih => rw [List.cons_append, List.cons_append, upToFailure_cons, upToFailure_cons, ih]

theorem batchOutcome_eq {o o' : Options} {texts texts' : List String} (same : batch o texts = batch o' texts') :
    batchOutcome o texts = batchOutcome o' texts' := by
  rw [batchOutcome, batchOutcome, same]

structure Joins (outcome first second : Outcome) : Prop where
  entries : outcome.entries = first.entries ++ second.entries
  stdout : outcome.stdout = first.stdout ++ second.stdout
  stderr : outcome.stderr = first.stderr ++ second.stderr

theorem Joins.of_entries {outcome first second : Outcome}
    (entries : outcome.entries = first.entries ++ second.entries) : Joins outcome first second where
  entries := entries
  stdout := by
    have both := printed_append first.entries second.entries
    rwa [← entries] at both
  stderr := by
    have both := reported_append first.entries second.entries
    rwa [← entries] at both

/-- The outcome accounts for each of the expressions. -/
structure Accounts (o : Options) (texts : List String) (outcome : Outcome) : Prop where
  stdout : outcome.stdout = String.join (texts.map (outputOf o))
  stderr : outcome.stderr = String.join (texts.map (errorsOf o))
  failed : outcome.code = 1 ↔ ∃ text ∈ texts, fails o text = true
  passed : outcome.code = 0 ↔ ∀ text ∈ texts, fails o text = false

theorem code_going (o : Options) (texts : List String) :
    (batchOutcome (o.keeping true) texts).code = if texts.any (fails o) then 1 else 0 := by
  rw [← batch_going_failed]
  rfl

theorem accounts_going (o : Options) (texts : List String) :
    Accounts o texts (batchOutcome (o.keeping true) texts) := by
  constructor
  case stdout => exact printed_going o texts
  case stderr => exact reported_going o texts
  case failed =>
    rw [code_going, ← List.any_eq_true]
    cases texts.any (fails o) <;> simp
  case passed =>
    rw [code_going]
    simp

theorem code_stopping (o : Options) (texts : List String) :
    (batchOutcome (o.keeping false) texts).code = (batchOutcome (o.keeping true) texts).code := by
  rw [batchOutcome_eq (batch_stopping o texts), code_going, code_going, any_upToFailure]

theorem result_quiet {o : Options} (quiet : o.verbosity = 0) (text : String) :
    written o text = [] ∧ result o text = evaluate o.policy text := by
  unfold written result notes
  rw [quiet]
  exact ⟨rfl, rfl⟩

/-- A run that keeps going accounts for every expression, piece by piece. A run that stops accounts for those
up to the first failure, with the same exit code, and no expression behind it matters. -/
theorem runs_account (o : Options) :
    (∀ texts, Accounts o texts (batchOutcome (o.keeping true) texts)) ∧
    (∀ front back, Joins (batchOutcome (o.keeping true) (front ++ back)) (batchOutcome (o.keeping true) front)
      (batchOutcome (o.keeping true) back)) ∧
    (∀ texts,
      batchOutcome (o.keeping false) texts = batchOutcome (o.keeping true) (upToFailure o texts) ∧
        (batchOutcome (o.keeping false) texts).code = (batchOutcome (o.keeping true) texts).code) ∧
    (∀ front text later, fails o text = true →
      batchOutcome (o.keeping false) (front ++ text :: later) = batchOutcome (o.keeping false) (front ++ [text])) ∧
    (∀ text value, result o text = .ok value ↔ Succeeds o text value) ∧
    (o.verbosity = 0 → ∀ text, written o text = [] ∧ result o text = evaluate o.policy text) := by
  refine ⟨accounts_going o, ?_, ?_, ?_, ?_, ?_⟩
  · intro front back
    exact .of_entries (batch_going_append o front back)
  · intro texts
    exact ⟨batchOutcome_eq (batch_stopping o texts), code_stopping o texts⟩
  · intro front text later failed
    apply batchOutcome_eq
    rw [batch_stopping, batch_stopping, upToFailure_of_failure failed]
  · intro text value
    exact result_eq_ok_iff
  · exact result_quiet

end Reckon.CommandLine
