import Reckon.Proofs.Double.Pattern
import Reckon.Proofs.Expression.Parsing
import Reckon.Proofs.Reader.Runs

namespace Reckon

/-- Every node has an operator with a rule, and every leaf an unsigned number. -/
def Expr.Evaluable : Expr → Prop
  | number value => Double.Unsigned value
  | unary op operand => op ∈ [Kind.plus, .minus] ∧ operand.Evaluable
  | binary left op right =>
    op ∈ [Kind.plus, .minus, .times, .divide, .power] ∧ left.Evaluable ∧ right.Evaluable

namespace Kind

theorem mem_signs_of_isSign {kind : Kind} (sign : kind.isSign = true) : kind ∈ [plus, minus] := by
  revert sign
  cases kind <;> decide

theorem mem_operators_of_isOperator {kind : Kind} (operator : kind.isOperator = true) :
    kind ∈ [plus, minus, times, divide, power] := by
  revert operator
  cases kind <;> decide

end Kind

namespace Token

def CarriesUnsigned (t : Token) : Prop :=
  ∀ value, t.number? = some value → Double.Unsigned value

theorem carriesUnsigned_around {ts us : List Token} {op : Token}
    (unsigned : ∀ t ∈ ts ++ op :: us, t.CarriesUnsigned) :
    (∀ t ∈ ts, t.CarriesUnsigned) ∧ ∀ t ∈ us, t.CarriesUnsigned := by
  obtain ⟨before, behind⟩ := List.forall_mem_append.mp unsigned
  exact ⟨before, (List.forall_mem_cons.mp behind).2⟩

end Token

namespace Cursor

variable {c behind stop : Cursor} {t : Token} {ts : List Token}

theorem next_carriesUnsigned (read : c.next = .ok (t, behind)) : t.CarriesUnsigned := by
  intro value carried
  rcases lead_cases read with ⟨-, rfl, -⟩ | ⟨first, rest, -, -, taken⟩ | ⟨kind, lexeme, -, -, rfl, -⟩
  · cases carried
  · rw [show t = _ from congrArg Prod.fst taken] at carried
    cases carried
    apply Double.unsigned_nearest
  · cases carried

theorem Reads.carriesUnsigned (reads : Reads c ts stop) : ∀ t ∈ ts, t.CarriesUnsigned := by
  induction reads with
  | nil => simp
  | cons read _ _ ih => exact List.forall_mem_cons.mpr ⟨next_carriesUnsigned read, ih⟩

end Cursor

theorem Derives.evaluable {level : Level} {room : Nat} {ts : List Token} {e : Expr} (derived : Derives level room ts e)
    (unsigned : ∀ t ∈ ts, t.CarriesUnsigned) : e.Evaluable := by
  induction derived with
  | single _ ih | factor _ ih | unsigned _ ih | base _ ih => exact ih unsigned
  | sum _ sign _ ihl ihr =>
    obtain ⟨before, behind⟩ := Token.carriesUnsigned_around unsigned
    exact ⟨Kind.mem_operators_of_isOperator (Kind.isOperator_of_isSign sign), ihl before, ihr behind⟩
  | product _ scale _ ihl ihr =>
    obtain ⟨before, behind⟩ := Token.carriesUnsigned_around unsigned
    exact ⟨Kind.mem_operators_of_isOperator (Kind.isOperator_of_isScale scale), ihl before, ihr behind⟩
  | power _ _ _ ihl ihr =>
    obtain ⟨before, behind⟩ := Token.carriesUnsigned_around unsigned
    exact ⟨by simp, ihl before, ihr behind⟩
  | signed sign _ ih =>
    exact ⟨Kind.mem_signs_of_isSign sign, ih (List.forall_mem_cons.mp unsigned).2⟩
  | @number _ t value _ carried => exact unsigned t (List.mem_singleton_self t) value carried
  | bracket _ _ _ ih =>
    have inner := (List.forall_mem_append.mp unsigned).1
    exact ih (List.forall_mem_cons.mp inner).2

namespace Expr

theorem applyUnary_error {op : Kind} {value : Float} {err : EvalError} (sign : op ∈ [Kind.plus, .minus])
    (failed : applyUnary op value = .error err) : err = .divisionByZero := by
  simp only [List.mem_cons, List.not_mem_nil, or_false] at sign
  rcases sign with rfl | rfl <;> cases failed

theorem applyBinary_error {op : Kind} {left right : Float} {err : EvalError}
    (operator : op ∈ [Kind.plus, .minus, .times, .divide, .power])
    (failed : applyBinary op left right = .error err) : err = .divisionByZero := by
  simp only [List.mem_cons, List.not_mem_nil, or_false] at operator
  rcases operator with rfl | rfl | rfl | rfl | rfl
  · cases failed
  · cases failed
  · cases failed
  · simp only [applyBinary] at failed
    split at failed <;> cases failed
    rfl
  · simp only [applyBinary] at failed
    split at failed <;> cases failed
    rfl

theorem Evaluable.value_error {e : Expr} (evaluable : e.Evaluable) {err : EvalError}
    (failed : e.value = .error err) : err = .divisionByZero := by
  induction e with
  | number value => cases failed
  | unary op operand ih =>
    obtain ⟨sign, inner⟩ := evaluable
    simp only [value] at failed
    cases first : operand.value with
    | error cause =>
      rw [first] at failed
      cases failed
      exact ih inner first
    | ok x =>
      rw [first] at failed
      exact applyUnary_error sign failed
  | binary left op right ihl ihr =>
    obtain ⟨operator, before, behind⟩ := evaluable
    simp only [value] at failed
    cases first : left.value with
    | error cause =>
      rw [first] at failed
      cases failed
      exact ihl before first
    | ok x =>
      cases last : right.value with
      | error cause =>
        rw [first, last] at failed
        cases failed
        exact ihr behind last
      | ok y =>
        rw [first, last] at failed
        exact applyBinary_error operator failed

end Expr

inductive Ordinary : Except Failure Float → Prop where
  | value (value : Float) : Ordinary (.ok value)
  | unparsable (cause : SyntaxError) : Ordinary (.error (.unparsable cause))
  | divisionByZero : Ordinary (.error (.valueless .divisionByZero))

theorem Expr.Evaluable.ordinary {e : Expr} (evaluable : e.Evaluable) : Ordinary (e.value.mapError .valueless) := by
  cases valued : e.value with
  | ok value => exact .value value
  | error err =>
    cases evaluable.value_error valued
    exact .divisionByZero

namespace Reader.UsedOn

variable {policy : Policy} {text : String} {r : Reader}

theorem evaluable_of_found (used : UsedOn policy text r) {e : Expr} (found : (r.read policy).1 = .ok e) :
    e.Evaluable := by
  have stands := used.standsIn
  obtain ⟨us, c, -, views⟩ := stands.place
  obtain ⟨ts, stop, last, behind, reading⟩ := read_answers policy views stands.outermost
  obtain ⟨derived, -, -⟩ := reading.found found
  exact derived.evaluable reading.reads.carriesUnsigned

theorem evaluate_ordinary (used : UsedOn policy text r) : Ordinary (r.evaluate policy) := by
  unfold Reader.evaluate
  cases answer : (r.read policy).1 with
  | error err => exact .unparsable err
  | ok e => exact (used.evaluable_of_found answer).ordinary

end Reader.UsedOn

/-- A tree that is read from a text, however the reader has come about and whatever it has been used for, has
operators with a rule at its nodes and unsigned numbers at its leaves. So there is a value, or a fault of
syntax, or a division by zero. -/
theorem read_evaluable (policy : Policy) (text : String) :
    (∀ r, Reader.UsedOn policy text r →
      (∀ e, (r.read policy).1 = .ok e → e.Evaluable) ∧ Ordinary (r.evaluate policy)) ∧
    (∀ e, parse policy text = .ok e → e.Evaluable) ∧
    Ordinary (evaluate policy text) := by
  refine ⟨fun r used => ⟨fun e => used.evaluable_of_found, used.evaluate_ordinary⟩, ?_, ?_⟩
  · intro e parsed
    obtain ⟨ts, t, ⟨stop, behind, reads, -⟩, derived, -⟩ := parse_eq_ok_iff.mp parsed
    exact derived.evaluable reads.carriesUnsigned
  · unfold evaluate
    cases started : Reader.start (.ofText text) with
    | error err => exact .unparsable err
    | ok r =>
      have used : Reader.UsedOn policy text r := @Reader.UsedOn.start policy text [] r started
      exact used.evaluate_ordinary

end Reckon
