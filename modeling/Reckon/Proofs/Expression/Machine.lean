import Reckon.Expr.Value

namespace Reckon

namespace Machine

inductive Instruction where
  | push (value : Float)
  | unary (op : Kind)
  | binary (op : Kind)

inductive Fault where
  | underflow
  | failed (cause : EvalError)

def unaryOperation? : Kind → Option (Float → Float)
  | .plus => some fun x => x
  | .minus => some fun x => -x
  | _ => none

def binaryOperation? : Kind → Option (Float → Float → Float)
  | .plus => some fun x y => x + y
  | .minus => some fun x y => x - y
  | .times => some fun x y => x * y
  | .divide => some fun x y => x / y
  | .power => some fun x y => x.pow y
  | _ => none

def DividesByZero (op : Kind) (x y : Float) : Prop :=
  op = .divide ∧ (y == 0) = true ∨ op = .power ∧ (x == 0) = true ∧ y < 0

instance (op : Kind) (x y : Float) : Decidable (DividesByZero op x y) := by
  unfold DividesByZero
  infer_instance

def step : Instruction → List Float → Except Fault (List Float)
  | .push value, stack => .ok (value :: stack)
  | .unary op, x :: stack =>
    match unaryOperation? op with
    | some operation => .ok (operation x :: stack)
    | none => .error (.failed (.noRule "UnaryOp" op))
  | .binary op, y :: x :: stack =>
    match binaryOperation? op with
    | some operation =>
      if DividesByZero op x y then .error (.failed .divisionByZero) else .ok (operation x y :: stack)
    | none => .error (.failed (.noRule "BinOp" op))
  | _, _ => .error .underflow

def run : List Instruction → List Float → Except Fault (List Float)
  | [], stack => .ok stack
  | instruction :: more, stack => (step instruction stack).bind (run more)

def settle (stack : List Float) : Except EvalError Float → Except Fault (List Float)
  | .ok value => .ok (value :: stack)
  | .error cause => .error (.failed cause)

theorem run_append (front back : List Instruction) (stack : List Float) :
    run (front ++ back) stack = (run front stack).bind (run back) := by
  induction front generalizing stack with
  | nil => rfl
  | cons instruction front ih =>
    rw [List.cons_append, run, run]
    cases step instruction stack with
    | error fault => rfl
    | ok stack => exact ih stack

theorem run_singleton (instruction : Instruction) (stack : List Float) :
    run [instruction] stack = step instruction stack := by
  rw [run]
  cases step instruction stack <;> rfl

theorem step_unary (op : Kind) (x : Float) (stack : List Float) :
    step (.unary op) (x :: stack) = settle stack (Expr.applyUnary op x) := by
  cases op <;> rfl

theorem step_binary (op : Kind) (x y : Float) (stack : List Float) :
    step (.binary op) (y :: x :: stack) = settle stack (Expr.applyBinary op x y) := by
  cases op with
  | plus | minus | times | integer | opening | closing | finish => rfl
  | divide =>
    simp only [step, binaryOperation?, DividesByZero, Expr.applyBinary]
    by_cases zero : (y == 0) = true
    · simp [zero, settle]
    · simp [zero, settle]
  | power =>
    simp only [step, binaryOperation?, DividesByZero, Expr.applyBinary]
    by_cases pole : (x == 0) = true ∧ y < 0
    · simp [pole, settle]
    · simp [pole, settle]

def cause? : Except Fault (List Float) → Option EvalError
  | .error (.failed cause) => some cause
  | _ => none

theorem cause?_settle (stack : List Float) (result : Except EvalError Float) (cause : EvalError) :
    cause? (settle stack result) = some cause ↔ result = .error cause := by
  cases result <;> simp [settle, cause?]

theorem settle_eq_ok_iff {result : Except EvalError Float} {value : Float} :
    settle [] result = .ok [value] ↔ result = .ok value := by
  cases result <;> simp [settle]

theorem settle_eq_error_iff {result : Except EvalError Float} {cause : EvalError} :
    settle [] result = .error (.failed cause) ↔ result = .error cause := by
  cases result <;> simp [settle]

end Machine

namespace Expr

open Machine

def listing : Expr → List Instruction
  | number value => [.push value]
  | unary op operand => operand.listing ++ [.unary op]
  | binary left op right => left.listing ++ right.listing ++ [.binary op]

def nodes : Expr → List Expr
  | number value => [number value]
  | unary op operand => operand.nodes ++ [unary op operand]
  | binary left op right => left.nodes ++ right.nodes ++ [binary left op right]

def instruction : Expr → Instruction
  | number value => .push value
  | unary op _ => .unary op
  | binary _ op _ => .binary op

def operands : Expr → List Expr
  | number _ => []
  | unary _ operand => [operand]
  | binary left _ right => [left, right]

/-- How the root fails by itself: all of its operands have values, and its instruction has no result on
them. -/
def ownFault? (e : Expr) : Option EvalError :=
  match e.operands.mapM value with
  | .ok values => cause? (step e.instruction values.reverse)
  | .error _ => none

theorem listing_eq_map (e : Expr) : e.listing = e.nodes.map instruction := by
  induction e with
  | number value => rfl
  | unary op operand ih => simp only [listing, nodes, ih, List.map_append, List.map_cons, List.map_nil, instruction]
  | binary left op right ihl ihr =>
    simp only [listing, nodes, ihl, ihr, List.map_append, List.map_cons, List.map_nil, instruction]

theorem run_listing (e : Expr) (stack : List Float) : run e.listing stack = settle stack e.value := by
  -- the right operand of a node runs on top of the left one's value, so the stack below has to vary
  induction e generalizing stack with
  | number value => rfl
  | unary op operand ih =>
    rw [listing, run_append, ih]
    cases valued : operand.value with
    | error cause => simp only [value, valued, settle, Except.bind, bind]
    | ok x =>
      calc run [.unary op] (x :: stack) = settle stack (applyUnary op x) := by rw [run_singleton, step_unary]
        _ = settle stack (unary op operand).value := by simp only [value, valued, bind, Except.bind]
  | binary left op right ihl ihr =>
    rw [listing, run_append, run_append, ihl]
    cases first : left.value with
    | error cause => simp only [value, first, settle, Except.bind, bind]
    | ok x =>
      simp only [settle, Except.bind, ihr]
      cases last : right.value with
      | error cause => simp only [value, first, last, bind, Except.bind]
      | ok y =>
        calc run [.binary op] (y :: x :: stack) = settle stack (applyBinary op x y) := by
              rw [run_singleton, step_binary]
          _ = settle stack (binary left op right).value := by simp only [value, first, last, bind, Except.bind]

theorem ownFault?_unary (op : Kind) (operand : Expr) :
    ownFault? (unary op operand) =
      match operand.value with
      | .ok x => cause? (settle [] (applyUnary op x))
      | .error _ => none := by
  cases valued : operand.value with
  | error cause => simp [ownFault?, operands, valued, bind, Except.bind]
  | ok x => simp [ownFault?, operands, instruction, valued, step_unary, bind, Except.bind, pure, Except.pure]

theorem ownFault?_binary (left : Expr) (op : Kind) (right : Expr) :
    ownFault? (binary left op right) =
      match left.value, right.value with
      | .ok x, .ok y => cause? (settle [] (applyBinary op x y))
      | _, _ => none := by
  cases first : left.value with
  | error cause => simp [ownFault?, operands, first, bind, Except.bind]
  | ok x =>
    cases last : right.value with
    | error cause => simp [ownFault?, operands, first, last, bind, Except.bind]
    | ok y =>
      simp [ownFault?, operands, instruction, first, last, step_binary, bind, Except.bind, pure, Except.pure]

theorem findSome?_ownFault? (e : Expr) : e.nodes.findSome? ownFault? = cause? (settle [] e.value) := by
  induction e with
  | number value => rfl
  | unary op operand ih =>
    rw [nodes, List.findSome?_append, ih, List.findSome?_singleton, ownFault?_unary]
    cases valued : operand.value with
    | error cause => simp only [value, valued, bind, Except.bind, settle, cause?, Option.some_or]
    | ok x => simp only [value, valued, bind, Except.bind, settle, cause?, Option.none_or]
  | binary left op right ihl ihr =>
    rw [nodes, List.findSome?_append, List.findSome?_append, ihl, ihr, List.findSome?_singleton, ownFault?_binary]
    cases first : left.value with
    | error cause => simp only [value, first, bind, Except.bind, settle, cause?, Option.some_or]
    | ok x =>
      cases last : right.value with
      | error cause => simp only [value, first, last, bind, Except.bind, settle, cause?, Option.none_or, Option.some_or]
      | ok y => simp only [value, first, last, bind, Except.bind, settle, cause?, Option.none_or]

theorem value_eq_error_iff (e : Expr) (cause : EvalError) :
    e.value = .error cause ↔ e.nodes.findSome? ownFault? = some cause := by
  rw [findSome?_ownFault?, cause?_settle]

theorem exists_value_iff (e : Expr) : (∃ x, e.value = .ok x) ↔ ∀ node ∈ e.nodes, node.ownFault? = none := by
  rw [← List.findSome?_eq_none_iff, findSome?_ownFault?]
  cases e.value <;> simp [settle, cause?]

theorem applyUnary_noRule {op kind : Kind} {x : Float} {name : String}
    (failed : applyUnary op x = .error (.noRule name kind)) : name = unaryName ∧ kind = op := by
  unfold applyUnary at failed
  split at failed <;> cases failed
  exact ⟨rfl, rfl⟩

theorem applyBinary_noRule {op kind : Kind} {x y : Float} {name : String}
    (failed : applyBinary op x y = .error (.noRule name kind)) : name = binaryName ∧ kind = op := by
  unfold applyBinary at failed
  split at failed
  case h_4 | h_5 => split at failed <;> cases failed
  all_goals cases failed
  exact ⟨rfl, rfl⟩

theorem noRule_of_ownFault? {node : Expr} {name : String} {op : Kind} (own : node.ownFault? = some (.noRule name op)) :
    name = node.nodeName ∧ (node.instruction = .unary op ∨ node.instruction = .binary op) ∧
      ∀ operand ∈ node.operands, ∃ x, operand.value = .ok x := by
  cases node with
  | number value => cases own
  | unary kind operand =>
    rw [ownFault?_unary] at own
    cases valued : operand.value with
    | error cause => simp [valued] at own
    | ok x =>
      simp only [valued, cause?_settle] at own
      obtain ⟨named, rfl⟩ := applyUnary_noRule own
      exact ⟨named, .inl rfl, by simp [operands, valued]⟩
  | binary left kind right =>
    rw [ownFault?_binary] at own
    cases first : left.value with
    | error cause => simp [first] at own
    | ok x =>
      cases last : right.value with
      | error cause => simp [first, last] at own
      | ok y =>
        simp only [first, last, cause?_settle] at own
        obtain ⟨named, rfl⟩ := applyBinary_noRule own
        exact ⟨named, .inr rfl, by simp [operands, first, last]⟩

structure RunsAsListed (e : Expr) : Prop where
  run : ∀ more stack, Machine.run (e.listing ++ more) stack = (settle stack e.value).bind (Machine.run more)
  result : (∀ x, e.value = .ok x ↔ Machine.run e.listing [] = .ok [x]) ∧
    ∀ cause, e.value = .error cause ↔ Machine.run e.listing [] = .error (.failed cause)
  order : e.listing = e.nodes.map instruction
  valued : (∃ x, e.value = .ok x) ↔ ∀ node ∈ e.nodes, node.ownFault? = none
  failed : ∀ cause, e.value = .error cause ↔ e.nodes.findSome? ownFault? = some cause
  noRule : ∀ name op, e.value = .error (.noRule name op) →
    ∃ node ∈ e.nodes, name = node.nodeName ∧ (node.instruction = .unary op ∨ node.instruction = .binary op) ∧
      ∀ operand ∈ node.operands, ∃ x, operand.value = .ok x
  hidden : ∀ op right cause, e.value = .error cause → (binary e op right).value = .error cause

/-- Every tree, whatever kinds stand at its nodes, has the value to which its listing runs, and fails where
the run of the listing fails, for the same cause. -/
theorem runsAsListed (e : Expr) : RunsAsListed e where
  run more stack := by rw [run_append, run_listing]
  result := by
    constructor
    · intro x
      rw [run_listing, settle_eq_ok_iff]
    · intro cause
      rw [run_listing, settle_eq_error_iff]
  order := listing_eq_map e
  valued := exists_value_iff e
  failed := value_eq_error_iff e
  noRule := by
    intro name op failed
    obtain ⟨node, member, own⟩ := List.exists_of_findSome?_eq_some ((value_eq_error_iff e _).mp failed)
    exact ⟨node, member, noRule_of_ownFault? own⟩
  hidden := by
    intro op right cause failed
    simp only [value, failed, bind, Except.bind]

end Expr

end Reckon
