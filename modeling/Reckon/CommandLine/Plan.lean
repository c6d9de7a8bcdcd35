import Reckon.CommandLine.Batch
import Reckon.SelfCheck
import Reckon.Text.Blank
import Reckon.Text.Line

namespace Reckon.CommandLine

structure Outcome where
  entries : List Entry
  code : Nat

namespace Outcome

def stdout (o : Outcome) : String :=
  String.join (o.entries.map fun
    | .out line => line ++ "\n"
    | .err _ => "")

def stderr (o : Outcome) : String :=
  String.join (o.entries.map fun
    | .out _ => ""
    | .err line => line ++ "\n")

end Outcome

def versionLine : String := "calculator 0.1.0"

def helpText : String :=
  "Evaluates integer arithmetic expressions with + - * / ** and parentheses

Usage: calculator [OPTIONS] [EXPRESSIONS]...

Arguments:
  [EXPRESSIONS]...  Expressions to evaluate, read one per line from stdin when omitted

Options:
  -t, --test            Run the built-in table of expressions and check their results
      --allow-trailing  Ignore anything left over after a complete expression
      --max-depth <N>   Maximum nesting of parentheses and unary operators [default: 256]
  -k, --keep-going      Continue with the next expression after an error
  -v, --verbose...      Print tokens (-v) and the syntax tree (-vv) to stderr
  -h, --help            Print help
  -V, --version         Print version"

def Misuse.message : Misuse → String
  | repeated option => s!"error: {option} cannot be used multiple times"
  | valueMissing => "error: a value is required for --max-depth"
  | valueUnwanted argument => s!"error: unexpected value in {argument}"
  | limitInvalid value => s!"error: invalid value {value} for --max-depth"

def Refrain.outcome : Refrain → Outcome
  | version => ⟨[.out versionLine], 0⟩
  | help => ⟨[.out helpText], 0⟩
  | misuse what => ⟨[.err what.message], 2⟩

def batchOutcome (o : Options) (texts : List String) : Outcome :=
  let (entries, failed) := batch o texts
  ⟨entries, if failed then 1 else 0⟩

def holdsExpression (line : String) : Bool :=
  !line.toList.all Text.isBlank

/-- All lines are read before the first of them is evaluated. -/
def inputOutcome (o : Options) (input : List UInt8) : Outcome :=
  match Text.lines? input with
  | none => ⟨[.err "Error reading stdin: stream did not contain valid UTF-8"], 1⟩
  | some lines => batchOutcome o (lines.filter holdsExpression)

def checkedOutcome (o : Options) : Outcome :=
  match SelfCheck.run with
  | .error mishap => ⟨[.err s!"Self-test failed: {mishap.message}"], 1⟩
  | .ok count =>
    let rest := batchOutcome o o.expressions
    { rest with entries := .out s!"All {count} tests passed" :: rest.entries }

inductive Plan where
  | done (outcome : Outcome)
  | onInput (outcome : List UInt8 → Outcome)

/-- What there is to do where `read` makes out the arguments: they give the options, or all there is to be written. -/
def planBy (read : List String → Except Outcome Options) (arguments : List String) : Plan :=
  match read arguments with
  | .error outcome => .done outcome
  | .ok o =>
    if o.selfCheck then .done (checkedOutcome o)
    else if o.expressions.isEmpty then .onInput (inputOutcome o)
    else .done (batchOutcome o o.expressions)

def runBy (read : List String → Except Outcome Options) (arguments : List String) (input : List UInt8) : Outcome :=
  match planBy read arguments with
  | .done outcome => outcome
  | .onInput outcome => outcome input

def madeOut (arguments : List String) : Except Outcome Options :=
  (Options.ofArguments arguments).mapError Refrain.outcome

def plan (arguments : List String) : Plan :=
  planBy madeOut arguments

def run (arguments : List String) (input : List UInt8) : Outcome :=
  runBy madeOut arguments input

end Reckon.CommandLine
