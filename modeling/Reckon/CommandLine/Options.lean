import Reckon.Policy

namespace Reckon.CommandLine

structure Options where
  selfCheck : Bool
  allowTrailing : Bool
  keepGoing : Bool
  verbosity : Nat
  maxDepth : Option Nat
  expressions : List String
deriving DecidableEq, Repr

def Options.initial : Options :=
  ⟨false, false, false, 0, none, []⟩

def Options.policy (o : Options) : Policy :=
  ⟨o.allowTrailing, o.maxDepth.getD Policy.defaultMaxDepth⟩

inductive Misuse where
  | repeated (option : String)
  | valueMissing
  | valueUnwanted (argument : String)
  | limitInvalid (value : String)
deriving DecidableEq, Repr

inductive Refrain where
  | version
  | help
  | misuse (what : Misuse)
deriving DecidableEq, Repr

inductive Switch where
  | selfCheck
  | allowTrailing
  | keepGoing
  | verbose
  | version
  | help
deriving DecidableEq, Repr

def Switch.ofName? : String → Option Switch
  | "test" => some .selfCheck
  | "allow-trailing" => some .allowTrailing
  | "keep-going" => some .keepGoing
  | "verbose" => some .verbose
  | "version" => some .version
  | "help" => some .help
  | _ => none

def Switch.ofLetter? : Char → Option Switch
  | 't' => some .selfCheck
  | 'k' => some .keepGoing
  | 'v' => some .verbose
  | 'V' => some .version
  | 'h' => some .help
  | _ => none

inductive Role where
  | switches (given : List Switch)
  | valuedSwitch
  | maxDepth (value : Option String)
  | separator
  | expression
deriving DecidableEq, Repr

def longRole (option : List Char) : Role :=
  let name := String.ofList (option.takeWhile (· != '='))
  let value := (option.dropWhile (· != '=')).tail?.map String.ofList
  if name = "max-depth" then .maxDepth value
  else match Switch.ofName? name, value with
    | some switch, none => .switches [switch]
    | some _, some _ => .valuedSwitch
    | none, _ => .expression

/-- An argument that begins like an option without being one is an expression. A group of letters is
one if any of them stands for no option. -/
def role (argument : String) : Role :=
  match argument.toList with
  | ['-', '-'] => .separator
  | '-' :: '-' :: option => longRole option
  | '-' :: letter :: letters =>
    match (letter :: letters).mapM Switch.ofLetter? with
    | some given => .switches given
    | none => .expression
  | _ => .expression

def greatestLimit : Nat := Nat.pow 2 64 - 1

def limit? (value : String) : Option Nat :=
  let digits := match value.toList with
    | '+' :: digits => digits
    | digits => digits
  let limit := Nat.ofDigitChars 10 digits 0
  if !digits.isEmpty && digits.all Char.isDigit && limit ≤ greatestLimit then some limit else none

namespace Options

def once (given : Bool) (name : String) (o : Options) : Except Refrain Options :=
  if given then .error (.misuse (.repeated name)) else .ok o

def switch (o : Options) : Switch → Except Refrain Options
  | .selfCheck => once o.selfCheck "--test" { o with selfCheck := true }
  | .allowTrailing => once o.allowTrailing "--allow-trailing" { o with allowTrailing := true }
  | .keepGoing => once o.keepGoing "--keep-going" { o with keepGoing := true }
  | .verbose => .ok { o with verbosity := o.verbosity + 1 }
  | .version => .error .version
  | .help => .error .help

def limit (o : Options) (value : String) : Except Refrain Options :=
  match limit? value with
  | none => .error (.misuse (.limitInvalid value))
  | some limit => once o.maxDepth.isSome "--max-depth" { o with maxDepth := some limit }

/-- Reads arguments from left to right, on top of the options given before them. From the first one on that is no
option, all arguments are expressions. -/
def extend (o : Options) : List String → Except Refrain Options
  | [] => .ok o
  | argument :: arguments =>
    match role argument with
    | .separator => .ok { o with expressions := arguments }
    | .expression => .ok { o with expressions := argument :: arguments }
    | .valuedSwitch => .error (.misuse (.valueUnwanted argument))
    | .switches given => do (← given.foldlM switch o).extend arguments
    | .maxDepth (some value) => do (← o.limit value).extend arguments
    | .maxDepth none =>
      match arguments with
      | [] => .error (.misuse .valueMissing)
      | value :: arguments =>
        if role value = .expression then do (← o.limit value).extend arguments
        else .error (.misuse .valueMissing)

def ofArguments (arguments : List String) : Except Refrain Options :=
  initial.extend arguments

end Options

end Reckon.CommandLine
