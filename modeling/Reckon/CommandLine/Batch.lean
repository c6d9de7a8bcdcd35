import Reckon.Calculation
import Reckon.CommandLine.Options
import Reckon.Expr.Bracketed
import Reckon.Token.Scanner

namespace Reckon.CommandLine

inductive Entry where
  | out (line : String)
  | err (line : String)
deriving DecidableEq, Repr

def tokensNote (text : String) : Except Failure Entry := do
  let ts ← (tokens text).mapError .unreadable
  let listing := ", ".intercalate (ts.map Token.text)
  return .err s!"tokens: [{listing}]"

def treeNote (policy : Policy) (text : String) : Except Failure Entry := do
  let e ← parse policy text
  return .err s!"ast: {e.text}"

def notes (o : Options) (text : String) : List (Except Failure Entry) :=
  (if 1 ≤ o.verbosity then [tokensNote text] else []) ++
    (if 2 ≤ o.verbosity then [treeNote o.policy text] else [])

def afterNotes (result : Except Failure Float) :
    List (Except Failure Entry) → List Entry × Except Failure Float
  | [] => ([], result)
  | .error e :: _ => ([], .error e)
  | .ok note :: notes =>
    let (entries, result) := afterNotes result notes
    (note :: entries, result)

def single (o : Options) (text : String) : List Entry × Bool :=
  match afterNotes (evaluate o.policy text) (notes o text) with
  | (entries, .ok value) => (entries ++ [.out s!"{text} = {Decimal.text value}"], false)
  | (entries, .error e) => (entries ++ [.err s!"{text}: {e.message}"], true)

/-- The lines for a list of expressions, and whether any failed. The first failure is the last
expression looked at, unless the options say to keep going. -/
def batch (o : Options) : List String → List Entry × Bool
  | [] => ([], false)
  | text :: texts =>
    let (entries, failed) := single o text
    if failed && !o.keepGoing then (entries, true)
    else
      let (further, laterFailed) := batch o texts
      (entries ++ further, failed || laterFailed)

end Reckon.CommandLine
