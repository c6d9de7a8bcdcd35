import Reckon.Decimal.Text

namespace Reckon

inductive Kind where
  | integer
  | plus
  | minus
  | times
  | divide
  | power
  | opening
  | closing
  | finish
deriving DecidableEq, Repr

namespace Kind

def name : Kind → String
  | integer => "INTEGER"
  | plus => "PLUS"
  | minus => "MINUS"
  | times => "MUL"
  | divide => "DIV"
  | power => "POW"
  | opening => "LPAREN"
  | closing => "RPAREN"
  | finish => "EOF"

def symbol : Kind → String
  | integer => "INTEGER"
  | plus => "+"
  | minus => "-"
  | times => "*"
  | divide => "/"
  | power => "**"
  | opening => "("
  | closing => ")"
  | finish => "EOF"

end Kind

inductive Payload where
  | number (value : Float)
  | lexeme (text : String)
  | nothing

namespace Payload

def text : Payload → String
  | number value => Decimal.text value
  | lexeme text => s!"'{text}'"
  | nothing => "None"

def same : Payload → Payload → Bool
  | number x, number y => x == y
  | lexeme s, lexeme t => s == t
  | nothing, nothing => true
  | _, _ => false

instance : BEq Payload := ⟨same⟩

end Payload

/-- A token. Its position counts the characters of the text before it. -/
structure Token where
  kind : Kind
  payload : Payload
  pos : Nat

namespace Token

def integer (value : Float) (pos : Nat) : Token :=
  ⟨.integer, .number value, pos⟩

def symbol (kind : Kind) (lexeme : String) (pos : Nat) : Token :=
  ⟨kind, .lexeme lexeme, pos⟩

def finish (pos : Nat) : Token :=
  ⟨.finish, .nothing, pos⟩

def number? (t : Token) : Option Float :=
  match t.payload with
  | .number value => some value
  | _ => none

def text (t : Token) : String :=
  s!"Token({t.kind.name}, {t.payload.text})"

def same (t u : Token) : Bool :=
  t.kind == u.kind && t.payload == u.payload && t.pos == u.pos

instance : BEq Token := ⟨same⟩

example : (symbol .power "**" 3).text = "Token(POW, '**')" := by decide

example : (finish 7).text = "Token(EOF, None)" := by decide

end Token

end Reckon
