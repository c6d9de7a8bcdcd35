import Reckon.Text.Blank
import Reckon.Decimal.Nearest
import Reckon.Token.Basic

namespace Reckon

structure Unreadable where
  char : Char
  pos : Nat
deriving DecidableEq, Repr

def Unreadable.message (e : Unreadable) : String :=
  s!"Invalid character '{e.char}' at position {e.pos}"

/-- The characters still to be read, and the number of those already read. -/
structure Cursor where
  rest : List Char
  pos : Nat

namespace Cursor

def ofText (text : String) : Cursor :=
  ⟨text.toList, 0⟩

def skip (p : Char → Bool) (c : Cursor) : Cursor :=
  ⟨c.rest.dropWhile p, c.pos + (c.rest.takeWhile p).length⟩

def sign? : Char → Option (Kind × String)
  | '+' => some (.plus, "+")
  | '-' => some (.minus, "-")
  | '*' => some (.times, "*")
  | '/' => some (.divide, "/")
  | '(' => some (.opening, "(")
  | ')' => some (.closing, ")")
  | _ => none

def integer (c : Cursor) : Token × Cursor :=
  let value := Nat.ofDigitChars 10 (c.rest.takeWhile Char.isDigit) 0
  (.integer (Decimal.nearest value) c.pos, c.skip Char.isDigit)

def lead (c : Cursor) : Except (Unreadable × Cursor) (Token × Cursor) :=
  match c.rest with
  | [] => .ok (.finish c.pos, c)
  | '*' :: '*' :: rest => .ok (.symbol .power "**" c.pos, ⟨rest, c.pos + 2⟩)
  | first :: rest =>
    if first.isDigit then .ok c.integer
    else match sign? first with
      | some (kind, lexeme) => .ok (.symbol kind lexeme c.pos, ⟨rest, c.pos + 1⟩)
      | none => .error (⟨first, c.pos⟩, c)

/-- The next token and the place behind it, or the unreadable character and its own place. -/
def next (c : Cursor) : Except (Unreadable × Cursor) (Token × Cursor) :=
  (c.skip Text.isBlank).lead

theorem skip_rest_length_le (p : Char → Bool) (c : Cursor) :
    (c.skip p).rest.length ≤ c.rest.length :=
  (List.dropWhile_sublist p).length_le

theorem sign?_kind_ne_finish {char : Char} {kind : Kind} {lexeme : String}
    (sign : sign? char = some (kind, lexeme)) : kind ≠ .finish := by
  unfold sign? at sign
  split at sign <;> cases sign <;> decide

theorem integer_rest_length_lt {c : Cursor} {first : Char} {rest : List Char}
    (head : c.rest = first :: rest) (digit : first.isDigit = true) :
    c.integer.2.rest.length < c.rest.length := by
  have shorter := (List.dropWhile_sublist (l := rest) Char.isDigit).length_le
  simp only [integer, skip, head, List.dropWhile_cons, digit, if_true, List.length_cons]
  omega

theorem lead_rest_length_lt {c behind : Cursor} {t : Token} (read : c.lead = .ok (t, behind))
    (more : t.kind ≠ .finish) : behind.rest.length < c.rest.length := by
  unfold lead at read
  split at read
  · cases read
    exact absurd rfl more
  · rename_i head
    cases read
    simp only [head, List.length_cons]
    omega
  · rename_i first rest _ head
    split at read
    · rename_i digit
      cases read
      exact integer_rest_length_lt head digit
    · split at read
      · cases read
        simp only [head, List.length_cons]
        omega
      · cases read

theorem lead_rest_of_finish {c behind : Cursor} {t : Token} (read : c.lead = .ok (t, behind))
    (last : t.kind = .finish) : behind.rest = [] := by
  unfold lead at read
  split at read
  · cases read
    assumption
  · cases read
    cases last
  · split at read
    · cases read
      cases last
    · split at read
      · rename_i sign
        cases read
        exact absurd last (sign?_kind_ne_finish sign)
      · cases read

theorem next_rest_length_lt {c behind : Cursor} {t : Token} (read : c.next = .ok (t, behind))
    (more : t.kind ≠ .finish) : behind.rest.length < c.rest.length :=
  Nat.lt_of_lt_of_le (lead_rest_length_lt read more) (skip_rest_length_le Text.isBlank c)

theorem next_rest_of_finish {c behind : Cursor} {t : Token} (read : c.next = .ok (t, behind))
    (last : t.kind = .finish) : behind.rest = [] :=
  lead_rest_of_finish read last

end Cursor

end Reckon
