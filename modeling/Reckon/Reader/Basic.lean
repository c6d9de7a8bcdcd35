import Reckon.Token.Cursor

namespace Reckon

inductive SyntaxError where
  | unreadable (cause : Unreadable)
  | unexpected (expected : Kind) (found : Token)
  | tooDeep (limit pos : Nat)

def SyntaxError.message : SyntaxError → String
  | unreadable cause => cause.message
  | unexpected expected found =>
    s!"Expected {expected.name}, found {found.text} at position {found.pos}"
  | tooDeep limit pos => s!"Expression nested deeper than {limit} levels at position {pos}"

/-- The token in view, the place behind it, and the number of operands that are open. -/
structure Reader where
  current : Token
  cursor : Cursor
  depth : Nat

namespace Reader

def start (cursor : Cursor) : Except SyntaxError Reader :=
  match cursor.next with
  | .error (e, _) => .error (.unreadable e)
  | .ok (t, behind) => .ok ⟨t, behind, 0⟩

def size (r : Reader) : Nat :=
  if r.current.kind = .finish then 0 else r.cursor.rest.length + 1

/-- Puts the next token into view. Where it cannot be read, only the place behind the one in view moves on. -/
def advance (r : Reader) : Except (SyntaxError × Reader) Reader :=
  match r.cursor.next with
  | .error (e, stop) => .error (.unreadable e, { r with cursor := stop })
  | .ok (t, behind) => .ok { r with current := t, cursor := behind }

def expect (kind : Kind) (r : Reader) : Except (SyntaxError × Reader) Reader :=
  if r.current.kind = kind then r.advance else .error (.unexpected kind r.current, r)

theorem advance_size_lt {r after : Reader} (taken : r.advance = .ok after)
    (more : r.current.kind ≠ .finish) : after.size < r.size := by
  unfold advance at taken
  split at taken
  · cases taken
  · rename_i t behind read
    cases taken
    simp only [size, more, if_false]
    split
    · omega
    · rename_i remains
      have := Cursor.next_rest_length_lt read remains
      omega

theorem expect_size_lt {kind : Kind} {r after : Reader} (taken : r.expect kind = .ok after)
    (more : kind ≠ .finish) : after.size < r.size := by
  unfold expect at taken
  split at taken
  · rename_i same
    exact advance_size_lt taken (by rw [same]; exact more)
  · cases taken

end Reader

end Reckon
