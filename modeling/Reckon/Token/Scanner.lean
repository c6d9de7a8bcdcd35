import Reckon.Token.Cursor

namespace Reckon

/-- The tokens from a cursor on up to the end of the text or the first unreadable character, and the
place where reading stopped. The finishing token is left out. -/
def Cursor.drain (c : Cursor) : Except Unreadable (List Token) × Cursor :=
  match _ : c.next with
  | .error (e, stop) => (.error e, stop)
  | .ok (t, behind) =>
    if _ : t.kind = .finish then (.ok [], behind)
    else
      let (tokens, stop) := behind.drain
      (tokens.map (t :: ·), stop)
termination_by c.rest.length
decreasing_by exact Cursor.next_rest_length_lt ‹_› ‹_›

def tokens (text : String) : Except Unreadable (List Token) :=
  (Cursor.ofText text).drain.1

structure Scanner where
  cursor : Cursor
  ended : Bool

namespace Scanner

def ofText (text : String) : Scanner :=
  ⟨.ofText text, false⟩

/-- Reads the next token without regard to the end of the sequence. At the end of the text this is
the finishing token, and an unreadable character is not passed. -/
def token (s : Scanner) : Except Unreadable Token × Scanner :=
  match s.cursor.next with
  | .error (e, stop) => (.error e, { s with cursor := stop })
  | .ok (t, behind) => (.ok t, { s with cursor := behind })

def next? (s : Scanner) : Option (Except Unreadable Token) × Scanner :=
  if s.ended then (none, s)
  else match s.cursor.next with
    | .error (e, stop) => (some (.error e), ⟨stop, true⟩)
    | .ok (t, behind) =>
      if t.kind = .finish then (none, ⟨behind, true⟩) else (some (.ok t), ⟨behind, false⟩)

def remaining (s : Scanner) : Except Unreadable (List Token) × Scanner :=
  if s.ended then (.ok [], s)
  else
    let (tokens, stop) := s.cursor.drain
    (tokens, ⟨stop, true⟩)

end Scanner

end Reckon
