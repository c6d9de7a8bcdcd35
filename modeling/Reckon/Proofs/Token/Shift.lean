import Reckon.Proofs.Token.Lookahead

namespace Reckon

def Token.shift (k : Nat) (t : Token) : Token :=
  { t with pos := t.pos + k }

def Unreadable.shift (k : Nat) (e : Unreadable) : Unreadable :=
  { e with pos := e.pos + k }

namespace Cursor

def shift (k : Nat) (c : Cursor) : Cursor :=
  { c with pos := c.pos + k }

def shiftRead (k : Nat) :
    Except (Unreadable × Cursor) (Token × Cursor) → Except (Unreadable × Cursor) (Token × Cursor)
  | .error (e, stop) => .error (e.shift k, stop.shift k)
  | .ok (t, behind) => .ok (t.shift k, behind.shift k)

variable {c behind stop : Cursor} {t : Token} {ts : List Token} (k : Nat)

theorem skip_shift (p : Char → Bool) (c : Cursor) : (c.shift k).skip p = (c.skip p).shift k := by
  simp only [skip, shift, Nat.add_right_comm]

theorem integer_shift (c : Cursor) :
    (c.shift k).integer = (c.integer.1.shift k, c.integer.2.shift k) := by
  simp only [integer, skip_shift]
  rfl

theorem lead_shift (c : Cursor) : (c.shift k).lead = shiftRead k c.lead := by
  obtain ⟨rest, pos⟩ := c
  unfold lead
  simp only [shift]
  split
  · rfl
  · simp only [shiftRead, shift, Token.shift, Token.symbol, Nat.add_right_comm]
  · split
    · exact congrArg Except.ok (integer_shift k ⟨_, pos⟩)
    · split
      · simp only [shiftRead, shift, Token.shift, Token.symbol, Nat.add_right_comm]
      · rfl

theorem next_shift (c : Cursor) : (c.shift k).next = shiftRead k c.next := by
  rw [next, skip_shift, lead_shift]
  rfl

theorem exists_of_next_shift {u : Token} {beyond : Cursor} (read : (c.shift k).next = .ok (u, beyond)) :
    ∃ t behind, c.next = .ok (t, behind) ∧ u = t.shift k ∧ beyond = behind.shift k := by
  rw [next_shift] at read
  cases first : c.next with
  | error e =>
    rw [first] at read
    cases read
  | ok result =>
    rw [first] at read
    cases read
    exact ⟨_, _, rfl, rfl, rfl⟩

theorem Reads.shift (reads : Reads c ts stop) : Reads (c.shift k) (ts.map (Token.shift k)) (stop.shift k) := by
  induction reads with
  | nil => exact .nil
  | cons read more _ ih =>
    refine .cons ?_ more ih
    rw [next_shift, read]
    rfl

theorem next_at_token (read : c.next = .ok (t, behind)) :
    ∃ blanks rest, c.rest = blanks ++ rest ∧ t.pos = c.pos + blanks.length ∧
      Cursor.next ⟨rest, t.pos⟩ = .ok (t, behind) := by
  refine ⟨c.rest.takeWhile Text.isBlank, c.rest.dropWhile Text.isBlank, ?_, lead_pos read, ?_⟩
  · exact List.takeWhile_append_dropWhile.symm
  · rw [lead_pos read]
    exact (next_skip c).trans read

/-- The text that begins with a token of another text. -/
theorem exists_next_of_drop {text : String} (reads : (ofText text).Reads ts stop)
    (read : stop.next = .ok (t, behind)) :
    ∃ u beyond, (ofText (String.ofList (text.toList.drop t.pos))).next = .ok (u, beyond) ∧
      t = u.shift t.pos ∧ behind = beyond.shift t.pos := by
  obtain ⟨front, whole, -⟩ := reads.exists_front
  obtain ⟨blanks, rest, split, place, again⟩ := next_at_token read
  have front_length : front.length = stop.pos := by
    have total := reads.total
    rw [whole, List.length_append] at total
    simp only [ofText] at total
    omega
  have suffix : text.toList.drop t.pos = rest := by
    have text_split : text.toList = (front ++ blanks) ++ rest := by
      rw [List.append_assoc, ← split]
      exact whole
    rw [text_split]
    exact List.drop_left' (by simp [front_length, place])
  have start : (ofText (String.ofList rest)).shift t.pos = ⟨rest, t.pos⟩ := by
    simp [ofText, shift]
  rw [suffix]
  rw [← start] at again
  obtain ⟨u, beyond, first, same, last⟩ := exists_of_next_shift _ again
  exact ⟨u, beyond, first, same, last⟩

end Cursor

end Reckon
