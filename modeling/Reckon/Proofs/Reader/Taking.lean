import Reckon.Proofs.Token.Reading
import Reckon.Reader.Descent

namespace Reckon

def Token.Valued (t : Token) : Prop :=
  t.kind = .integer → ∃ value, t.number? = some value

theorem Cursor.next_valued {c behind : Cursor} {t : Token} (read : c.next = .ok (t, behind)) : t.Valued := by
  intro kind
  obtain ⟨value, pos, rfl⟩ := next_integer read kind
  exact ⟨value, rfl⟩

namespace Reader

theorem operand_of_full {limit : Nat} {r : Reader} (full : limit ≤ r.depth) :
    operand limit r = .failed (.tooDeep limit r.current.pos) r := by
  rw [operand]
  exact if_pos full

theorem operand_of_fits {limit : Nat} {r : Reader} (fits : ¬ limit ≤ r.depth) :
    operand limit r = (signed limit { r with depth := r.depth + 1 }).close := by
  rw [operand]
  exact if_neg fits

theorem advance_eq_ok_iff {r q : Reader} :
    r.advance = .ok q ↔ r.cursor.next = .ok (q.current, q.cursor) ∧ q.depth = r.depth := by
  unfold advance
  constructor
  · intro taken
    split at taken
    · cases taken
    · rename_i read
      cases taken
      exact ⟨read, rfl⟩
  · rintro ⟨read, depth⟩
    rw [read]
    simp only [← depth]

theorem advance_of_torn {r : Reader} {place : Cursor} {cause : Unreadable}
    (torn : r.cursor.next = .error (cause, place)) :
    r.advance = .error (.unreadable cause, { r with cursor := place }) := by
  rw [advance, torn]

theorem advance_eq_error {r q : Reader} {e : SyntaxError} (torn : r.advance = .error (e, q)) :
    ∃ cause place, e = .unreadable cause ∧ r.cursor.next = .error (cause, place) ∧ q = { r with cursor := place } := by
  unfold advance at torn
  split at torn
  · rename_i cause place read
    cases torn
    exact ⟨cause, place, rfl, read, rfl⟩
  · cases torn

theorem advance_error_depth {r q : Reader} {e : SyntaxError} (torn : r.advance = .error (e, q)) :
    q.depth = r.depth := by
  obtain ⟨_, _, -, -, rfl⟩ := advance_eq_error torn
  rfl

theorem expect_eq_ok_iff {kind : Kind} {r q : Reader} :
    r.expect kind = .ok q ↔ r.current.kind = kind ∧ r.advance = .ok q := by
  unfold expect
  split
  · simp_all
  · simp_all

theorem advance_valued {r q : Reader} (taken : r.advance = .ok q) : q.current.Valued :=
  Cursor.next_valued (advance_eq_ok_iff.mp taken).1

/-- The reader that is left by a reading that ends in this way with nothing more to take. The blanks in front of an
unreadable character have been passed by then. -/
def leftBy (r : Reader) : Except SyntaxError Expr → Reader
  | .error (.unreadable _) => { r with cursor := r.cursor.skip Text.isBlank }
  | _ => r

theorem leftBy_atDepth (r : Reader) (outcome : Except SyntaxError Expr) (depth : Nat) :
    leftBy { r with depth } outcome = { r.leftBy outcome with depth } := by
  unfold leftBy
  split <;> rfl

theorem leftBy_depth (r : Reader) (outcome : Except SyntaxError Expr) : (r.leftBy outcome).depth = r.depth := by
  unfold leftBy
  split <;> rfl

theorem leftBy_of_torn {r : Reader} {place : Cursor} {cause : Unreadable}
    (torn : r.cursor.next = .error (cause, place)) :
    r.leftBy (.error (.unreadable cause)) = { r with cursor := place } := by
  rw [leftBy, Cursor.eq_skip_of_torn torn]

/-- What is in view is the token at the place `c`, and the reader stands behind it, or at the unreadable character
behind it once that has been asked for. -/
def Views (r : Reader) (c : Cursor) : Prop :=
  ∃ behind, c.next = .ok (r.current, behind) ∧
    (r.cursor = behind ∨ ∃ cause, behind.next = .error (cause, r.cursor))

namespace Views

variable {c d place : Cursor} {r q : Reader} {cause : Unreadable}

theorem of_next (read : c.next = .ok (r.current, r.cursor)) : r.Views c :=
  ⟨_, read, .inl rfl⟩

theorem of_advance (taken : r.advance = .ok q) : q.Views r.cursor :=
  of_next (advance_eq_ok_iff.mp taken).1

theorem of_next_eq (views : r.Views c) (same : c.next = d.next) : r.Views d := by
  rwa [Views, ← same]

theorem exists_next (views : r.Views c) :
    ∃ behind, c.next = .ok (r.current, behind) ∧ r.cursor.next = behind.next := by
  obtain ⟨behind, read, here | ⟨cause, torn⟩⟩ := views
  · exact ⟨behind, read, by rw [here]⟩
  · exact ⟨behind, read, Cursor.next_of_torn torn⟩

theorem of_torn (views : r.Views c) (torn : r.cursor.next = .error (cause, place)) :
    Views { r with cursor := place } c := by
  obtain ⟨behind, read, same⟩ := views.exists_next
  exact ⟨behind, read, .inr ⟨cause, same.symm.trans torn⟩⟩

theorem next_of_finish (views : r.Views c) (last : r.current.kind = .finish) :
    c.next = .ok (r.current, r.cursor) := by
  obtain ⟨behind, read, here | ⟨cause, torn⟩⟩ := views
  · rwa [here]
  · exact absurd last (Cursor.more_of_torn read torn)

theorem again_of_finish (views : r.Views c) (last : r.current.kind = .finish) :
    r.cursor.next = .ok (r.current, r.cursor) := by
  have read := views.next_of_finish last
  exact (Cursor.next_of_finish read last).trans read

end Views

/-- Taking the tokens of a list, none of which is the finishing one, leads from one reader to
another. -/
inductive Takes : Reader → List Token → Reader → Prop where
  | nil {r : Reader} : Takes r [] r
  | cons {r q stop : Reader} {ts : List Token} (more : r.current.kind ≠ .finish) (taken : r.advance = .ok q)
      (further : Takes q ts stop) : Takes r (r.current :: ts) stop

namespace Takes

theorem single {r q : Reader} (more : r.current.kind ≠ .finish) (taken : r.advance = .ok q) :
    r.Takes [r.current] q :=
  .cons more taken .nil

theorem append {r middle stop : Reader} {ts us : List Token} (first : r.Takes ts middle)
    (second : middle.Takes us stop) : r.Takes (ts ++ us) stop := by
  induction first with
  | nil => exact second
  | cons more taken _ ih => exact .cons more taken (ih second)

theorem depth_eq {r stop : Reader} {ts : List Token} (takes : r.Takes ts stop) : stop.depth = r.depth := by
  induction takes with
  | nil => rfl
  | cons _ taken _ ih => rw [ih, (advance_eq_ok_iff.mp taken).2]

theorem atDepth {r stop : Reader} {ts : List Token} (takes : r.Takes ts stop) (depth : Nat) :
    Takes { r with depth } ts { stop with depth } := by
  induction takes with
  | nil => exact .nil
  | @cons r q _ _ more taken _ ih =>
    have read := (advance_eq_ok_iff.mp taken).1
    have lifted : advance { r with depth } = .ok { q with depth } := advance_eq_ok_iff.mpr ⟨read, rfl⟩
    exact .cons more lifted ih

end Takes

theorem takes_of_reads {c stop : Cursor} {r last : Reader} {ts : List Token} (reads : c.Reads ts stop)
    (first : c.next = .ok (r.current, r.cursor)) (final : stop.next = .ok (last.current, last.cursor))
    (depth : last.depth = r.depth) : r.Takes ts last := by
  obtain ⟨current, cursor, level⟩ := r
  obtain ⟨current', cursor', level'⟩ := last
  cases depth
  induction reads generalizing current cursor with
  | nil =>
    cases Except.ok.inj (first.symm.trans final)
    exact .nil
  | cons read more further ih =>
    cases Except.ok.inj (first.symm.trans read)
    obtain ⟨u, beyond, next⟩ := further.exists_next final
    have taken : advance ⟨current, cursor, level⟩ = .ok ⟨u, beyond, level⟩ :=
      advance_eq_ok_iff.mpr ⟨next, rfl⟩
    exact .cons more taken (ih u beyond next final)

theorem exists_takes_of_reads {c stop : Cursor} {r : Reader} {t : Token} {ts : List Token} {beyond : Cursor}
    (reads : c.Reads ts stop) (views : r.Views c) (final : stop.next = .ok (t, beyond)) :
    ∃ last, r.Takes ts last ∧ last.current = t := by
  induction reads generalizing r with
  | nil =>
    obtain ⟨behind, read, -⟩ := views.exists_next
    cases Except.ok.inj (read.symm.trans final)
    exact ⟨r, .nil, rfl⟩
  | cons read more further ih =>
    obtain ⟨behind, first, same⟩ := views.exists_next
    cases Except.ok.inj (first.symm.trans read)
    obtain ⟨u, place, next⟩ := further.exists_next final
    have taken : r.advance = .ok { r with current := u, cursor := place } :=
      advance_eq_ok_iff.mpr ⟨same.trans next, rfl⟩
    obtain ⟨last, takes, current⟩ := ih ((Views.of_advance taken).of_next_eq same) final
    exact ⟨last, .cons more taken takes, current⟩

theorem reads_of_takes {c : Cursor} {r last : Reader} {ts : List Token} (takes : r.Takes ts last)
    (views : r.Views c) : ∃ stop, c.Reads ts stop ∧ last.Views stop := by
  induction takes generalizing c with
  | nil => exact ⟨c, .nil, views⟩
  | cons more taken _ ih =>
    obtain ⟨behind, read, same⟩ := views.exists_next
    obtain ⟨stop, reads, final⟩ := ih ((Views.of_advance taken).of_next_eq same)
    exact ⟨stop, .cons read more reads, final⟩

end Reader

end Reckon
