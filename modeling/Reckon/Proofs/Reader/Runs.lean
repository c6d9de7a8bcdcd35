import Reckon.Proofs.Reader.Answers
import Reckon.Proofs.Token.Stream

namespace Reckon.Reader

def later (policy : Policy) : Nat → Reader → Reader
  | 0, r => r
  | n + 1, r => later policy n (r.read policy).2

def answers (policy : Policy) : Nat → Reader → List (Except SyntaxError Expr)
  | 0, _ => []
  | n + 1, r => (r.read policy).1 :: answers policy n (r.read policy).2

/-- The readers of a text. They are made from a scanner of the text, whatever it has been asked for, and
remain readers of the text whatever they are used for. -/
inductive UsedOn (policy : Policy) (text : String) : Reader → Prop where
  | start {requests : List Scanner.Request} {r : Reader}
      (started : Reader.start ((Scanner.ofText text).serveAll requests).cursor = .ok r) : UsedOn policy text r
  | read {r : Reader} (used : UsedOn policy text r) : UsedOn policy text (r.read policy).2

theorem start_eq_ok_iff {c : Cursor} {r : Reader} :
    Reader.start c = .ok r ↔ c.next = .ok (r.current, r.cursor) ∧ r.depth = 0 := by
  unfold Reader.start
  constructor
  · intro started
    split at started
    · cases started
    · rename_i read
      cases started
      exact ⟨read, rfl⟩
  · rintro ⟨read, depth⟩
    rw [read]
    simp only [← depth]

theorem start_eq_error {c : Cursor} {e : SyntaxError} (torn : Reader.start c = .error e) :
    ∃ cause place, e = .unreadable cause ∧ c.next = .error (cause, place) := by
  unfold Reader.start at torn
  split at torn
  · rename_i cause place read
    cases torn
    exact ⟨cause, place, rfl, read⟩
  · cases torn

/-- The reader stands between two expressions, and what it has in view is a token of the text. -/
structure StandsIn (text : String) (r : Reader) : Prop where
  outermost : r.depth = 0
  place : ∃ ts stop, (Cursor.ofText text).Reads ts stop ∧ r.Views stop

variable {policy : Policy} {text : String} {r : Reader}

theorem StandsIn.read (stands : r.StandsIn text) : (r.read policy).2.StandsIn text := by
  obtain ⟨outermost, us, c, before, views⟩ := stands
  obtain ⟨ts, stop, last, behind, reading⟩ := read_answers policy views outermost
  exact ⟨reading.depth_eq.trans outermost, us ++ ts, stop, before.append reading.reads, reading.views⟩

theorem UsedOn.standsIn (used : UsedOn policy text r) : r.StandsIn text := by
  induction used with
  | @start requests r started =>
    obtain ⟨read, depth⟩ := start_eq_ok_iff.mp started
    obtain ⟨ts, stop, reads, same⟩ := Scanner.serveAll_follows text requests
    exact ⟨depth, ts, stop, reads, .of_next (same.symm.trans read)⟩
  | read _ ih => exact ih.read

end Reckon.Reader
