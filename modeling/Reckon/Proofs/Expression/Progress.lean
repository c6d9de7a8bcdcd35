import Reckon.Proofs.Expression.Verdict
import Reckon.Proofs.Reader.Runs

namespace Reckon

theorem Begins.room_pos {room : Nat} {ts : List Token} {w : Missing} (begun : Begins .sum room ts w)
    (taken : ts ≠ []) : 0 < room := by
  obtain ⟨t, us, rfl⟩ := List.exists_cons_of_ne_nil taken
  obtain ⟨s, ran, -⟩ := begun.scan (.outermost room) (Nat.le_refl room)
  have nothing : (Scan.due 0 []).run room [] = some (.due 0 []) := rfl
  obtain ⟨next, stepped⟩ := Scan.step_of_run nothing ran
  exact stepped.due_lt rfl

namespace Reader

/-- The token in view cannot be taken, because an unreadable character stands behind it and has been met. -/
structure Stuck (cause : Unreadable) (r : Reader) : Prop where
  torn : r.cursor.next = .error (cause, r.cursor)
  place : ∃ c : Cursor, r.Views c
  outermost : r.depth = 0

def stuckAnswer (cause : Unreadable) (r : Reader) : SyntaxError :=
  if r.current.kind.beginsOperand then .unreadable cause else .unexpected .integer r.current

variable {policy : Policy} {text : String} {c : Cursor} {r q : Reader} {ts : List Token} {cause : Unreadable}

theorem Stuck.takes_nothing (stuck : r.Stuck cause) (takes : r.Takes ts q) : q = r := by
  cases takes with
  | nil => rfl
  | cons _ taken _ => cases stuck.torn.symm.trans (advance_eq_ok_iff.mp taken).1

theorem Stuck.leftBy (stuck : r.Stuck cause) (outcome : Except SyntaxError Expr) : r.leftBy outcome = r := by
  unfold Reader.leftBy
  split
  · rw [← Cursor.eq_skip_of_torn stuck.torn]
  · rfl

theorem Stuck.read (stuck : r.Stuck cause) (fits : 0 < policy.maxDepth) :
    r.read policy = (.error (r.stuckAnswer cause), r) := by
  obtain ⟨c, views⟩ := stuck.place
  have frozen : (r.read policy).2 = r := by
    obtain ⟨ts, stop, last, behind, reading⟩ := read_answers policy views stuck.outermost
    rw [reading.left, stuck.takes_nothing reading.takes, stuck.leftBy]
  obtain ⟨behind, first, ahead⟩ := views.exists_next
  have torn := ahead.symm.trans stuck.torn
  refine Prod.ext ?_ frozen
  -- The scan comes to its end behind the token in view if an operand can begin with it, and else in front of it.
  unfold stuckAnswer
  split
  · rename_i begins
    obtain ⟨next, stepped⟩ := Scan.exists_step_of_begins fits begins []
    have more := Cursor.more_of_torn first torn
    have ends : Scan.Ends policy.maxDepth c [r.current] behind next :=
      .of_error (.cons first more .nil) (Scan.run_cons stepped []) torn
    refine ends.read_of_fault ?_ views stuck.outermost
    rw [torn]
    rfl
  · rename_i other
    have ends : Scan.Ends policy.maxDepth c [] c (.due 0 []) := by
      refine .of_not_step .nil rfl first ?_
      intro next stepped
      exact other stepped.begins
    refine ends.read_of_fault ?_ views stuck.outermost
    rw [first]
    simp only [Scan.fault, if_neg (Nat.not_le.mpr fits)]

theorem Stuck.later (stuck : r.Stuck cause) (fits : 0 < policy.maxDepth) (n : Nat) : r.later policy n = r := by
  induction n with
  | zero => rfl
  | succ n ih => rw [Reader.later, stuck.read fits, ih]

theorem StandsIn.stuck (stands : r.StandsIn text) (torn : (r.read policy).1 = .error (.unreadable cause)) :
    (r.read policy).2.Stuck cause ∧ 0 < policy.maxDepth := by
  obtain ⟨us, c, before, views⟩ := stands.place
  obtain ⟨ts, stop, last, behind, reading⟩ := read_answers policy views stands.outermost
  obtain ⟨place, next, left, w, begun⟩ := reading.torn torn
  refine ⟨⟨?_, ⟨stop, reading.views⟩, stands.read.outermost⟩, begun.room_pos (by simp)⟩
  rw [left]
  exact (Cursor.next_of_torn next).trans next

theorem exists_integer_taken {e : Expr} (views : r.Views c) (outermost : r.depth = 0)
    (found : (r.read policy).1 = .ok e) :
    r.current.pos < (r.read policy).2.current.pos ∧
      ∃ ts, r.Takes ts (r.read policy).2 ∧ ∃ t ∈ ts, t.kind = .integer := by
  obtain ⟨ts, stop, last, behind, reading⟩ := read_answers policy views outermost
  obtain ⟨derived, -, left⟩ := reading.found found
  obtain ⟨t, member, kind⟩ := derived.exists_integer
  rw [left]
  refine ⟨?_, ts, reading.takes, t, member, kind⟩
  cases ts with
  | nil => cases member
  | cons u us =>
    obtain ⟨_, first, -⟩ := views.exists_next
    calc r.current.pos < stop.pos := reading.reads.pos_lt first
      _ ≤ last.current.pos := Cursor.pos_le_next reading.final

theorem exists_reads_countP (policy : Policy) (views : r.Views c) (outermost : r.depth = 0) :
    ∃ ts stop, c.Reads ts stop ∧ (r.read policy).2.Views stop ∧ (r.read policy).2.depth = 0 ∧
      (if (r.read policy).1.isOk then 1 else 0) ≤ ts.countP (·.kind = .integer) := by
  obtain ⟨ts, stop, last, behind, reading⟩ := read_answers policy views outermost
  refine ⟨ts, stop, reading.reads, reading.views, reading.depth_eq.trans outermost, ?_⟩
  have answers := reading.answers
  generalize (r.read policy).1 = outcome at answers ⊢
  cases answers with
  | found derived _ _ =>
    obtain ⟨t, member, kind⟩ := derived.exists_integer
    exact List.countP_pos_iff.mpr ⟨t, member, by simpa using kind⟩
  | leftOver | halted => exact Nat.zero_le _

theorem answers_countP_le (views : r.Views c) (outermost : r.depth = 0) (n : Nat) :
    (r.answers policy n).countP (·.isOk) ≤ c.stream.countP (·.kind = .integer) := by
  induction n generalizing r c with
  | zero => exact Nat.zero_le _
  | succ n ih =>
    obtain ⟨ts, stop, reads, later, depth, cost⟩ := exists_reads_countP policy views outermost
    have further := ih later depth
    calc (r.answers policy (n + 1)).countP (·.isOk)
        = ((r.read policy).2.answers policy n).countP (·.isOk) + (if (r.read policy).1.isOk then 1 else 0) :=
          List.countP_cons
      _ ≤ stop.stream.countP (·.kind = .integer) + ts.countP (·.kind = .integer) := Nat.add_le_add further cost
      _ = c.stream.countP (·.kind = .integer) := by rw [reads.stream, List.countP_append, Nat.add_comm]

theorem UsedOn.answers_countP_le (used : UsedOn policy text r) (n : Nat) :
    (r.answers policy n).countP (·.isOk) ≤ (Cursor.ofText text).stream.countP (·.kind = .integer) := by
  obtain ⟨outermost, ts, stop, reads, views⟩ := used.standsIn
  calc (r.answers policy n).countP (·.isOk)
      ≤ stop.stream.countP (·.kind = .integer) := Reader.answers_countP_le views outermost n
    _ ≤ (Cursor.ofText text).stream.countP (·.kind = .integer) := by
      rw [reads.stream, List.countP_append]
      exact Nat.le_add_left _ _

end Reader

/-- An unreadable character that a reader has reported holds it up for ever: the token in front of it stays in
view, and it is reported again if this token begins an operand, and the token itself if it does not. Every
expression that is found takes an integer, so no more are found than there are integers in the text. -/
theorem reading_advances (policy : Policy) (text : String) :
    (∀ r, Reader.UsedOn policy text r → ∀ cause, (r.read policy).1 = .error (.unreadable cause) → ∀ n,
      ((r.read policy).2.later policy n).current = (r.read policy).2.current ∧
      (((r.read policy).2.later policy n).read policy).1 = .error ((r.read policy).2.stuckAnswer cause)) ∧
    (∀ r, Reader.UsedOn policy text r → ∀ e, (r.read policy).1 = .ok e →
      r.current.pos < (r.read policy).2.current.pos ∧
      ∃ ts, r.Takes ts (r.read policy).2 ∧ ∃ t ∈ ts, t.kind = .integer) ∧
    ∀ r, Reader.UsedOn policy text r → ∀ n,
      (r.answers policy n).countP (·.isOk) ≤ (Cursor.ofText text).stream.countP (·.kind = .integer) := by
  refine ⟨?_, ?_, ?_⟩
  · intro r used cause torn n
    have ⟨stuck, fits⟩ := used.standsIn.stuck torn
    rw [stuck.later fits n, stuck.read fits]
    exact ⟨rfl, rfl⟩
  · intro r used e found
    obtain ⟨outermost, us, c, before, views⟩ := used.standsIn
    exact Reader.exists_integer_taken views outermost found
  · intro r used n
    exact used.answers_countP_le n

end Reckon
