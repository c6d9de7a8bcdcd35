import Mathlib
import Reckon.Proofs.Expression.Verdict
import Reckon.Proofs.Reader.Runs
import Reckon.Proofs.Token.Shift

namespace Reckon

def SyntaxError.shift (k : Nat) : SyntaxError → SyntaxError
  | unreadable cause => unreadable (cause.shift k)
  | unexpected expected found => unexpected expected (found.shift k)
  | tooDeep limit pos => tooDeep limit (pos + k)

def Reader.shift (k : Nat) (r : Reader) : Reader :=
  { r with current := r.current.shift k, cursor := r.cursor.shift k }

theorem Token.map_content_shift (k : Nat) (ts : List Token) :
    (ts.map (shift k)).map content = ts.map content := by
  rw [List.map_map]
  rfl

theorem Token.map_kind_shift (k : Nat) (ts : List Token) : (ts.map (shift k)).map kind = ts.map kind := by
  rw [List.map_map]
  rfl

namespace Scan

variable {limit : Nat} {c stop : Cursor} {ts : List Token} {s : Scan}

theorem fault_shift (policy : Policy) (k : Nat) (s : Scan)
    (ahead : Except (Unreadable × Cursor) (Token × Cursor)) :
    s.fault policy (Cursor.shiftRead k ahead) = (s.fault policy ahead).map (SyntaxError.shift k) := by
  cases ahead with
  | error cause => rfl
  | ok read =>
    cases s with
    | due level brackets =>
      simp only [Cursor.shiftRead, fault, Option.map_some, apply_ite (SyntaxError.shift k)]
      rfl
    | done level brackets =>
      cases brackets with
      | nil =>
        simp only [Cursor.shiftRead, fault, apply_ite (Option.map (SyntaxError.shift k))]
        rfl
      | cons opened outer => rfl

theorem Ends.shift (ends : Ends limit c ts stop s) (k : Nat) :
    Ends limit (c.shift k) (ts.map (Token.shift k)) (stop.shift k) s := by
  refine ⟨ends.reads.shift k, ?_, ?_⟩
  · rw [run_of_kinds limit _ (Token.map_kind_shift k ts)]
    exact ends.ran
  · intro u beyond read
    obtain ⟨t, behind, first, rfl, -⟩ := Cursor.exists_of_next_shift k read
    exact ends.stuck t behind first

end Scan

namespace Reader

variable {policy : Policy} {text : String} {c : Cursor} {r q : Reader}

theorem read_shift (policy : Policy) (k : Nat) (views : r.Views c) (outermost : r.depth = 0)
    (elsewhere : q.Views (c.shift k)) (outermost' : q.depth = 0) :
    (q.read policy).1 = (r.read policy).1.mapError (SyntaxError.shift k) := by
  obtain ⟨ts, stop, last, behind, reading⟩ := read_answers policy views outermost
  have final : (stop.shift k).next = .ok (last.current.shift k, behind.shift k) := by
    rw [Cursor.next_shift, reading.final]
    rfl
  obtain ⟨last', takes, current⟩ := exists_takes_of_reads (reading.reads.shift k) elsewhere final
  have kind : last'.current.kind = last.current.kind := by rw [current]; rfl
  have answers := reading.answers
  generalize (r.read policy).1 = outcome at answers ⊢
  -- The grammar sees no positions, so a tree is found again. A fault is that of the place where the scan ends.
  cases answers with
  | found derived stops accepted =>
    have same := derived.of_content (Token.map_content_shift k ts)
    rw [← kind] at stops accepted
    rw [read_of_derives same takes stops elsewhere outermost']
    exact if_pos accepted
  | leftOver derived stops refused =>
    have same := derived.of_content (Token.map_content_shift k ts)
    rw [← kind] at stops refused
    rw [read_of_derives same takes stops elsewhere outermost', if_neg refused, current]
    rfl
  | halted halts =>
    obtain ⟨us, place, s, ends, fault⟩ := halts.exists_ends reading.reads reading.final
    refine (ends.shift k).read_of_fault ?_ elsewhere outermost'
    rw [Cursor.next_shift, Scan.fault_shift, fault]
    rfl

def remainder (text : String) (r : Reader) : String :=
  String.ofList (text.toList.drop r.current.pos)

/-- The reader is a fresh one at another place, or what such a one has become because it could not get on. -/
theorem StandsIn.exists_fresh (stands : r.StandsIn text) :
    ∃ fresh, Reader.start (.ofText (r.remainder text)) = .ok fresh ∧
      (r = fresh.shift r.current.pos ∨ ∃ cause, (fresh.shift r.current.pos).advance = .error (cause, r)) ∧
      r.Views ((Cursor.ofText (r.remainder text)).shift r.current.pos) := by
  obtain ⟨outermost, ts, stop, reads, beyond, read, place⟩ := stands
  obtain ⟨t, behind, first, current, cursor⟩ := Cursor.exists_next_of_drop reads read
  have moved : (Reader.mk t behind 0).shift r.current.pos = { r with cursor := beyond } := by
    rw [Reader.shift, ← current, ← cursor, ← outermost]
  refine ⟨⟨t, behind, 0⟩, start_eq_ok_iff.mpr ⟨first, rfl⟩, ?_, beyond, ?_, place⟩
  · rw [moved]
    rcases place with here | ⟨cause, torn⟩
    · exact .inl (by rw [← here])
    · have met : ({ r with cursor := beyond } : Reader).cursor.next = .error (cause, r.cursor) := torn
      exact .inr ⟨_, advance_of_torn met⟩
  · rw [Cursor.next_shift, remainder, first, Cursor.shiftRead, ← current, ← cursor]

end Reader

/-- However a reader has come about and whatever it has been used for, it answers as a fresh reader of the text
from the token in view on, with the position of this token added to every position. It is that reader, or what that
reader has become because an unreadable character stands behind the token in view. -/
theorem used_reads_as_fresh {policy : Policy} {text : String} {r : Reader} (used : Reader.UsedOn policy text r) :
    ∃ fresh, Reader.start (.ofText (r.remainder text)) = .ok fresh ∧
      (r = fresh.shift r.current.pos ∨ ∃ cause, (fresh.shift r.current.pos).advance = .error (cause, r)) ∧
      (r.read policy).1 = (fresh.read policy).1.mapError (SyntaxError.shift r.current.pos) := by
  obtain ⟨fresh, started, same, views⟩ := used.standsIn.exists_fresh
  obtain ⟨first, outermost⟩ := Reader.start_eq_ok_iff.mp started
  exact ⟨fresh, started, same, Reader.read_shift policy _ (.of_next first) outermost views used.standsIn.outermost⟩

theorem used_reads_as_fresh_behind_tooDeep :
    ∃ r fresh, Reader.UsedOn ⟨false, 1⟩ "-(+" r ∧ Reader.start (.ofText "(+") = .ok fresh ∧ r = fresh.shift 1 ∧
      (fresh.read ⟨false, 1⟩).1 = .error (.tooDeep 1 1) ∧ (r.read ⟨false, 1⟩).1 = .error (.tooDeep 1 2) := by
  have started : Reader.UsedOn ⟨false, 1⟩ "-(+" ⟨.symbol .minus "-" 0, ⟨['(', '+'], 1⟩, 0⟩ :=
    @Reader.UsedOn.start _ _ [] _ rfl
  have used := started.read
  have left : (Reader.read ⟨false, 1⟩ ⟨.symbol .minus "-" 0, ⟨['(', '+'], 1⟩, 0⟩).2 =
      ⟨.symbol .opening "(" 1, ⟨['+'], 2⟩, 0⟩ := by cbv
  rw [left] at used
  obtain ⟨fresh, start, -, answered⟩ := used_reads_as_fresh used
  have fresh_eq : Reader.start (.ofText "(+") = .ok ⟨.symbol .opening "(" 0, ⟨['+'], 1⟩, 0⟩ := rfl
  cases Except.ok.inj (fresh_eq.symm.trans start)
  have answer : (Reader.read ⟨false, 1⟩ ⟨.symbol .opening "(" 0, ⟨['+'], 1⟩, 0⟩).1 = .error (.tooDeep 1 1) := by cbv
  refine ⟨_, _, used, start, rfl, answer, ?_⟩
  rw [answered, answer]
  rfl

end Reckon
