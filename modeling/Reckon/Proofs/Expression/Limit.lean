import Mathlib
import Reckon.Proofs.Expression.Verdict

namespace Reckon

variable {policy : Policy} {text : String} {ts : List Token} {stop : Cursor}

theorem Scan.fault_tooDeep_iff {s : Scan} {ahead : Except (Unreadable × Cursor) (Token × Cursor)}
    {limit pos : Nat}
    (within : Within policy.maxDepth s) :
    s.fault policy ahead = some (.tooDeep limit pos) ↔ limit = policy.maxDepth ∧
      ∃ brackets t behind, s = .due policy.maxDepth brackets ∧ ahead = .ok (t, behind) ∧ t.pos = pos := by
  constructor
  · intro fault
    rcases fault_cases fault with
      ⟨cause, -, -, other⟩ | ⟨t, behind, rfl, ⟨kind, other⟩ | ⟨same, level, brackets, rfl, full⟩⟩
    · cases other
    · cases other
    · cases same
      cases within with
      | due le _ =>
        cases Nat.le_antisymm le full
        exact ⟨rfl, brackets, t, behind, rfl, rfl, rfl⟩
  · rintro ⟨rfl, brackets, t, behind, rfl, rfl, rfl⟩
    simp [Scan.fault]

theorem Scan.ends_at_limit {brackets : List Nat} (reads : (Cursor.ofText text).Reads ts stop)
    (ran : (due 0 []).run policy.maxDepth ts = some (due policy.maxDepth brackets)) :
    Ends policy.maxDepth (.ofText text) ts stop (due policy.maxDepth brackets) :=
  ⟨reads, ran, fun _ _ _ => step_due_limit _ _ _⟩

theorem FirstDueAt.parse_tooDeep {t : Token} (first : FirstDueAt ts policy.maxDepth) (before : Precedes text ts t) :
    parse policy text = .error (.unparsable (.tooDeep policy.maxDepth t.pos)) := by
  obtain ⟨brackets, ran⟩ := first.exists_run
  obtain ⟨stop, behind, reads, final⟩ := before
  refine (Scan.ends_at_limit reads ran).parse_of_fault ?_
  exact (Scan.fault_tooDeep_iff (Scan.within_of_run ran)).mpr ⟨rfl, brackets, t, behind, rfl, final, rfl⟩

theorem FirstDueAt.parse_unreadable {cause : Unreadable} {place : Cursor} (first : FirstDueAt ts policy.maxDepth)
    (reads : (Cursor.ofText text).Reads ts stop) (torn : stop.next = .error (cause, place)) :
    parse policy text = .error (.unparsable (.unreadable cause)) := by
  obtain ⟨brackets, ran⟩ := first.exists_run
  refine (Scan.ends_at_limit reads ran).parse_of_fault ?_
  rw [torn]
  rfl

theorem exists_firstDueAt_of_tooDeep {limit pos : Nat}
    (failed : parse policy text = .error (.unparsable (.tooDeep limit pos))) :
    limit = policy.maxDepth ∧
      ∃ ts t, Precedes text ts t ∧ FirstDueAt ts policy.maxDepth ∧ t.pos = pos := by
  obtain ⟨ts, stop, s, ends, fault⟩ := parse_eq_unparsable_iff.mp failed
  obtain ⟨same, brackets, t, behind, rfl, final, here⟩ :=
    (Scan.fault_tooDeep_iff (Scan.within_of_run ends.ran)).mp fault
  exact ⟨same, ts, t, ⟨stop, behind, ends.reads, final⟩, .of_run ends.ran, here⟩

/-- Parsing stops as too deep exactly where the first operand is due whose level is the greatest depth. It
does so whatever token stands there, and even at the end of the text, but not at an unreadable character. -/
theorem parse_tooDeep_iff_firstDueAt (policy : Policy) (text : String) :
    (∀ limit pos, parse policy text = .error (.unparsable (.tooDeep limit pos)) ↔
      limit = policy.maxDepth ∧
        ∃ ts t, Precedes text ts t ∧ FirstDueAt ts policy.maxDepth ∧ t.pos = pos) ∧
    (∀ ts stop cause place, (Cursor.ofText text).Reads ts stop → FirstDueAt ts policy.maxDepth →
      stop.next = .error (cause, place) → parse policy text = .error (.unparsable (.unreadable cause))) := by
  constructor
  · intro limit pos
    constructor
    · exact exists_firstDueAt_of_tooDeep
    · rintro ⟨rfl, ts, t, before, first, rfl⟩
      exact first.parse_tooDeep before
  · intro ts stop cause place reads first torn
    exact first.parse_unreadable reads torn

example : parse ⟨false, 1⟩ "-*" = .error (.unparsable (.tooDeep 1 1)) := by cbv

example : parse ⟨false, 1⟩ "-#" = .error (.unparsable (.unreadable ⟨'#', 1⟩)) := by cbv

namespace Scan

variable {trailing : Bool} {m n : Nat} {s : Scan} {ahead : Except (Unreadable × Cursor) (Token × Cursor)}

def Free (limit : Nat) (s : Scan) (ahead : Except (Unreadable × Cursor) (Token × Cursor)) : Prop :=
  ∀ level brackets t behind, s = due level brackets → ahead = .ok (t, behind) → level < limit

theorem free_of_fault (trailing : Bool)
    (other : ∀ limit pos, s.fault ⟨trailing, m⟩ ahead ≠ some (.tooDeep limit pos)) :
    Free m s ahead := by
  rintro level brackets t behind rfl rfl
  rw [← Nat.not_le]
  intro full
  exact other m t.pos (by simp only [fault, if_pos full])

theorem Free.fault_eq (free : Free m s ahead) (le : m ≤ n) :
    s.fault ⟨trailing, n⟩ ahead = s.fault ⟨trailing, m⟩ ahead := by
  cases ahead with
  | error cause => rfl
  | ok read =>
    cases s with
    | due level brackets =>
      have fits : level < m := free _ _ _ _ rfl rfl
      simp only [fault, if_neg (Nat.not_le.mpr fits), if_neg (Nat.not_le.mpr (Nat.lt_of_lt_of_le fits le))]
    | done level brackets => cases brackets <;> rfl

theorem Ends.raise {c : Cursor} (ends : Ends m c ts stop s) (free : Free m s stop.next) (le : m ≤ n) :
    Ends n c ts stop s := by
  refine ⟨ends.reads, run_mono ends.ran le, ?_⟩
  intro t behind final
  cases raised : s.step n t.kind with
  | none => rfl
  | some next =>
    have stepped : Step m s t.kind next := (step_cases raised).relimit fun _ _ here => free _ _ _ _ here final
    cases (ends.stuck t behind final).symm.trans stepped.eq_some

end Scan

/-- An outcome under a limit, where every fault lies at a position or behind it, and only behind it if it is
too deep once more. -/
def Beyond (limit pos : Nat) : Except Failure Expr → Prop
  | .ok _ => True
  | .error (.unparsable (.unreadable cause)) => pos ≤ cause.pos
  | .error (.unparsable (.unexpected _ found)) => pos ≤ found.pos
  | .error (.unparsable (.tooDeep limit' pos')) => limit' = limit ∧ pos < pos'
  | .error (.unreadable _) => False
  | .error (.valueless _) => False

section Raise

variable {trailing : Bool} {m n : Nat}

theorem parse_of_lower_limit {e : Expr} (parsed : parse ⟨trailing, m⟩ text = .ok e) (le : m ≤ n) :
    parse ⟨trailing, n⟩ text = .ok e := by
  obtain ⟨ts, t, before, derived, stops, finish⟩ := parse_eq_ok_iff.mp parsed
  exact parse_eq_ok_iff.mpr ⟨ts, t, before, derived.mono le, stops, finish⟩

theorem parse_eq_of_not_tooDeep (le : m ≤ n)
    (other : ∀ limit pos, parse ⟨trailing, m⟩ text ≠ .error (.unparsable (.tooDeep limit pos))) :
    parse ⟨trailing, n⟩ text = parse ⟨trailing, m⟩ text := by
  cases answer : parse ⟨trailing, m⟩ text with
  | ok e => exact parse_of_lower_limit answer le
  | error failure =>
    obtain ⟨err, ts, stop, s, rfl, ends, fault⟩ := exists_ends_of_failed answer
    have free : s.Free m stop.next := by
      refine Scan.free_of_fault trailing ?_
      intro limit pos deep
      cases fault.symm.trans deep
      exact other limit pos answer
    exact (ends.raise free le).parse_of_fault ((free.fault_eq le).trans fault)

theorem beyond_of_tooDeep {limit pos : Nat} (lt : m < n)
    (failed : parse ⟨trailing, m⟩ text = .error (.unparsable (.tooDeep limit pos))) :
    Beyond n pos (parse ⟨trailing, n⟩ text) := by
  obtain ⟨-, ts, t, ⟨stop, behind, reads, final⟩, first, rfl⟩ := exists_firstDueAt_of_tooDeep failed
  obtain ⟨brackets, ran⟩ := first.exists_run
  have further := Scan.run_mono ran (Nat.le_of_lt lt)
  cases answer : parse ⟨trailing, n⟩ text with
  | ok e => trivial
  | error failure =>
    obtain ⟨err, us, stop', s, rfl, ends, fault⟩ := exists_ends_of_failed answer
    obtain ⟨more, rfl, between⟩ := ends.reaches reads further
    cases more with
    | nil =>
      -- The higher limit lets the operand begin, so it is not too deep again.
      cases between
      rw [List.append_nil] at ends
      cases Option.some.inj (ends.ran.symm.trans further)
      rw [final] at fault
      have fits : ¬ n ≤ m := Nat.not_le.mpr lt
      simp only [Scan.fault, if_neg fits, Option.some.injEq] at fault
      subst fault
      exact Nat.le_refl _
    | cons u more =>
      have behind_lt := between.pos_lt final
      rcases Scan.fault_cases fault with ⟨cause, place, torn, rfl⟩ | ⟨u, beyond, read, ⟨kind, rfl⟩ | ⟨rfl, -⟩⟩
      · exact Nat.le_of_lt (Nat.lt_of_lt_of_le behind_lt (Cursor.pos_le_unreadable torn))
      · exact Nat.le_of_lt (Nat.lt_of_lt_of_le behind_lt (Cursor.pos_le_next read))
      · exact ⟨rfl, Nat.lt_of_lt_of_le behind_lt (Cursor.pos_le_next read)⟩

/-- A higher limit changes nothing but what is too deep, and what is too deep is read further. -/
theorem parse_of_higher_limit (trailing : Bool) (text : String) {m n : Nat} (lt : m < n) :
    ((∀ limit pos, parse ⟨trailing, m⟩ text ≠ .error (.unparsable (.tooDeep limit pos))) →
      parse ⟨trailing, n⟩ text = parse ⟨trailing, m⟩ text) ∧
    (∀ limit pos, parse ⟨trailing, m⟩ text = .error (.unparsable (.tooDeep limit pos)) →
      Beyond n pos (parse ⟨trailing, n⟩ text)) := by
  constructor
  · intro other
    exact parse_eq_of_not_tooDeep (Nat.le_of_lt lt) other
  · intro limit pos failed
    exact beyond_of_tooDeep lt failed

theorem tooDeep_again_behind_sign :
    1 < 2 ∧ parse ⟨false, 1⟩ "-(" = .error (.unparsable (.tooDeep 1 1)) ∧
      Beyond 2 1 (parse ⟨false, 2⟩ "-(") := by
  have failed : parse ⟨false, 1⟩ "-(" = .error (.unparsable (.tooDeep 1 1)) := by cbv
  exact ⟨by decide, failed, (parse_of_higher_limit false "-(" (by decide)).2 1 1 failed⟩

end Raise

end Reckon
