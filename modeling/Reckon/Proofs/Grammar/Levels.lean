import Mathlib.Data.List.Induction
import Reckon.Proofs.Grammar.Scan

namespace Reckon

namespace Scan

variable {limit bound : Nat} {kind : Kind} {s next : Scan}

inductive Within (limit : Nat) : Scan → Prop where
  | due {level brackets} (le : level ≤ limit) (outer : ∀ opened ∈ brackets, opened < limit) :
      Within limit (due level brackets)
  | done {level brackets} (lt : level < limit) (outer : ∀ opened ∈ brackets, opened < limit) :
      Within limit (done level brackets)

theorem chainLevel_le {brackets : List Nat} (outer : ∀ opened ∈ brackets, opened < limit) :
    chainLevel brackets ≤ limit := by
  cases brackets with
  | nil => exact Nat.zero_le _
  | cons opened _ => exact outer opened (List.mem_cons_self ..)

theorem Step.within (stepped : Step limit s kind next) (within : Within limit s) : Within limit next := by
  cases stepped with
  | sign fits _ =>
    cases within with
    | due _ outer => exact .due fits outer
  | opening fits =>
    cases within with
    | due _ outer => exact .due fits (List.forall_mem_cons.mpr ⟨fits, outer⟩)
  | integer fits =>
    cases within with
    | due _ outer => exact .done fits outer
  | chain _ =>
    cases within with
    | done _ outer => exact .due (chainLevel_le outer) outer
  | power =>
    cases within with
    | done lt outer => exact .due lt outer
  | closing =>
    cases within with
    | done _ outer =>
      have both := List.forall_mem_cons.mp outer
      exact .done both.1 both.2

theorem run_within {ts : List Token} (ran : s.run limit ts = some next) (within : Within limit s) :
    Within limit next := by
  induction ts generalizing s with
  | nil =>
    cases ran
    exact within
  | cons t ts ih =>
    obtain ⟨middle, stepped, rest⟩ := Option.bind_eq_some_iff.mp ran
    exact ih rest ((step_cases stepped).within within)

theorem within_of_run {ts : List Token} (ran : (due 0 []).run limit ts = some s) : Within limit s :=
  run_within ran (.due (Nat.zero_le _) (by simp))

theorem Step.relimit (stepped : Step limit s kind next)
    (fits : ∀ level brackets, s = due level brackets → level < bound) : Step bound s kind next := by
  cases stepped with
  | sign _ sign => exact .sign (fits _ _ rfl) sign
  | opening _ => exact .opening (fits _ _ rfl)
  | integer _ => exact .integer (fits _ _ rfl)
  | chain link => exact .chain link
  | power => exact .power
  | closing => exact .closing

theorem Step.due_lt {level : Nat} {brackets : List Nat} (stepped : Step limit s kind next)
    (here : s = due level brackets) : level < limit := by
  subst here
  cases stepped with
  | sign fits _ | opening fits | integer fits => exact fits

theorem Step.mono (stepped : Step limit s kind next) (le : limit ≤ bound) : Step bound s kind next := by
  refine stepped.relimit ?_
  intro level brackets here
  exact Nat.lt_of_lt_of_le (stepped.due_lt here) le

theorem run_mono {ts : List Token} (ran : s.run limit ts = some next) (le : limit ≤ bound) :
    s.run bound ts = some next := by
  induction ts generalizing s with
  | nil => exact ran
  | cons t ts ih =>
    obtain ⟨middle, stepped, rest⟩ := Option.bind_eq_some_iff.mp ran
    exact (run_cons ((step_cases stepped).mono le) ts).trans (ih rest)

theorem run_unique {other : Scan} {ts : List Token} (ran : s.run limit ts = some next)
    (ran' : s.run bound ts = some other) : other = next := by
  have high := run_mono ran (Nat.le_max_left limit bound)
  have high' := run_mono ran' (Nat.le_max_right limit bound)
  exact Option.some.inj (high'.symm.trans high)

theorem step_due_limit (limit : Nat) (brackets : List Nat) (kind : Kind) :
    (due limit brackets).step limit kind = none := by
  simp [step]

end Scan

/-- Behind the tokens an operand is due that stands at this level. No limit of the scan has a part in
it. -/
def OperandDueAt (ts : List Token) (level : Nat) : Prop :=
  ∃ bound brackets, (Scan.due 0 []).run bound ts = some (.due level brackets)

/-- The first operand that is due at this level is due behind the tokens. -/
def FirstDueAt (ts : List Token) (level : Nat) : Prop :=
  OperandDueAt ts level ∧ ∀ us, us <+: ts → us ≠ ts → ¬ OperandDueAt us level

namespace FirstDueAt

variable {limit bound : Nat} {ts : List Token} {s : Scan}

/-- A scan is not held up by its limit before an operand is due there, since levels rise by one at most. -/
theorem run_of_none_before (ran : (Scan.due 0 []).run bound ts = some s)
    (before : ∀ us, us <+: ts → us ≠ ts → ¬ OperandDueAt us limit) : (Scan.due 0 []).run limit ts = some s := by
  induction ts using List.reverseRecOn generalizing s with
  | nil => exact ran
  | append_singleton ts t ih =>
    rw [Scan.run_append] at ran
    obtain ⟨middle, front, last⟩ := Option.bind_eq_some_iff.mp ran
    obtain ⟨next, stepped, final⟩ := Option.bind_eq_some_iff.mp last
    cases final
    have shorter : ts <+: ts ++ [t] := List.prefix_append ts [t]
    have other : ts ≠ ts ++ [t] := by simp
    have reached : (Scan.due 0 []).run limit ts = some middle := by
      refine ih front ?_
      intro us begins _
      refine before us (begins.trans shorter) ?_
      rintro rfl
      exact absurd begins.length_le (by simp)
    have free : ∀ level brackets, middle = .due level brackets → level < limit := by
      rintro level brackets rfl
      cases Scan.within_of_run reached with
      | due le _ =>
        refine Nat.lt_of_le_of_ne le ?_
        rintro rfl
        exact before ts shorter other ⟨bound, brackets, front⟩
    have through := (Scan.step_cases stepped).relimit free
    exact Scan.run_behind reached through []

theorem exists_run (first : FirstDueAt ts limit) :
    ∃ brackets, (Scan.due 0 []).run limit ts = some (.due limit brackets) := by
  obtain ⟨⟨bound, brackets, ran⟩, before⟩ := first
  exact ⟨brackets, run_of_none_before ran before⟩

theorem of_run {brackets : List Nat} (ran : (Scan.due 0 []).run limit ts = some (.due limit brackets)) :
    FirstDueAt ts limit := by
  refine ⟨⟨limit, brackets, ran⟩, ?_⟩
  rintro us ⟨more, rfl⟩ proper ⟨bound, brackets', earlier⟩
  rw [Scan.run_append] at ran
  obtain ⟨middle, front, rest⟩ := Option.bind_eq_some_iff.mp ran
  cases Scan.run_unique earlier front
  cases more with
  | nil => exact proper (List.append_nil us).symm
  | cons t more =>
    obtain ⟨next, stepped, -⟩ := Option.bind_eq_some_iff.mp rest
    rw [Scan.step_due_limit] at stepped
    cases stepped

end FirstDueAt

end Reckon
