import Reckon.Proofs.Grammar.Beginning

namespace Reckon

def chainLevel : List Nat → Nat
  | [] => 0
  | level :: _ => level + 1

/-- Either an operand is due at a level, or the last operand is complete and had this level. -/
inductive Scan where
  | due (level : Nat) (brackets : List Nat)
  | done (level : Nat) (brackets : List Nat)
deriving DecidableEq, Repr

namespace Scan

def brackets : Scan → List Nat
  | due _ brackets | done _ brackets => brackets

/-- What one token does, if the scan can go on with it. No operand begins at the limit or beyond. -/
def step (limit : Nat) : Scan → Kind → Option Scan
  | due level brackets, kind =>
    if limit ≤ level then none
    else if kind.isSign then some (due (level + 1) brackets)
    else if kind = .opening then some (due (level + 1) (level :: brackets))
    else if kind = .integer then some (done level brackets)
    else none
  | done level brackets, kind =>
    if kind.isSign || kind.isScale then some (due (chainLevel brackets) brackets)
    else if kind = .power then some (due (level + 1) brackets)
    else if kind = .closing then
      match brackets with
      | [] => none
      | opened :: outer => some (done opened outer)
    else none

inductive Step (limit : Nat) : Scan → Kind → Scan → Prop where
  | sign {level brackets kind} (fits : level < limit) (sign : kind.isSign = true) :
      Step limit (due level brackets) kind (due (level + 1) brackets)
  | opening {level brackets} (fits : level < limit) :
      Step limit (due level brackets) .opening (due (level + 1) (level :: brackets))
  | integer {level brackets} (fits : level < limit) :
      Step limit (due level brackets) .integer (done level brackets)
  | chain {level brackets kind} (link : kind.isSign = true ∨ kind.isScale = true) :
      Step limit (done level brackets) kind (due (chainLevel brackets) brackets)
  | power {level brackets} : Step limit (done level brackets) .power (due (level + 1) brackets)
  | closing {level opened outer} : Step limit (done level (opened :: outer)) .closing (done opened outer)

variable {limit : Nat} {kind : Kind} {s next : Scan}

theorem Step.eq_some (stepped : Step limit s kind next) : s.step limit kind = some next := by
  cases stepped with
  | sign fits sign => simp [step, Nat.not_le.mpr fits, sign]
  | opening fits => simp [step, Nat.not_le.mpr fits, Kind.isSign]
  | integer fits => simp [step, Nat.not_le.mpr fits, Kind.isSign]
  | chain link => simp [step, link]
  | power => rfl
  | closing => rfl

theorem step_cases (stepped : s.step limit kind = some next) : Step limit s kind next := by
  cases s with
  | due level brackets =>
    simp only [step] at stepped
    split at stepped
    · cases stepped
    · rename_i above
      have fits : level < limit := Nat.not_le.mp above
      split at stepped
      · cases stepped
        exact .sign fits ‹_›
      · split at stepped
        · subst kind
          cases stepped
          exact .opening fits
        · split at stepped
          · subst kind
            cases stepped
            exact .integer fits
          · cases stepped
  | done level brackets =>
    simp only [step] at stepped
    split at stepped
    · rename_i link
      cases stepped
      exact .chain (by simpa using link)
    · split at stepped
      · subst kind
        cases stepped
        exact .power
      · split at stepped
        · subst kind
          cases brackets with
          | nil => cases stepped
          | cons opened outer =>
            cases stepped
            exact .closing
        · cases stepped

theorem Step.done_of_last (stepped : Step limit s kind next) (last : kind = .integer ∨ kind = .closing) :
    ∃ level brackets, next = done level brackets := by
  cases stepped with
  | sign _ sign => rcases last with rfl | rfl <;> cases sign
  | opening _ => simp at last
  | integer _ => exact ⟨_, _, rfl⟩
  | chain link => rcases last with rfl | rfl <;> simp [Kind.isSign, Kind.isScale] at link
  | power => simp at last
  | closing => exact ⟨_, _, rfl⟩

theorem Step.begins {level : Nat} {brackets : List Nat} (stepped : Step limit (due level brackets) kind next) :
    kind.beginsOperand = true := by
  cases stepped with
  | sign _ sign => exact Kind.beginsOperand_of_isSign sign
  | opening _ => rfl
  | integer _ => rfl

theorem exists_step_of_begins {level : Nat} (fits : level < limit) (begins : kind.beginsOperand = true)
    (brackets : List Nat) : ∃ next, Step limit (due level brackets) kind next := by
  simp only [Kind.beginsOperand, Bool.or_eq_true, beq_iff_eq] at begins
  rcases begins with (sign | rfl) | rfl
  · exact ⟨_, .sign fits sign⟩
  · exact ⟨_, .integer fits⟩
  · exact ⟨_, .opening fits⟩

theorem Step.behind {level : Nat} {brackets : List Nat} (stepped : Step limit (done level brackets) kind next) :
    kind.isOperator = true ∨ kind = .closing ∧ brackets ≠ [] := by
  cases stepped with
  | chain link =>
    rcases link with sign | scale
    · exact .inl (Kind.isOperator_of_isSign sign)
    · exact .inl (Kind.isOperator_of_isScale scale)
  | power => exact .inl rfl
  | closing => exact .inr ⟨rfl, List.cons_ne_nil _ _⟩

theorem Step.brackets_length (stepped : Step limit s kind next) :
    next.brackets.length + (if kind = .closing then 1 else 0) =
      s.brackets.length + (if kind = .opening then 1 else 0) := by
  cases stepped with
  | sign _ sign =>
    have other := Kind.ne_bracket_of_isOperator (Kind.isOperator_of_isSign sign)
    simp [brackets, other]
  | chain link =>
    have operator := link.elim Kind.isOperator_of_isSign Kind.isOperator_of_isScale
    simp [brackets, Kind.ne_bracket_of_isOperator operator]
  | opening _ | integer _ | power | closing => rfl

def run (limit : Nat) : Scan → List Token → Option Scan
  | s, [] => some s
  | s, t :: ts => (s.step limit t.kind).bind fun next => next.run limit ts

theorem run_append (limit : Nat) (s : Scan) (ts us : List Token) :
    s.run limit (ts ++ us) = (s.run limit ts).bind fun next => next.run limit us := by
  induction ts generalizing s with
  | nil => rfl
  | cons t ts ih =>
    simp only [List.cons_append, run]
    cases s.step limit t.kind with
    | none => rfl
    | some next => exact ih next

theorem run_cons {t : Token} (stepped : Step limit s t.kind next) (ts : List Token) :
    s.run limit (t :: ts) = next.run limit ts := by
  rw [run, stepped.eq_some, Option.bind_some]

theorem run_of_kinds (limit : Nat) (s : Scan) {ts us : List Token}
    (same : us.map Token.kind = ts.map Token.kind) : s.run limit us = s.run limit ts := by
  induction ts generalizing s us with
  | nil =>
    cases List.map_eq_nil_iff.mp same
    rfl
  | cons t ts ih =>
    obtain ⟨u, us, rfl, here, behind⟩ := List.map_eq_cons_iff.mp same
    simp only [run, here]
    cases s.step limit t.kind with
    | none => rfl
    | some next => exact ih next behind

theorem run_behind {last : Scan} {ts : List Token} {t : Token} (ran : s.run limit ts = some last)
    (stepped : Step limit last t.kind next) (us : List Token) :
    s.run limit (ts ++ t :: us) = next.run limit us := by
  rw [run_append, ran, Option.bind_some, run_cons stepped]

theorem step_of_run {last final : Scan} {ts us : List Token} {t : Token} (ran : s.run limit ts = some last)
    (through : s.run limit (ts ++ t :: us) = some final) : ∃ next, Step limit last t.kind next := by
  rw [run_append, ran, Option.bind_some] at through
  obtain ⟨next, stepped, -⟩ := Option.bind_eq_some_iff.mp through
  exact ⟨next, step_cases stepped⟩

theorem run_brackets {last : Scan} {ts : List Token} (ran : s.run limit ts = some last) :
    last.brackets.length + ts.countP (·.kind = .closing) =
      s.brackets.length + ts.countP (·.kind = .opening) := by
  induction ts generalizing s with
  | nil =>
    cases ran
    rfl
  | cons t ts ih =>
    obtain ⟨next, stepped, rest⟩ := Option.bind_eq_some_iff.mp ran
    have here := (step_cases stepped).brackets_length
    have there := ih rest
    simp only [List.countP_cons, decide_eq_true_eq]
    omega

theorem done_of_run {last : Scan} {ts : List Token} {t : Token} (ran : s.run limit ts = some last)
    (ends : [t] <:+ ts) (kind : t.kind = .integer ∨ t.kind = .closing) :
    ∃ level brackets, last = done level brackets := by
  obtain ⟨front, rfl⟩ := ends
  rw [run_append] at ran
  obtain ⟨middle, -, final⟩ := Option.bind_eq_some_iff.mp ran
  obtain ⟨next, stepped, rest⟩ := Option.bind_eq_some_iff.mp final
  cases rest
  exact (step_cases stepped).done_of_last kind

end Scan

/-- Where a phrase of a level may begin, given the level of the operand that is due there, the open
brackets, and the limit to which the room reaches. A power and an atom stand inside an operand that has
been counted already. -/
def Level.StartsAt (limit : Nat) : Level → (room level : Nat) → (brackets : List Nat) → Prop
  | .sum, room, level, brackets | .product, room, level, brackets =>
    level = chainLevel brackets ∧ level + room = limit
  | .operand, room, level, _ => level + room = limit
  | .power, room, level, _ | .atom, room, level, _ => level + room + 1 = limit

namespace Level.StartsAt

variable {limit room level : Nat} {brackets : List Nat}

theorem behind_sum (starts : Level.StartsAt limit .sum room level brackets) :
    Level.StartsAt limit .product room (chainLevel brackets) brackets :=
  ⟨rfl, starts.1 ▸ starts.2⟩

theorem behind_product (starts : Level.StartsAt limit .product room level brackets) :
    Level.StartsAt limit .operand room (chainLevel brackets) brackets :=
  show chainLevel brackets + room = limit from starts.1 ▸ starts.2

theorem behind_sign (starts : Level.StartsAt limit .operand (room + 1) level brackets) :
    Level.StartsAt limit .operand room (level + 1) brackets := by
  simp only [StartsAt] at starts ⊢
  omega

theorem unsigned (starts : Level.StartsAt limit .operand (room + 1) level brackets) :
    Level.StartsAt limit .power room level brackets :=
  starts

theorem behind_power (starts : Level.StartsAt limit .power room level brackets) :
    Level.StartsAt limit .operand room (level + 1) brackets := by
  simp only [StartsAt] at starts ⊢
  omega

theorem behind_opening (starts : Level.StartsAt limit .atom room level brackets) :
    Level.StartsAt limit .sum room (level + 1) (level :: brackets) := by
  simp only [StartsAt] at starts ⊢
  exact ⟨rfl, by omega⟩

theorem operand_lt (starts : Level.StartsAt limit .operand (room + 1) level brackets) : level < limit := by
  simp only [StartsAt] at starts
  omega

theorem atom_lt (starts : Level.StartsAt limit .atom room level brackets) : level < limit := by
  simp only [StartsAt] at starts
  omega

end Level.StartsAt

/-- A scan gets through a phrase if its limit leaves the room in which the phrase is derived. An atom
ends at the level at which it begins. -/
theorem Derives.scan {phrase : Level} {room limit bound level : Nat} {ts : List Token} {e : Expr}
    {brackets : List Nat} (derived : Derives phrase room ts e)
    (starts : phrase.StartsAt bound room level brackets) (within : bound ≤ limit) :
    ∃ last, (Scan.due level brackets).run limit ts = some (.done last brackets) ∧
      (phrase = .atom → last = level) := by
  induction derived generalizing level brackets with
  | single _ ih | base _ ih =>
    obtain ⟨last, ran, -⟩ := ih starts
    exact ⟨last, ran, by simp⟩
  | factor _ ih =>
    obtain ⟨last, ran, -⟩ := ih starts.2
    exact ⟨last, ran, by simp⟩
  | @sum _ _ us _ _ _ _ sign _ ihl ihr =>
    obtain ⟨middle, ran, -⟩ := ihl starts
    obtain ⟨last, further, -⟩ := ihr starts.behind_sum
    exact ⟨last, (Scan.run_behind ran (.chain (.inl sign)) us).trans further, by simp⟩
  | @product _ _ us _ _ _ _ scale _ ihl ihr =>
    obtain ⟨middle, ran, -⟩ := ihl starts
    obtain ⟨last, further, -⟩ := ihr starts.behind_product
    exact ⟨last, (Scan.run_behind ran (.chain (.inr scale)) us).trans further, by simp⟩
  | @signed _ ts _ _ sign _ ih =>
    have fits : level < limit := Nat.lt_of_lt_of_le starts.operand_lt within
    obtain ⟨last, ran, -⟩ := ih starts.behind_sign
    exact ⟨last, (Scan.run_cons (.sign fits sign) ts).trans ran, by simp⟩
  | unsigned _ ih =>
    obtain ⟨last, ran, -⟩ := ih starts.unsigned
    exact ⟨last, ran, by simp⟩
  | @power _ _ us _ _ op _ raised _ ihl ihr =>
    obtain ⟨middle, ran, same⟩ := ihl starts
    obtain ⟨last, further, -⟩ := ihr starts.behind_power
    -- The base ends at the level at which it begins, so the exponent is due one level further in.
    rw [same rfl] at ran
    exact ⟨last, (Scan.run_behind ran (raised ▸ .power) us).trans further, by simp⟩
  | @number _ t _ integer _ =>
    have fits : level < limit := Nat.lt_of_lt_of_le starts.atom_lt within
    exact ⟨level, Scan.run_cons (integer ▸ .integer fits) [], fun _ => rfl⟩
  | @bracket _ ts _ opened closed left _ right ih =>
    have fits : level < limit := Nat.lt_of_lt_of_le starts.atom_lt within
    obtain ⟨middle, ran, -⟩ := ih starts.behind_opening
    have closing : Scan.Step limit (.done middle (level :: brackets)) closed.kind (.done level brackets) :=
      right ▸ .closing
    exact ⟨level, (Scan.run_cons (left ▸ .opening fits) _).trans (Scan.run_behind ran closing []), fun _ => rfl⟩

namespace Missing

def AwaitedBy (bound : Nat) (brackets : List Nat) : Missing → Scan → Prop
  | operand room, s => ∃ level inner, s = .due level inner ∧ level + room = bound
  | closing, s => ∃ level opened outer, s = .done level (opened :: outer)
  | nothing, s => ∃ level, s = .done level brackets

end Missing

theorem Begins.scan {phrase : Level} {room limit bound level : Nat} {ts : List Token} {w : Missing}
    {brackets : List Nat} (begun : Begins phrase room ts w)
    (starts : phrase.StartsAt bound room level brackets) (within : bound ≤ limit) :
    ∃ s, (Scan.due level brackets).run limit ts = some s ∧ w.AwaitedBy bound brackets s := by
  induction begun generalizing level brackets with
  | whole derived =>
    obtain ⟨last, ran, -⟩ := derived.scan starts within
    exact ⟨_, ran, last, rfl⟩
  | due => exact ⟨_, rfl, level, brackets, rfl, starts⟩
  | single _ ih | base _ ih => exact ih starts
  | factor _ ih => exact ih starts.2
  | @sum _ _ us _ _ _ before sign _ ih =>
    obtain ⟨middle, ran, -⟩ := before.scan starts within
    obtain ⟨s, further, awaited⟩ := ih starts.behind_sum
    exact ⟨s, (Scan.run_behind ran (.chain (.inl sign)) us).trans further, awaited⟩
  | @product _ _ us _ _ _ before scale _ ih =>
    obtain ⟨middle, ran, -⟩ := before.scan starts within
    obtain ⟨s, further, awaited⟩ := ih starts.behind_product
    exact ⟨s, (Scan.run_behind ran (.chain (.inr scale)) us).trans further, awaited⟩
  | @signed _ ts _ _ sign _ ih =>
    have fits : level < limit := Nat.lt_of_lt_of_le starts.operand_lt within
    obtain ⟨s, ran, awaited⟩ := ih starts.behind_sign
    exact ⟨s, (Scan.run_cons (.sign fits sign) ts).trans ran, awaited⟩
  | unsigned _ ih => exact ih starts.unsigned
  | @power _ _ us _ _ _ before raised _ ih =>
    obtain ⟨middle, ran, same⟩ := before.scan starts within
    obtain ⟨s, further, awaited⟩ := ih starts.behind_power
    rw [same rfl] at ran
    exact ⟨s, (Scan.run_behind ran (raised ▸ .power) us).trans further, awaited⟩
  | blank => exact ⟨_, rfl, level, brackets, rfl, starts⟩
  | @bracket _ ts w _ left _ partway ih =>
    have fits : level < limit := Nat.lt_of_lt_of_le starts.atom_lt within
    obtain ⟨s, ran, awaited⟩ := ih starts.behind_opening
    refine ⟨s, (Scan.run_cons (left ▸ .opening fits) ts).trans ran, ?_⟩
    cases w with
    | operand _ => exact awaited
    | closing => exact awaited
    | nothing => exact absurd rfl partway
  | @closing _ ts _ _ left inner =>
    have fits : level < limit := Nat.lt_of_lt_of_le starts.atom_lt within
    obtain ⟨last, ran, -⟩ := inner.scan starts.behind_opening within
    exact ⟨_, (Scan.run_cons (left ▸ .opening fits) ts).trans ran, last, level, brackets, rfl⟩

theorem Missing.AwaitedBy.not_refuses {limit bound : Nat} {w : Missing} {s next : Scan} {kind : Kind}
    (awaited : w.AwaitedBy bound [] s) (stepped : Scan.Step limit s kind next) : ¬ w.Refuses kind := by
  intro refused
  cases w with
  | operand room =>
    obtain ⟨level, brackets, rfl, -⟩ := awaited
    cases room with
    | zero => exact refused
    | succ room => exact absurd stepped.begins (Bool.eq_false_iff.mp refused)
  | closing =>
    obtain ⟨level, opened, outer, rfl⟩ := awaited
    rcases stepped.behind with operator | ⟨closing, -⟩
    · exact absurd operator (Bool.eq_false_iff.mp refused.1)
    · exact refused.2 closing
  | nothing =>
    obtain ⟨level, rfl⟩ := awaited
    rcases stepped.behind with operator | ⟨-, none⟩
    · exact absurd operator (Bool.eq_false_iff.mp refused.1)
    · exact none rfl

theorem Level.StartsAt.outermost (room : Nat) : Level.StartsAt room .sum room 0 [] :=
  ⟨rfl, Nat.zero_add room⟩

namespace Begins

theorem step_of_derives {room more : Nat} {ts us : List Token} {t : Token} {w : Missing} {e : Expr}
    (begun : Begins .sum room ts w) (derived : Derives .sum more (ts ++ t :: us) e) :
    ∃ limit s next, w.AwaitedBy room [] s ∧ Scan.Step limit s t.kind next := by
  obtain ⟨s, ran, awaited⟩ := begun.scan (.outermost room) (Nat.le_max_left room more)
  obtain ⟨last, through, -⟩ := derived.scan (.outermost more) (Nat.le_max_right room more)
  obtain ⟨next, stepped⟩ := Scan.step_of_run ran through
  exact ⟨_, s, next, awaited, stepped⟩

theorem not_derives_of_refuses {room more : Nat} {ts us : List Token} {t : Token} {w : Missing} {e : Expr}
    (begun : Begins .sum room ts w) (refused : w.Refuses t.kind) : ¬ Derives .sum more (ts ++ t :: us) e := by
  intro derived
  obtain ⟨limit, s, next, awaited, stepped⟩ := begun.step_of_derives derived
  exact awaited.not_refuses stepped refused

theorem not_derives_of_missing {room more : Nat} {ts : List Token} {w : Missing} {e : Expr}
    (begun : Begins .sum room ts w) (missing : w ≠ .nothing) : ¬ Derives .sum more ts e := by
  intro derived
  obtain ⟨s, ran, awaited⟩ := begun.scan (.outermost room) (Nat.le_max_left room more)
  obtain ⟨last, through, -⟩ := derived.scan (.outermost more) (Nat.le_max_right room more)
  cases Option.some.inj (ran.symm.trans through)
  cases w with
  | operand _ =>
    obtain ⟨level, brackets, same, -⟩ := awaited
    cases same
  | closing =>
    obtain ⟨level, opened, outer, same⟩ := awaited
    cases same
  | nothing => exact missing rfl

end Begins

end Reckon
