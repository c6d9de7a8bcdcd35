import Mathlib.Data.List.TakeWhile
import Reckon.Proofs.Token.Spelling

namespace Reckon

/-- The characters are the lexeme of a token that begins at a position, where `rest` stands behind it. -/
inductive Lexeme : List Char → (rest : List Char) → (pos : Nat) → Token → Prop where
  | run {run rest pos} (digits : DigitRun run) (ahead : NoDigitAhead rest) :
      Lexeme run rest pos (.integer (runValue run) pos)
  | symbol {kind : Kind} {rest pos} (written : kind ≠ .integer ∧ kind ≠ .finish)
      (single : kind = .times → rest.head? ≠ some '*') :
      Lexeme kind.symbol.toList rest pos (.symbol kind kind.symbol pos)

theorem Kind.symbol_ne_nil (kind : Kind) : kind.symbol.toList ≠ [] := by
  cases kind <;> decide

theorem Token.integer_kind (value : Float) (pos : Nat) : (integer value pos).kind = .integer :=
  rfl

theorem NoDigitAhead.of_dropWhile (cs : List Char) : NoDigitAhead (cs.dropWhile Char.isDigit) := by
  intro c head
  have stops := List.head?_dropWhile_not Char.isDigit cs
  rw [Option.mem_def.mp head] at stops
  exact stops

def BeginsLike (other rest : List Char) : Prop :=
  other.head? = rest.head? ∨ ∀ c ∈ other.head?, Text.isBlank c = true

theorem BeginsLike.behind {other rest : List Char} (like : BeginsLike other rest) (front : List Char) :
    BeginsLike (front ++ other) (front ++ rest) := by
  cases front with
  | nil => exact like
  | cons c cs => exact .inl rfl

namespace Lexeme

variable {cs rest other : List Char} {pos : Nat} {t : Token}

theorem ne_nil (lexeme : Lexeme cs rest pos t) : cs ≠ [] := by
  cases lexeme with
  | run digits _ => exact digits.1
  | symbol _ _ => exact Kind.symbol_ne_nil _

theorem next (lexeme : Lexeme cs rest pos t) :
    Cursor.next ⟨cs ++ rest, pos⟩ = .ok (t, ⟨rest, pos + cs.length⟩) := by
  cases lexeme with
  | run digits ahead => exact Cursor.next_run pos digits ahead
  | symbol written single =>
    rw [String.length_toList]
    exact Cursor.next_symbol pos written single

theorem replace (lexeme : Lexeme cs rest pos t) (like : BeginsLike other rest) : Lexeme cs other pos t := by
  rcases like with same | blank
  · cases lexeme with
    | run digits ahead =>
      refine .run digits ?_
      intro c head
      rw [same] at head
      exact ahead c head
    | symbol written single =>
      refine .symbol written ?_
      rw [same]
      exact single
  · cases lexeme with
    | run digits _ =>
      refine .run digits ?_
      intro c head
      rw [← Bool.not_eq_true]
      intro digit
      cases (blank c head).symm.trans (Text.isBlank_eq_false_of_isDigit c digit)
    | symbol written _ =>
      refine .symbol written ?_
      intro _ star
      cases blank '*' star

theorem exists_next (lexeme : Lexeme cs rest pos t) (plain : t.kind.isOperator = false) (other : List Char) :
    ∃ u behind, Cursor.next ⟨cs ++ other, pos⟩ = .ok (u, behind) ∧ u.kind = t.kind := by
  cases lexeme with
  | run digits _ =>
    have longer : DigitRun (cs ++ other.takeWhile Char.isDigit) := by
      refine ⟨by simp [digits.1], ?_⟩
      intro c member
      rcases List.mem_append.mp member with member | member
      · exact digits.2 c member
      · exact List.mem_takeWhile_imp member
    have read := Cursor.next_run pos longer (.of_dropWhile other)
    rw [List.append_assoc, List.takeWhile_append_dropWhile] at read
    exact ⟨_, _, read, by rw [Token.integer_kind, Token.integer_kind]⟩
  | @symbol kind _ _ written _ =>
    have single : kind = .times → other.head? ≠ some '*' := by
      rintro rfl
      cases plain
    exact ⟨_, _, Cursor.next_symbol pos written single, rfl⟩

end Lexeme

namespace Cursor

def beginsToken (first : Char) : Bool :=
  first.isDigit || (sign? first).isSome

theorem lead_of_not_beginsToken {first : Char} (other : beginsToken first = false) (rest : List Char) (pos : Nat) :
    lead ⟨first :: rest, pos⟩ = .error (⟨first, pos⟩, ⟨first :: rest, pos⟩) := by
  obtain ⟨digit, signless⟩ := Bool.or_eq_false_iff.mp other
  have sign : sign? first = none := by simpa using signless
  unfold lead
  split
  · rename_i empty
    cases empty
  · rename_i stars
    cases stars
    cases sign
  · rename_i head
    cases head
    simp [digit, sign]

theorem sign?_symbol {c : Char} {kind : Kind} {lexeme : String} (sign : sign? c = some (kind, lexeme)) :
    (kind ≠ .integer ∧ kind ≠ .finish) ∧ lexeme = kind.symbol ∧ kind.symbol.toList = [c] ∧
      (kind = .times → c = '*') := by
  unfold sign? at sign
  split at sign <;> cases sign <;> decide

theorem exists_lexeme_of_lead {c behind : Cursor} {t : Token} (read : c.lead = .ok (t, behind))
    (more : t.kind ≠ .finish) : ∃ cs, c.rest = cs ++ behind.rest ∧ Lexeme cs behind.rest c.pos t := by
  unfold lead at read
  split at read
  · cases read
    exact absurd rfl more
  · rename_i stars
    cases read
    have written : Kind.power ≠ .integer ∧ Kind.power ≠ .finish := by decide
    exact ⟨['*', '*'], stars, .symbol written (by simp)⟩
  · rename_i first rest apart head
    split at read
    · rename_i digit
      cases read
      refine ⟨c.rest.takeWhile Char.isDigit, List.takeWhile_append_dropWhile.symm, .run ⟨?_, ?_⟩ (.of_dropWhile _)⟩
      · simp [head, digit]
      · exact fun c => List.mem_takeWhile_imp
    · split at read
      · rename_i kind lexeme sign
        cases read
        obtain ⟨written, rfl, single, times⟩ := sign?_symbol sign
        refine ⟨kind.symbol.toList, by rw [single, head]; rfl, .symbol written ?_⟩
        intro product follows
        obtain ⟨more, rfl⟩ := List.head?_eq_some_iff.mp follows
        exact apart more (times product) rfl
      · cases read

theorem next_of_blanks {blanks cs : List Char} (blank : ∀ c ∈ blanks, Text.isBlank c = true) (pos : Nat) :
    next ⟨blanks ++ cs, pos⟩ = next ⟨cs, pos + blanks.length⟩ := by
  have skipped : skip Text.isBlank ⟨blanks ++ cs, pos⟩ = skip Text.isBlank ⟨cs, pos + blanks.length⟩ := by
    simp only [skip, List.dropWhile_append_of_pos blank, List.takeWhile_append_of_pos blank, List.length_append]
    rw [Nat.add_assoc]
  rw [next, skipped, next]

theorem next_behind_blanks {blanks cs rest : List Char} {pos : Nat} {t : Token}
    (blank : ∀ c ∈ blanks, Text.isBlank c = true) (lexeme : Lexeme cs rest (pos + blanks.length) t) :
    next ⟨blanks ++ (cs ++ rest), pos⟩ = .ok (t, ⟨rest, pos + blanks.length + cs.length⟩) :=
  (next_of_blanks blank pos).trans lexeme.next

theorem exists_lexeme {c behind : Cursor} {t : Token} (read : c.next = .ok (t, behind))
    (more : t.kind ≠ .finish) :
    ∃ blanks cs, (∀ c ∈ blanks, Text.isBlank c = true) ∧ Lexeme cs behind.rest (c.pos + blanks.length) t ∧
      c.rest = blanks ++ (cs ++ behind.rest) ∧ behind.pos = c.pos + blanks.length + cs.length := by
  obtain ⟨cs, whole, lexeme⟩ := exists_lexeme_of_lead read more
  have blank : ∀ d ∈ c.rest.takeWhile Text.isBlank, Text.isBlank d = true := fun d => List.mem_takeWhile_imp
  have split : c.rest = c.rest.takeWhile Text.isBlank ++ (cs ++ behind.rest) := by
    rw [← whole]
    exact List.takeWhile_append_dropWhile.symm
  have again := next_behind_blanks blank lexeme
  rw [← split] at again
  have same := (Prod.mk.inj (Except.ok.inj (read.symm.trans again))).2
  exact ⟨_, cs, blank, lexeme, split, congrArg Cursor.pos same⟩

/-- What stands behind the first character that follows the tokens has no part in them. -/
theorem Reads.exists_front {c stop : Cursor} {ts : List Token} (reads : c.Reads ts stop) :
    ∃ front, c.rest = front ++ stop.rest ∧ ∀ other : List Char, BeginsLike other stop.rest →
      Reads ⟨front ++ other, c.pos⟩ ts ⟨other, stop.pos⟩ := by
  induction reads with
  | nil => exact ⟨[], rfl, fun other _ => .nil⟩
  | @cons c behind stop t ts read more further ih =>
    obtain ⟨front, whole, again⟩ := ih
    obtain ⟨blanks, cs, blank, lexeme, split, place⟩ := exists_lexeme read more
    refine ⟨blanks ++ (cs ++ front), by simp [split, whole], ?_⟩
    intro other like
    have ahead : BeginsLike (front ++ other) behind.rest := by
      rw [whole]
      exact like.behind front
    have here := next_behind_blanks blank (lexeme.replace ahead)
    rw [← place] at here
    simp only [List.append_assoc]
    exact .cons here more (again other like)

theorem Reads.exists_replaced {c stop behind : Cursor} {ts : List Token} {t : Token} {front : List Char}
    (reads : c.Reads ts stop) (final : stop.next = .ok (t, behind)) (more : t.kind ≠ .finish)
    (plain : t.kind.isOperator = false) (whole : c.rest = front ++ behind.rest) (other : List Char) :
    ∃ place u beyond, Reads ⟨front ++ other, c.pos⟩ ts place ∧ place.next = .ok (u, beyond) ∧ u.kind = t.kind := by
  obtain ⟨before, split, again⟩ := reads.exists_front
  obtain ⟨blanks, cs, blank, lexeme, rest, -⟩ := exists_lexeme final more
  have same : front = before ++ (blanks ++ cs) := by
    rw [split, rest] at whole
    exact (List.append_cancel_right (by simpa using whole)).symm
  have ahead : (blanks ++ (cs ++ other)).head? = stop.rest.head? := by
    obtain ⟨d, ds, rfl⟩ := List.exists_cons_of_ne_nil lexeme.ne_nil
    simp [rest, List.head?_append]
  obtain ⟨u, beyond, read, kind⟩ := lexeme.exists_next plain other
  refine ⟨_, u, beyond, ?_, (next_of_blanks blank stop.pos).trans read, kind⟩
  have replaced := again _ (.inl ahead)
  rw [same]
  simpa using replaced

end Cursor

end Reckon
