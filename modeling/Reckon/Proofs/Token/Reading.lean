import Reckon.Token.Scanner

namespace Reckon.Cursor

theorem lead_cases {c behind : Cursor} {t : Token} (read : c.lead = .ok (t, behind)) :
    (c.rest = [] ∧ t = .finish c.pos ∧ behind = c) ∨
    (∃ first rest, c.rest = first :: rest ∧ first.isDigit = true ∧ (t, behind) = c.integer) ∨
    (∃ kind lexeme, kind ≠ .finish ∧ kind ≠ .integer ∧ t = .symbol kind lexeme c.pos ∧
      0 < lexeme.length ∧ lexeme.length ≤ c.rest.length ∧
      behind = ⟨c.rest.drop lexeme.length, c.pos + lexeme.length⟩) := by
  unfold lead at read
  split at read
  · rename_i empty
    cases read
    exact .inl ⟨empty, rfl, rfl⟩
  · rename_i stars
    cases read
    have pair : "**".length = 2 := by decide
    refine .inr (.inr ⟨.power, "**", by decide, by decide, rfl, by decide, ?_, ?_⟩)
    · simp [stars, pair]
    · simp [stars, pair]
  · rename_i first rest _ head
    split at read
    · rename_i digit
      exact .inr (.inl ⟨first, rest, head, digit, (Except.ok.inj read).symm⟩)
    · split at read
      · rename_i kind lexeme sign
        cases read
        have single : kind ≠ .finish ∧ kind ≠ .integer ∧ lexeme.length = 1 := by
          unfold sign? at sign
          split at sign <;> cases sign <;> decide
        refine .inr (.inr ⟨kind, lexeme, single.1, single.2.1, rfl, by omega, ?_, ?_⟩)
        · simp [head, single.2.2]
        · simp [head, single.2.2]
      · cases read

theorem lead_integer {c behind : Cursor} {t : Token} (read : c.lead = .ok (t, behind))
    (kind : t.kind = .integer) : ∃ value, t = .integer value c.pos := by
  rcases lead_cases read with ⟨-, rfl, -⟩ | ⟨first, rest, -, -, taken⟩ | ⟨kind', lexeme, -, other, rfl, -⟩
  · cases kind
  · exact ⟨_, congrArg Prod.fst taken⟩
  · exact absurd kind other

theorem lead_finish {c behind : Cursor} {t : Token} (read : c.lead = .ok (t, behind))
    (kind : t.kind = .finish) : c.rest = [] ∧ t = .finish c.pos := by
  rcases lead_cases read with ⟨empty, same, -⟩ | ⟨first, rest, -, -, taken⟩ | ⟨kind', lexeme, other, -, rfl, -⟩
  · exact ⟨empty, same⟩
  · have integer : t = _ := congrArg Prod.fst taken
    rw [integer] at kind
    cases kind
  · exact absurd kind other

theorem lead_pos {c behind : Cursor} {t : Token} (read : c.lead = .ok (t, behind)) : t.pos = c.pos := by
  rcases lead_cases read with ⟨-, rfl, -⟩ | ⟨first, rest, -, -, taken⟩ | ⟨kind, lexeme, -, -, rfl, -⟩
  · rfl
  · rw [show t = _ from congrArg Prod.fst taken]
    rfl
  · rfl

theorem lead_torn {c stop : Cursor} {e : Unreadable} (torn : c.lead = .error (e, stop)) :
    stop = c ∧ e.pos = c.pos ∧ ∃ rest, c.rest = e.char :: rest := by
  unfold lead at torn
  split at torn
  · cases torn
  · cases torn
  · rename_i head
    split at torn
    · cases torn
    · split at torn
      · cases torn
      · cases torn
        exact ⟨rfl, rfl, _, head⟩

theorem skip_skip (p : Char → Bool) (c : Cursor) : (c.skip p).skip p = c.skip p := by
  have first := List.head?_dropWhile_not p c.rest
  simp only [skip]
  cases ahead : c.rest.dropWhile p with
  | nil => rfl
  | cons char rest =>
    rw [ahead] at first
    simp only [List.head?_cons] at first
    simp [first]

theorem next_skip (c : Cursor) : (c.skip Text.isBlank).next = c.next := by
  rw [next, skip_skip, next]

theorem eq_skip_of_torn {c stop : Cursor} {e : Unreadable} (torn : c.next = .error (e, stop)) :
    stop = c.skip Text.isBlank :=
  (lead_torn torn).1

/-- An unreadable character is met with the blanks in front of it behind, and met again from there. -/
theorem next_of_torn {c stop : Cursor} {e : Unreadable} (torn : c.next = .error (e, stop)) : stop.next = c.next := by
  rw [eq_skip_of_torn torn, next_skip]

theorem skip_total (p : Char → Bool) (c : Cursor) :
    (c.skip p).pos + (c.skip p).rest.length = c.pos + c.rest.length := by
  have parts := congrArg List.length (List.takeWhile_append_dropWhile (p := p) (l := c.rest))
  rw [List.length_append] at parts
  simp only [skip]
  omega

theorem lead_total {c behind : Cursor} {t : Token} (read : c.lead = .ok (t, behind)) :
    behind.pos + behind.rest.length = c.pos + c.rest.length := by
  rcases lead_cases read with ⟨-, -, rfl⟩ | ⟨first, rest, -, -, taken⟩ | ⟨kind, lexeme, -, -, -, -, fits, rfl⟩
  · rfl
  · rw [show behind = c.skip Char.isDigit from congrArg Prod.snd taken]
    exact skip_total _ _
  · simp only [List.length_drop]
    omega

theorem next_total {c behind : Cursor} {t : Token} (read : c.next = .ok (t, behind)) :
    behind.pos + behind.rest.length = c.pos + c.rest.length :=
  (lead_total read).trans (skip_total _ _)

theorem pos_le_next {c behind : Cursor} {t : Token} (read : c.next = .ok (t, behind)) : c.pos ≤ t.pos := by
  rw [lead_pos read]
  exact Nat.le_add_right _ _

theorem pos_le_unreadable {c stop : Cursor} {e : Unreadable} (torn : c.next = .error (e, stop)) : c.pos ≤ e.pos := by
  rw [(lead_torn torn).2.1]
  exact Nat.le_add_right _ _

theorem next_pos_lt {c behind : Cursor} {t : Token} (read : c.next = .ok (t, behind))
    (more : t.kind ≠ .finish) : t.pos < behind.pos := by
  have shorter := lead_rest_length_lt read more
  have total := lead_total read
  rw [lead_pos read]
  omega

theorem next_integer {c behind : Cursor} {t : Token} (read : c.next = .ok (t, behind))
    (kind : t.kind = .integer) : ∃ value pos, t = .integer value pos := by
  obtain ⟨value, same⟩ := lead_integer read kind
  exact ⟨value, _, same⟩

theorem next_finish {c behind : Cursor} {t : Token} (read : c.next = .ok (t, behind))
    (kind : t.kind = .finish) : t = .finish (c.pos + c.rest.length) := by
  obtain ⟨empty, same⟩ := lead_finish read kind
  have total := skip_total Text.isBlank c
  rw [empty, List.length_nil, Nat.add_zero] at total
  rw [same, total]

theorem next_of_rest_nil {c : Cursor} (empty : c.rest = []) : c.next = .ok (.finish c.pos, c) := by
  cases c
  subst empty
  rfl

theorem next_of_finish {c behind : Cursor} {t : Token} (read : c.next = .ok (t, behind)) (kind : t.kind = .finish) :
    behind.next = c.next := by
  rw [read]
  rcases lead_cases read with ⟨empty, rfl, rfl⟩ | ⟨first, rest, -, -, taken⟩ | ⟨kind', lexeme, other, -, rfl, -⟩
  · exact next_of_rest_nil empty
  · rw [show t = _ from congrArg Prod.fst taken] at kind
    cases kind
  · exact absurd kind other

theorem more_of_torn {c behind stop : Cursor} {t : Token} {cause : Unreadable} (read : c.next = .ok (t, behind))
    (torn : behind.next = .error (cause, stop)) : t.kind ≠ .finish := by
  intro finish
  cases torn.symm.trans ((next_of_finish read finish).trans read)

/-- Reading the tokens of a list one after another leads from one place to another. The finishing
token is not among them. -/
inductive Reads : Cursor → List Token → Cursor → Prop where
  | nil {c : Cursor} : Reads c [] c
  | cons {c behind stop : Cursor} {t : Token} {ts : List Token} (read : c.next = .ok (t, behind))
      (more : t.kind ≠ .finish) (further : Reads behind ts stop) : Reads c (t :: ts) stop

namespace Reads

theorem append {c middle stop : Cursor} {ts us : List Token} (first : Reads c ts middle)
    (second : Reads middle us stop) : Reads c (ts ++ us) stop := by
  induction first with
  | nil => exact second
  | cons read more _ ih => exact .cons read more (ih second)

theorem total {c stop : Cursor} {ts : List Token} (reads : Reads c ts stop) :
    stop.pos + stop.rest.length = c.pos + c.rest.length := by
  induction reads with
  | nil => rfl
  | cons read _ _ ih => exact ih.trans (next_total read)

theorem pos_le {c stop : Cursor} {ts : List Token} (reads : Reads c ts stop) : c.pos ≤ stop.pos := by
  induction reads with
  | nil => exact Nat.le_refl _
  | cons read more _ ih =>
    have before := pos_le_next read
    have behind := next_pos_lt read more
    omega

theorem pos_lt {c stop behind : Cursor} {t u : Token} {ts : List Token} (reads : Reads c (u :: ts) stop)
    (read : c.next = .ok (t, behind)) : t.pos < stop.pos := by
  cases reads with
  | cons first more further =>
    cases Except.ok.inj (read.symm.trans first)
    exact Nat.lt_of_lt_of_le (next_pos_lt first more) further.pos_le

theorem exists_next {c stop : Cursor} {ts : List Token} {final : Token × Cursor} (reads : Reads c ts stop)
    (read : stop.next = .ok final) : ∃ t behind, c.next = .ok (t, behind) := by
  cases reads with
  | nil => exact ⟨_, _, read⟩
  | cons first _ _ => exact ⟨_, _, first⟩

theorem comparable {c stop stop' : Cursor} {ts ts' : List Token} (reads : Reads c ts stop)
    (reads' : Reads c ts' stop') :
    (∃ us, ts' = ts ++ us ∧ Reads stop us stop') ∨ ∃ us, ts = ts' ++ us ∧ Reads stop' us stop := by
  induction reads generalizing ts' with
  | nil => exact .inl ⟨ts', rfl, reads'⟩
  | @cons c behind stop t ts read more further ih =>
    cases reads' with
    | nil => exact .inr ⟨t :: ts, rfl, .cons read more further⟩
    | cons read' _ further' =>
      cases Except.ok.inj (read.symm.trans read')
      rcases ih further' with ⟨us, rfl, rest⟩ | ⟨us, rfl, rest⟩
      · exact .inl ⟨us, rfl, rest⟩
      · exact .inr ⟨us, rfl, rest⟩

theorem unique {c stop stop' : Cursor} {ts : List Token} (reads : Reads c ts stop) (reads' : Reads c ts stop') :
    stop' = stop := by
  rcases reads.comparable reads' with ⟨us, same, between⟩ | ⟨us, same, between⟩
  · cases List.self_eq_append_right.mp same
    cases between
    rfl
  · cases List.self_eq_append_right.mp same
    cases between
    rfl

theorem eq_nil_of_next {c stop behind behind' : Cursor} {ts : List Token} {t : Token}
    (reads : Reads c ts stop) (read : c.next = .ok (t, behind)) (read' : stop.next = .ok (t, behind')) :
    ts = [] := by
  cases reads with
  | nil => rfl
  | cons read'' more further =>
    cases Except.ok.inj (read.symm.trans read'')
    have first := next_pos_lt read more
    have between := further.pos_le
    have second := pos_le_next read'
    omega

end Reads

end Reckon.Cursor

namespace Reckon

/-- The tokens `ts` are all that stand in a text before the token `t`. -/
def Precedes (text : String) (ts : List Token) (t : Token) : Prop :=
  ∃ stop behind, Cursor.Reads (.ofText text) ts stop ∧ stop.next = .ok (t, behind)

namespace Precedes

theorem unique {text : String} {ts us : List Token} {t : Token} (before : Precedes text ts t)
    (before' : Precedes text us t) : us = ts := by
  obtain ⟨stop, behind, reads, read⟩ := before
  obtain ⟨stop', behind', reads', read'⟩ := before'
  rcases reads.comparable reads' with ⟨more, rfl, between⟩ | ⟨more, rfl, between⟩
  · rw [between.eq_nil_of_next read read', List.append_nil]
  · rw [between.eq_nil_of_next read' read, List.append_nil]

theorem finish_pos {text : String} {ts : List Token} {t : Token} (before : Precedes text ts t)
    (kind : t.kind = .finish) : t = .finish text.length := by
  obtain ⟨stop, behind, reads, read⟩ := before
  rw [Cursor.next_finish read kind, reads.total]
  simp [Cursor.ofText, String.length_toList]

end Precedes

end Reckon
