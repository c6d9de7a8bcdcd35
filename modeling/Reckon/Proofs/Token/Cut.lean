import Reckon.Proofs.Token.Lookahead
import Reckon.Proofs.Token.Stream

namespace Reckon

def readable (c : Char) : Bool :=
  Text.isBlank c || c.isDigit || ['+', '-', '*', '/', '(', ')'].contains c

theorem Cursor.sign?_isSome (c : Char) :
    (Cursor.sign? c).isSome = ['+', '-', '*', '/', '(', ')'].contains c := by
  unfold Cursor.sign?
  split
  iterate 6 rfl
  simp_all

theorem readable_eq (c : Char) : readable c = (Text.isBlank c || Cursor.beginsToken c) := by
  rw [readable, Cursor.beginsToken, Cursor.sign?_isSome, Bool.or_assoc]

theorem readable_of_isBlank {c : Char} (blank : Text.isBlank c = true) : readable c = true := by
  simp [readable, blank]

theorem readable_of_isDigit {c : Char} (digit : c.isDigit = true) : readable c = true := by
  simp [readable, digit]

theorem readable_of_symbol {kind : Kind} (written : kind ≠ .integer ∧ kind ≠ .finish) :
    ∀ c ∈ kind.symbol.toList, readable c = true := by
  apply List.all_eq_true.mp
  cases kind with
  | integer | finish => simp at written
  | plus | minus | times | divide | power | opening | closing => decide

theorem visible_of_symbol {kind : Kind} (written : kind ≠ .integer ∧ kind ≠ .finish) :
    ∀ c ∈ kind.symbol.toList, Text.isBlank c = false := by
  have none : kind.symbol.toList.any Text.isBlank = false := by
    cases kind with
    | integer | finish => simp at written
    | plus | minus | times | divide | power | opening | closing => decide
  intro c member
  exact eq_false_of_ne_true (List.any_eq_false.mp none c member)

structure Span where
  token : Token
  lexeme : List Char

def Span.past (s : Span) : Nat :=
  s.token.pos + s.lexeme.length

/-- The characters, from a position on and in front of `rest`, are cut into blanks and lexemes. -/
inductive Cut (rest : List Char) : List Char → (pos : Nat) → List Span → Prop where
  | nil {pos} : Cut rest [] pos []
  | blank {c cs pos spans} (blank : Text.isBlank c = true) (further : Cut rest cs (pos + 1) spans) :
      Cut rest (c :: cs) pos spans
  | token {lexeme cs pos t spans} (begins : Lexeme lexeme (cs ++ rest) pos t)
      (further : Cut rest cs (pos + lexeme.length) spans) : Cut rest (lexeme ++ cs) pos (⟨t, lexeme⟩ :: spans)

/-- Neither a run of digits nor a star at the end of the first text goes on in the second. -/
structure Apart (front behind : List Char) : Prop where
  digits : ∀ c ∈ front.getLast?, c.isDigit = true → NoDigitAhead behind
  stars : '*' ∈ front.getLast? → behind.head? ≠ some '*'

theorem Apart.of_last {front front' behind : List Char} (apart : Apart front behind)
    (same : front.getLast? = front'.getLast?) : Apart front' behind where
  digits := same ▸ apart.digits
  stars := same ▸ apart.stars

namespace Lexeme

variable {cs rest : List Char} {pos : Nat} {t : Token}

theorem pos_eq (lexeme : Lexeme cs rest pos t) : t.pos = pos := by
  cases lexeme <;> rfl

theorem more (lexeme : Lexeme cs rest pos t) : t.kind ≠ .finish := by
  cases lexeme with
  | run _ _ => nofun
  | symbol written _ => exact written.2

theorem readable (lexeme : Lexeme cs rest pos t) : ∀ c ∈ cs, Reckon.readable c = true := by
  cases lexeme with
  | run digits _ => exact fun c member => readable_of_isDigit (digits.2 c member)
  | symbol written _ => exact readable_of_symbol written

theorem length_pos (lexeme : Lexeme cs rest pos t) : 0 < cs.length :=
  List.length_pos_iff.mpr lexeme.ne_nil

theorem visible (lexeme : Lexeme cs rest pos t) : ∀ c ∈ cs, Text.isBlank c = false := by
  cases lexeme with
  | run digits _ => exact fun c member => Text.isBlank_eq_false_of_isDigit c (digits.2 c member)
  | symbol written _ => exact visible_of_symbol written

theorem single_star (lexeme : Lexeme cs rest pos t) (times : t.kind = .times) :
    cs = ['*'] ∧ rest.head? ≠ some '*' := by
  cases lexeme with
  | run _ _ => cases times
  | symbol _ single =>
    cases times
    exact ⟨rfl, single rfl⟩

theorem of_seam {other : List Char} (lexeme : Lexeme cs rest pos t)
    (digits : ∀ c ∈ cs.getLast?, c.isDigit = true → NoDigitAhead other)
    (stars : t.kind = .times → other.head? ≠ some '*') : Lexeme cs other pos t := by
  cases lexeme with
  | run run _ =>
    have last := List.getLast?_eq_some_getLast run.1
    exact .run run (digits _ last (run.2 _ (List.getLast_mem run.1)))
  | symbol written _ => exact .symbol written stars

theorem of_apart {other : List Char} (lexeme : Lexeme cs rest pos t) (apart : Apart cs other) :
    Lexeme cs other pos t := by
  apply lexeme.of_seam apart.digits
  intro times
  apply apart.stars
  rw [(lexeme.single_star times).1]
  rfl

theorem unique {cs' rest' : List Char} {u : Token} (lexeme : Lexeme cs rest pos t)
    (lexeme' : Lexeme cs' rest' pos u) (same : cs ++ rest = cs' ++ rest') : t = u ∧ cs = cs' ∧ rest = rest' := by
  have read := lexeme.next
  rw [same] at read
  have both := Except.ok.inj (lexeme'.next.symm.trans read)
  have behind : rest = rest' := congrArg (fun result => result.2.rest) both.symm
  refine ⟨congrArg Prod.fst both.symm, ?_, behind⟩
  rw [behind] at same
  exact List.append_cancel_right same

end Lexeme

namespace Cursor

variable {e : Unreadable} {stop : Cursor} {first : Char} {rest : List Char} {pos : Nat}

theorem not_beginsToken_of_torn (torn : lead ⟨first :: rest, pos⟩ = .error (e, stop)) : beginsToken first = false := by
  cases begins : beginsToken first with
  | false => rfl
  | true =>
    rcases Bool.or_eq_true_iff.mp begins with digit | sign
    · rw [lead_of_isDigit pos digit] at torn
      cases torn
    · unfold lead at torn
      split at torn
      · cases torn
      · cases torn
      · rename_i head
        cases head
        split at torn
        · cases torn
        · rename_i signless
          split at torn
          · cases torn
          · rename_i none
            rw [none] at sign
            cases sign

end Cursor

namespace Cut

variable {cs rest other : List Char} {pos : Nat} {spans : List Span}

theorem readable (cut : Cut rest cs pos spans) : ∀ c ∈ cs, readable c = true := by
  induction cut with
  | nil => simp
  | blank blank _ ih => exact List.forall_mem_cons.mpr ⟨readable_of_isBlank blank, ih⟩
  | token begins _ ih => exact List.forall_mem_append.mpr ⟨begins.readable, ih⟩

theorem append {back : List Char} {later : List Span} (cut : Cut (back ++ rest) cs pos spans)
    (further : Cut rest back (pos + cs.length) later) : Cut rest (cs ++ back) pos (spans ++ later) := by
  induction cut with
  | nil => exact further
  | blank blank _ ih =>
    rw [List.length_cons, Nat.add_comm _ 1, ← Nat.add_assoc] at further
    exact .blank blank (ih further)
  | token begins _ ih =>
    rw [List.length_append, ← Nat.add_assoc] at further
    rw [← List.append_assoc] at begins
    have whole := Cut.token begins (ih further)
    rwa [← List.append_assoc] at whole

/-- The scanner finds the tokens of a cut, and goes on behind it. -/
theorem drain (cut : Cut rest cs pos spans) :
    (Cursor.drain ⟨cs ++ rest, pos⟩).1 =
      (Cursor.drain ⟨rest, pos + cs.length⟩).1.map (spans.map Span.token ++ ·) := by
  induction cut with
  | @nil pos =>
    simp only [List.nil_append, List.length_nil, Nat.add_zero, List.map_nil]
    cases (Cursor.drain ⟨rest, pos⟩).1 <;> rfl
  | @blank c cs pos spans blank _ ih =>
    have single : ∀ d ∈ [c], Text.isBlank d = true := by simpa using blank
    have next : Cursor.next ⟨c :: (cs ++ rest), pos⟩ = Cursor.next ⟨cs ++ rest, pos + 1⟩ :=
      Cursor.next_of_blanks single pos
    rw [List.cons_append, Cursor.drain_of_next_eq next, ih, List.length_cons, Nat.add_right_comm, Nat.add_assoc]
  | @token lexeme cs pos t spans begins _ ih =>
    rw [List.append_assoc, Cursor.drain_of_more begins.next begins.more, ih, List.length_append, ← Nat.add_assoc]
    cases (Cursor.drain ⟨rest, pos + lexeme.length + cs.length⟩).1 <;> rfl

theorem cons_inv {c : Char} (cut : Cut rest (c :: cs) pos spans) :
    (Text.isBlank c = true ∧ Cut rest cs (pos + 1) spans) ∨
      ∃ lexeme back t later, c :: cs = lexeme ++ back ∧ spans = ⟨t, lexeme⟩ :: later ∧
        Lexeme lexeme (back ++ rest) pos t ∧ Cut rest back (pos + lexeme.length) later := by
  generalize whole : c :: cs = front at cut
  cases cut with
  | nil => cases whole
  | blank blank further =>
    cases whole
    exact .inl ⟨blank, further⟩
  | token begins further => exact .inr ⟨_, _, _, _, rfl, rfl, begins, further⟩

theorem nil_inv (cut : Cut rest [] pos spans) : spans = [] := by
  generalize whole : [] = front at cut
  cases cut with
  | nil => rfl
  | blank _ _ => cases whole
  | token begins _ => exact absurd (List.append_eq_nil_iff.mp whole.symm).1 begins.ne_nil

theorem unique {later : List Span} (cut : Cut rest cs pos spans) (cut' : Cut rest cs pos later) : later = spans := by
  induction cut generalizing later with
  | nil => exact cut'.nil_inv
  | @blank c cs pos spans blank _ ih =>
    rcases cut'.cons_inv with ⟨-, further⟩ | ⟨lexeme, back, t, _, whole, rfl, begins, -⟩
    · exact ih further
    · obtain ⟨d, ds, rfl⟩ := List.exists_cons_of_ne_nil begins.ne_nil
      cases whole
      cases blank.symm.trans (begins.visible c (List.mem_cons_self ..))
  | @token lexeme cs pos t spans begins _ ih =>
    obtain ⟨d, ds, rfl⟩ := List.exists_cons_of_ne_nil begins.ne_nil
    rcases cut'.cons_inv with ⟨blank, -⟩ | ⟨lexeme, back, u, _, whole, rfl, begins', further⟩
    · cases blank.symm.trans (begins.visible d (List.mem_cons_self ..))
    · have same : d :: ds ++ (cs ++ rest) = lexeme ++ (back ++ rest) := by
        rw [← List.append_assoc, ← List.append_assoc, ← whole]
        rfl
      obtain ⟨rfl, rfl, behind⟩ := begins.unique begins' same
      rw [List.append_cancel_right behind.symm] at further
      rw [ih further]

theorem exists_place {s : Span} (cut : Cut rest cs pos spans) (member : s ∈ spans) :
    ∃ before behind, cs = before ++ (s.lexeme ++ behind) ∧ s.token.pos = pos + before.length ∧
      Lexeme s.lexeme (behind ++ rest) s.token.pos s.token := by
  induction cut with
  | nil => simp at member
  | @blank c _ _ _ _ _ ih =>
    obtain ⟨before, behind, rfl, place, lexeme⟩ := ih member
    refine ⟨c :: before, behind, rfl, ?_, lexeme⟩
    rw [place, List.length_cons]
    omega
  | @token front cs pos t _ begins _ ih =>
    rcases List.mem_cons.mp member with rfl | member
    · rw [begins.pos_eq]
      exact ⟨[], cs, rfl, rfl, begins⟩
    · obtain ⟨before, behind, rfl, place, lexeme⟩ := ih member
      refine ⟨front ++ before, behind, by simp, ?_, lexeme⟩
      rw [place, List.length_append]
      omega

theorem ahead (cut : Cut rest cs pos spans)
    (last : ∀ s ∈ spans.getLast?, s.past = pos + cs.length → Lexeme s.lexeme other s.token.pos s.token) :
    Cut other cs pos spans := by
  induction cut with
  | nil => exact .nil
  | blank blank _ ih =>
    apply Cut.blank blank
    apply ih
    intro s member ends
    apply last s member
    rw [ends, List.length_cons]
    omega
  | @token lexeme cs pos t spans begins further ih =>
    by_cases final : cs = []
    · subst final
      cases further.nil_inv
      have place := begins.pos_eq
      have kept := last ⟨t, lexeme⟩ rfl (by simp [Span.past, place])
      rw [place] at kept
      exact .token kept .nil
    · obtain ⟨d, ds, rfl⟩ := List.exists_cons_of_ne_nil final
      have kept : Lexeme lexeme (d :: ds ++ other) pos t := begins.replace (.inl rfl)
      apply Cut.token kept
      apply ih
      intro s member ends
      apply last s
      · rw [List.getLast?_cons, Option.mem_def.mp member]
        rfl
      · rw [ends, List.length_append]
        omega

theorem last_place {s : Span} (cut : Cut rest cs pos spans) (member : s ∈ spans.getLast?)
    (ends : s.past = pos + cs.length) :
    cs.getLast? = s.lexeme.getLast? ∧ Lexeme s.lexeme rest s.token.pos s.token := by
  obtain ⟨before, behind, rfl, place, lexeme⟩ := cut.exists_place (List.mem_of_getLast? member)
  have done : behind = [] := by
    simp only [Span.past, List.length_append] at ends
    apply List.eq_nil_of_length_eq_zero
    omega
  subst done
  refine ⟨?_, lexeme⟩
  simp [List.getLast?_append, List.getLast?_eq_some_getLast lexeme.ne_nil]

theorem ahead_of_apart (cut : Cut rest cs pos spans) (apart : Apart cs other) : Cut other cs pos spans := by
  apply cut.ahead
  intro s member ends
  obtain ⟨last, lexeme⟩ := cut.last_place member ends
  exact lexeme.of_apart (apart.of_last last)

end Cut

theorem exists_cut (cs : List Char) (pos : Nat) :
    ∃ front rest spans, cs = front ++ rest ∧ Cut rest front pos spans ∧ ∀ c ∈ rest.head?, readable c = false := by
  cases cs with
  | nil => exact ⟨[], [], [], rfl, .nil, by simp⟩
  | cons first cs =>
    by_cases blank : Text.isBlank first = true
    · obtain ⟨front, rest, spans, rfl, cut, stops⟩ := exists_cut cs (pos + 1)
      exact ⟨first :: front, rest, spans, rfl, .blank blank cut, stops⟩
    · cases read : Cursor.lead ⟨first :: cs, pos⟩ with
      | error e =>
        have other := Cursor.not_beginsToken_of_torn read
        exact ⟨[], first :: cs, [], rfl, .nil, by simp [readable_eq, blank, other]⟩
      | ok result =>
        obtain ⟨t, behind⟩ := result
        have more : t.kind ≠ .finish := by
          intro kind
          cases (Cursor.lead_finish read kind).1
        obtain ⟨lexeme, whole, begins⟩ := Cursor.exists_lexeme_of_lead read more
        have shorter : behind.rest.length < cs.length + 1 := Cursor.lead_rest_length_lt read more
        obtain ⟨front, rest, spans, split, cut, stops⟩ := exists_cut behind.rest (pos + lexeme.length)
        rw [split] at whole begins
        exact ⟨lexeme ++ front, rest, ⟨t, lexeme⟩ :: spans, by simpa using whole, .token begins cut, stops⟩
termination_by cs.length

theorem Cursor.next_of_not_readable {first : Char} (other : readable first = false) (rest : List Char) (pos : Nat) :
    next ⟨first :: rest, pos⟩ = .error (⟨first, pos⟩, ⟨first :: rest, pos⟩) := by
  rw [readable_eq] at other
  obtain ⟨visible, apart⟩ := Bool.or_eq_false_iff.mp other
  have unmoved : skip Text.isBlank ⟨first :: rest, pos⟩ = ⟨first :: rest, pos⟩ := by
    simp [skip, visible]
  rw [next, unmoved, lead_of_not_beginsToken apart]

theorem tokens_cases (text : String) :
    (∃ spans, Cut [] text.toList 0 spans ∧ tokens text = .ok (spans.map Span.token)) ∨
      ∃ front first back spans, text.toList = front ++ first :: back ∧ Cut (first :: back) front 0 spans ∧
        readable first = false ∧ tokens text = .error ⟨first, front.length⟩ := by
  obtain ⟨front, rest, spans, whole, cut, stops⟩ := exists_cut text.toList 0
  have drained := cut.drain
  rw [← whole, Nat.zero_add] at drained
  cases rest with
  | nil =>
    rw [List.append_nil] at whole
    have final := Cursor.next_of_rest_nil (c := ⟨[], front.length⟩) rfl
    rw [Cursor.drain_of_finish final rfl] at drained
    refine .inl ⟨spans, whole ▸ cut, drained.trans ?_⟩
    simp [Except.map]
  | cons first back =>
    have other := stops first rfl
    rw [Cursor.drain_of_error (Cursor.next_of_not_readable other back front.length)] at drained
    exact .inr ⟨front, first, back, spans, whole, cut, other, drained⟩

end Reckon
