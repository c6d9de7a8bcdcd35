import Mathlib.Data.List.Basic
import Reckon.Proofs.Token.Layout
import Reckon.Proofs.Token.Shift

namespace Reckon

def DigitsMeet (front behind : List Char) : Prop :=
  (∃ c ∈ front.getLast?, c.isDigit = true) ∧ ∃ c ∈ behind.head?, c.isDigit = true

/-- The first text ends with a star that is a token of its own, and the second begins with a star. -/
def StarsMeet (front : List Char) (ts : List Token) (behind : List Char) : Prop :=
  (∃ t ∈ ts, t.kind = .times ∧ t.pos + 1 = front.length) ∧ behind.head? = some '*'

namespace Span

def shift (k : Nat) (s : Span) : Span :=
  { s with token := s.token.shift k }

def Straddles (s : Span) (place : Nat) : Prop :=
  s.token.pos < place ∧ place < s.past

theorem map_token_shift (k : Nat) (spans : List Span) :
    (spans.map (shift k)).map token = (spans.map token).map (Token.shift k) := by
  rw [List.map_map, List.map_map]
  rfl

end Span

namespace Lexeme

variable {cs rest other : List Char} {pos : Nat} {t : Token}

theorem shift (lexeme : Lexeme cs rest pos t) (k : Nat) : Lexeme cs rest (pos + k) (t.shift k) := by
  cases lexeme with
  | run digits ahead => exact .run digits ahead
  | symbol written single => exact .symbol written single

theorem digits_ahead (lexeme : Lexeme cs rest pos t) : ∀ c ∈ cs.getLast?, c.isDigit = true → NoDigitAhead rest := by
  cases lexeme with
  | run _ ahead => exact fun _ _ _ => ahead
  | @symbol kind _ _ written _ =>
    intro c last digit
    have none : kind.symbol.toList.any Char.isDigit = false := by
      cases kind with
      | integer | finish => simp at written
      | plus | minus | times | divide | power | opening | closing => decide
    exact absurd digit (List.any_eq_false.mp none c (List.mem_of_getLast? last))

end Lexeme

namespace Cut

variable {cs rest front back : List Char} {pos : Nat} {spans : List Span}

theorem shift (cut : Cut rest cs pos spans) (k : Nat) : Cut rest cs (pos + k) (spans.map (Span.shift k)) := by
  induction cut with
  | nil => exact .nil
  | blank blank _ ih =>
    rw [Nat.add_right_comm] at ih
    exact .blank blank ih
  | token begins _ ih =>
    rw [Nat.add_right_comm] at ih
    exact .token (begins.shift k) ih

theorem of_like {other : List Char} (cut : Cut rest cs pos spans) (like : BeginsLike other rest) :
    Cut other cs pos spans := by
  induction cut with
  | nil => exact .nil
  | blank blank _ ih => exact .blank blank ih
  | token begins _ ih => exact .token (begins.replace (like.behind _)) ih

theorem blanks {cs : List Char} (blank : ∀ c ∈ cs, Text.isBlank c = true) (rest : List Char) (pos : Nat) :
    Cut rest cs pos [] := by
  induction cs generalizing pos with
  | nil => exact .nil
  | cons c cs ih =>
    obtain ⟨first, further⟩ := List.forall_mem_cons.mp blank
    exact .blank first (ih further (pos + 1))

theorem split_at (cut : Cut rest (front ++ back) pos spans)
    (free : ∀ s ∈ spans, ¬ s.Straddles (pos + front.length)) :
    ∃ left right, spans = left ++ right ∧ Cut (back ++ rest) front pos left ∧
      Cut rest back (pos + front.length) right := by
  generalize whole : front ++ back = cs at cut
  induction cut generalizing front with
  | nil =>
    obtain ⟨rfl, rfl⟩ := List.append_eq_nil_iff.mp whole
    exact ⟨[], [], rfl, .nil, .nil⟩
  | @blank c cs pos spans blank further ih =>
    cases front with
    | nil =>
      subst whole
      exact ⟨[], spans, rfl, .nil, .blank blank further⟩
    | cons d front =>
      cases whole
      have place : pos + (c :: front).length = pos + 1 + front.length := by
        rw [List.length_cons]
        omega
      rw [place] at free ⊢
      obtain ⟨left, right, rfl, before, after⟩ := ih free rfl
      exact ⟨left, right, rfl, .blank blank before, after⟩
  | @token lexeme cs pos t spans begins further ih =>
    obtain ⟨first, later⟩ := List.forall_mem_cons.mp free
    by_cases empty : front = []
    · subst empty
      subst whole
      exact ⟨[], ⟨t, lexeme⟩ :: spans, rfl, .nil, .token begins further⟩
    · -- the lexeme begins in front of the place, and so it ends there
      have some := List.length_pos_iff.mpr empty
      have fits : lexeme.length ≤ front.length := by
        simp only [Span.Straddles, Span.past, begins.pos_eq] at first
        omega
      obtain ⟨inner, rfl⟩ := List.prefix_of_prefix_length_le ⟨cs, whole.symm⟩ ⟨back, rfl⟩ fits
      rw [List.append_assoc] at whole
      have behind : inner ++ back = cs := List.append_cancel_left whole
      rw [List.length_append, ← Nat.add_assoc] at later ⊢
      obtain ⟨left, right, rfl, before, after⟩ := ih later behind
      rw [← behind, List.append_assoc] at begins
      exact ⟨⟨t, lexeme⟩ :: left, right, rfl, .token begins before, after⟩

theorem not_straddles {m : Span} (cut : Cut rest cs pos spans) (member : m ∈ spans) :
    ∀ s ∈ spans, ¬ s.Straddles m.token.pos := by
  induction cut with
  | nil => cases member
  | blank _ _ ih => exact ih member
  | token begins further ih =>
    intro s other straddles
    rcases List.mem_cons.mp member with rfl | member
    · rcases List.mem_cons.mp other with rfl | other
      · exact Nat.lt_irrefl _ straddles.1
      · have behind := (further.within other).1
        have before := straddles.1
        rw [begins.pos_eq] at before
        omega
    · rcases List.mem_cons.mp other with rfl | other
      · have behind := (further.within member).1
        have inside := straddles.2
        simp only [Span.past, begins.pos_eq] at inside
        omega
      · exact ih member s other straddles

theorem digits_ahead (cut : Cut rest cs pos spans) :
    ∀ c ∈ cs.getLast?, c.isDigit = true → NoDigitAhead rest := by
  induction cut with
  | nil => simp
  | @blank c cs _ _ blank _ ih =>
    intro d last digit
    cases cs with
    | nil =>
      cases last
      cases blank.symm.trans (Text.isBlank_eq_false_of_isDigit c digit)
    | cons _ _ =>
      rw [List.getLast?_cons_cons] at last
      exact ih d last digit
  | @token lexeme cs _ _ _ begins _ ih =>
    intro d last digit
    cases cs with
    | nil =>
      rw [List.append_nil] at last
      exact begins.digits_ahead d last digit
    | cons e es =>
      rw [List.getLast?_append_of_ne_nil _ (List.cons_ne_nil e es)] at last
      exact ih d last digit

theorem no_star_ahead {s : Span} (cut : Cut rest (front ++ back) pos spans) (member : s ∈ spans)
    (times : s.token.kind = .times) (last : s.token.pos + 1 = pos + front.length) :
    (back ++ rest).head? ≠ some '*' := by
  obtain ⟨before, behind, whole, place, lexeme⟩ := cut.exists_place member
  obtain ⟨single, alone⟩ := lexeme.single_star times
  have length : (before ++ s.lexeme).length = front.length := by
    rw [List.length_append, single, List.length_singleton]
    omega
  rw [← List.append_assoc] at whole
  obtain ⟨-, rfl⟩ := List.append_inj whole length.symm
  exact alone

theorem ahead_of_seam (cut : Cut [] cs 0 spans) (digits : ¬ DigitsMeet cs back)
    (stars : ¬ StarsMeet cs (spans.map Span.token) back) : Cut back cs 0 spans := by
  apply cut.ahead
  intro s member ends
  obtain ⟨same, lexeme⟩ := cut.last_place member ends
  apply lexeme.of_seam
  · intro c last digit d head
    rw [← same] at last
    rw [← Bool.not_eq_true]
    intro digit'
    exact digits ⟨⟨c, last, digit⟩, d, head, digit'⟩
  · intro times star
    have place : s.token.pos + 1 = cs.length := by
      rw [← Nat.zero_add cs.length, ← ends, Span.past, (lexeme.single_star times).1]
      rfl
    exact stars ⟨⟨s.token, List.mem_map_of_mem (List.mem_of_getLast? member), times, place⟩, star⟩

theorem exists_first {c : Char} (cut : Cut rest cs pos spans) (head : c ∈ cs.head?)
    (visible : Text.isBlank c = false) : ∃ s ∈ spans, s.token.pos = pos := by
  cases cs with
  | nil => cases head
  | cons d cs =>
    cases head
    rcases cut.cons_inv with ⟨blank, -⟩ | ⟨lexeme, back, t, later, -, rfl, begins, -⟩
    · cases blank.symm.trans visible
    · exact ⟨⟨t, lexeme⟩, List.mem_cons_self .., begins.pos_eq⟩

theorem not_digitsMeet {m : Span} (cut : Cut [] (front ++ back) 0 spans) (member : m ∈ spans)
    (place : m.token.pos = front.length) : ¬ DigitsMeet front back := by
  rintro ⟨⟨c, last, digit⟩, d, head, digit'⟩
  have free := cut.not_straddles member
  rw [place, ← Nat.zero_add front.length] at free
  obtain ⟨left, right, -, before, -⟩ := cut.split_at free
  rw [List.append_nil] at before
  cases digit'.symm.trans (before.digits_ahead c last digit d head)

end Cut

section Texts

variable {s u text : String} {ts us : List Token}

theorem tokens_of_cut {spans : List Span} (cut : Cut [] text.toList 0 spans) :
    tokens text = .ok (spans.map Span.token) := by
  rcases tokens_cases text with ⟨others, cut', tokenized⟩ | ⟨front, first, back, others, whole, -, other, -⟩
  · rw [tokenized, cut.unique cut']
  · have legal := cut.readable first (by simp [whole])
    cases legal.symm.trans other

theorem exists_cut_of_tokens (tokenized : tokens text = .ok ts) :
    ∃ spans, Cut [] text.toList 0 spans ∧ spans.map Span.token = ts := by
  rcases tokens_cases text with ⟨spans, cut, tokenized'⟩ | ⟨_, _, _, _, -, -, -, torn⟩
  · exact ⟨spans, cut, Except.ok.inj (tokenized'.symm.trans tokenized)⟩
  · cases torn.symm.trans tokenized

theorem tokens_append (first : tokens s = .ok ts) (second : tokens u = .ok us)
    (digits : ¬ DigitsMeet s.toList u.toList) (stars : ¬ StarsMeet s.toList ts u.toList) :
    tokens (s ++ u) = .ok (ts ++ us.map (Token.shift s.length)) := by
  obtain ⟨left, cut, rfl⟩ := exists_cut_of_tokens first
  obtain ⟨right, cut', rfl⟩ := exists_cut_of_tokens second
  have before := cut.ahead_of_seam digits stars
  have after := cut'.shift s.toList.length
  have whole := before.append_end after
  rw [← String.toList_append] at whole
  rw [tokens_of_cut whole, List.map_append, Span.map_token_shift, String.length_toList]

theorem seam_of_tokens_append (second : tokens u = .ok us)
    (joined : tokens (s ++ u) = .ok (ts ++ us.map (Token.shift s.length))) :
    ¬ DigitsMeet s.toList u.toList ∧ ¬ StarsMeet s.toList ts u.toList := by
  obtain ⟨spans, whole, same⟩ := exists_cut_of_tokens joined
  rw [String.toList_append] at whole
  constructor
  · rintro ⟨run, d, head, digit⟩
    obtain ⟨right, cut, rfl⟩ := exists_cut_of_tokens second
    obtain ⟨m, member, start⟩ := cut.exists_first head (Text.isBlank_eq_false_of_isDigit d digit)
    have moved : m.token.shift s.length ∈ spans.map Span.token := by
      rw [same]
      exact List.mem_append_right _ (List.mem_map_of_mem (List.mem_map_of_mem member))
    obtain ⟨n, among, token⟩ := List.mem_map.mp moved
    have place : n.token.pos = s.toList.length := by
      rw [token, String.length_toList]
      simp [Token.shift, start]
    exact whole.not_digitsMeet among place ⟨run, d, head, digit⟩
  · rintro ⟨⟨t, member, times, place⟩, star⟩
    have kept : t ∈ spans.map Span.token := by
      rw [same]
      exact List.mem_append_left _ member
    obtain ⟨n, among, rfl⟩ := List.mem_map.mp kept
    apply whole.no_star_ahead among times
    · rw [place, Nat.zero_add]
    · rw [List.append_nil]
      exact star

def Between (front back : String) : Prop :=
  ∀ spans, Cut [] (front ++ back).toList 0 spans → ∀ s ∈ spans, ¬ s.Straddles front.length

def Token.moved (place k : Nat) (t : Token) : Token :=
  if t.pos < place then t else t.shift k

theorem BeginsLike.of_blanks {blanks : List Char} (blank : ∀ c ∈ blanks, Text.isBlank c = true) (rest : List Char) :
    BeginsLike (blanks ++ rest) rest := by
  cases blanks with
  | nil => exact .inl rfl
  | cons c cs =>
    right
    intro d head
    cases head
    exact blank c (List.mem_cons_self ..)

/-- Blanks can be put wherever a token is not torn by them. -/
theorem tokens_of_inserted_blanks {front blanks back : String} (tokenized : tokens (front ++ back) = .ok ts)
    (between : Between front back) (blank : ∀ c ∈ blanks.toList, Text.isBlank c = true) :
    tokens (front ++ blanks ++ back) = .ok (ts.map (Token.moved front.length blanks.length)) := by
  obtain ⟨spans, cut, rfl⟩ := exists_cut_of_tokens tokenized
  have free := between spans cut
  rw [String.toList_append] at cut
  rw [← String.length_toList, ← Nat.zero_add front.toList.length] at free
  obtain ⟨left, right, rfl, before, after⟩ := cut.split_at free
  rw [List.append_nil] at before
  have gap := (Cut.blanks blank back.toList (0 + front.toList.length)).append_end (after.shift blanks.toList.length)
  have whole := (before.of_like (.of_blanks blank back.toList)).append_end gap
  rw [← List.append_assoc, ← String.toList_append, ← String.toList_append] at whole
  have kept : ∀ s ∈ left, s.token.moved front.length blanks.length = s.token := by
    intro s member
    have place := before.within member
    rw [Nat.zero_add, String.length_toList] at place
    exact if_pos (by omega)
  have pushed : ∀ s ∈ right, s.token.moved front.length blanks.length = s.token.shift blanks.length := by
    intro s member
    have place := after.within member
    rw [Nat.zero_add, String.length_toList] at place
    exact if_neg (by omega)
  rw [tokens_of_cut whole, List.nil_append, List.map_append, List.map_append, List.map_append, Span.map_token_shift,
    List.map_map, List.map_map, List.map_map, String.length_toList]
  congr 2
  · exact (List.map_congr_left kept).symm
  · exact (List.map_congr_left pushed).symm

/-- Two texts in a row have the tokens of the first and, further on, those of the second, exactly if neither digits
nor stars meet at the seam. Blanks can be put in wherever no token has characters on both sides, and change nothing
but the positions behind them. -/
theorem tokens_append_iff (first : tokens s = .ok ts) (second : tokens u = .ok us) :
    (tokens (s ++ u) = .ok (ts ++ us.map (Token.shift s.length)) ↔
      ¬ DigitsMeet s.toList u.toList ∧ ¬ StarsMeet s.toList ts u.toList) ∧
    ∀ front blanks back, s = front ++ back → Between front back → (∀ c ∈ blanks.toList, Text.isBlank c = true) →
      tokens (front ++ blanks ++ back) = .ok (ts.map (Token.moved front.length blanks.length)) := by
  constructor
  · constructor
    · exact seam_of_tokens_append second
    · rintro ⟨digits, stars⟩
      exact tokens_append first second digits stars
  · intro front blanks back whole between blank
    rw [whole] at first
    exact tokens_of_inserted_blanks first between blank

end Texts

theorem tokens_append_behind_pair :
    tokens "2**" = .ok [.integer (runValue ['2']) 0, .symbol .power "**" 1] ∧
      tokens "*3" = .ok [.symbol .times "*" 0, .integer (runValue ['3']) 1] ∧
      tokens ("2**" ++ "*3") = .ok [.integer (runValue ['2']) 0, .symbol .power "**" 1, .symbol .times "*" 3,
        .integer (runValue ['3']) 4] ∧
      Between "2" "**" ∧ tokens ("2" ++ " " ++ "**") = .ok [.integer (runValue ['2']) 0, .symbol .power "**" 2] := by
  have digit (c : Char) (isDigit : c.isDigit = true) {rest : List Char} (ahead : NoDigitAhead rest) (pos : Nat) :
      Lexeme [c] rest pos (.integer (runValue [c]) pos) := .run ⟨List.cons_ne_nil c [], by simpa⟩ ahead
  have pair (rest : List Char) (pos : Nat) : Lexeme ['*', '*'] rest pos (.symbol .power "**" pos) :=
    @Lexeme.symbol .power _ _ (by decide) nofun
  have star {rest : List Char} (alone : rest.head? ≠ some '*') (pos : Nat) :
      Lexeme ['*'] rest pos (.symbol .times "*" pos) := @Lexeme.symbol .times _ _ (by decide) fun _ => alone
  have cut : Cut [] "2**".toList 0 [⟨.integer (runValue ['2']) 0, ['2']⟩, ⟨.symbol .power "**" 1, ['*', '*']⟩] :=
    @Cut.token [] ['2'] ['*', '*'] 0 _ _ (digit '2' rfl (by simp [NoDigitAhead]) 0)
      (@Cut.token [] ['*', '*'] [] 1 _ _ (pair [] 1) .nil)
  have cut' : Cut [] "*3".toList 0 [⟨.symbol .times "*" 0, ['*']⟩, ⟨.integer (runValue ['3']) 1, ['3']⟩] :=
    @Cut.token [] ['*'] ['3'] 0 _ _ (star (by simp) 0)
      (@Cut.token [] ['3'] [] 1 _ _ (digit '3' rfl (by simp [NoDigitAhead]) 1) .nil)
  have digits : ¬ DigitsMeet "2**".toList "*3".toList := by
    rintro ⟨-, c, head, digit⟩
    cases head
    cases digit
  have stars : ¬ StarsMeet "2**".toList [.integer (runValue ['2']) 0, .symbol .power "**" 1] "*3".toList := by
    rintro ⟨⟨t, member, times, -⟩, -⟩
    simp only [List.mem_cons, List.not_mem_nil, or_false] at member
    rcases member with rfl | rfl <;> cases times
  have between : Between "2" "**" := by
    intro spans whole s member straddles
    rw [cut.unique whole] at member
    simp only [List.mem_cons, List.not_mem_nil, or_false] at member
    rcases member with rfl | rfl
    · exact Nat.lt_irrefl 1 straddles.2
    · exact Nat.lt_irrefl 1 straddles.1
  have blank : ∀ c ∈ " ".toList, Text.isBlank c = true := List.all_eq_true.mp (by decide)
  have first := tokens_of_cut cut
  have second := tokens_of_cut cut'
  obtain ⟨joined, inserted⟩ := tokens_append_iff first second
  exact ⟨first, second, joined.mpr ⟨digits, stars⟩, between, inserted "2" " " "**" rfl between blank⟩

end Reckon
