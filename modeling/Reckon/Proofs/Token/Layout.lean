import Reckon.Proofs.Token.Cut

namespace Reckon

structure FirstUnreadable (cs : List Char) (e : Unreadable) : Prop where
  stands : cs[e.pos]? = some e.char
  unreadable : readable e.char = false
  first : ∀ i c, i < e.pos → cs[i]? = some c → readable c = true

namespace FirstUnreadable

theorem of_append {front back : List Char} {c : Char} (before : ∀ d ∈ front, readable d = true)
    (other : readable c = false) : FirstUnreadable (front ++ c :: back) ⟨c, front.length⟩ where
  stands := by simp
  unreadable := other
  first i d lt char := by
    rw [List.getElem?_append_left lt] at char
    exact before d (List.mem_of_getElem? char)

theorem unique {cs : List Char} {e e' : Unreadable} (first : FirstUnreadable cs e)
    (first' : FirstUnreadable cs e') : e = e' := by
  have apart (e e' : Unreadable) (first : FirstUnreadable cs e) (first' : FirstUnreadable cs e') :
      ¬ e.pos < e'.pos := by
    intro lt
    cases first.unreadable.symm.trans (first'.first e.pos e.char lt first.stands)
  have place : e.pos = e'.pos := by
    have le := apart e e' first first'
    have ge := apart e' e first' first
    omega
  have char := first.stands
  rw [place, first'.stands] at char
  cases e
  cases e'
  cases char
  cases place
  rfl

end FirstUnreadable

theorem tokens_eq_error_iff_firstUnreadable (text : String) (e : Unreadable) :
    tokens text = .error e ↔ FirstUnreadable text.toList e := by
  rcases tokens_cases text with ⟨spans, cut, tokenized⟩ | ⟨front, first, back, spans, whole, cut, other, torn⟩
  · constructor
    · intro torn
      cases tokenized.symm.trans torn
    · intro found
      cases found.unreadable.symm.trans (cut.readable e.char (List.mem_of_getElem? found.stands))
  · have found : FirstUnreadable text.toList ⟨first, front.length⟩ := by
      rw [whole]
      exact .of_append cut.readable other
    constructor
    · intro torn'
      rwa [← Except.error.inj (torn.symm.trans torn')]
    · intro found'
      rw [torn, found.unique found']

theorem exists_tokens_iff_readable (text : String) :
    (∃ ts, tokens text = .ok ts) ↔ ∀ c ∈ text.toList, readable c = true := by
  rcases tokens_cases text with ⟨spans, cut, tokenized⟩ | ⟨front, first, back, spans, whole, -, other, torn⟩
  · exact iff_of_true ⟨_, tokenized⟩ cut.readable
  · apply iff_of_false
    · rintro ⟨ts, tokenized⟩
      cases torn.symm.trans tokenized
    · intro all
      have member : first ∈ text.toList := by simp [whole]
      cases other.symm.trans (all first member)

namespace Span

variable (s : Span)

inductive Spelt : Span → Prop where
  | run {run pos} (digits : DigitRun run) : Spelt ⟨.integer (runValue run) pos, run⟩
  | symbol {kind : Kind} {pos} (written : kind ≠ .integer ∧ kind ≠ .finish) :
      Spelt ⟨.symbol kind kind.symbol pos, kind.symbol.toList⟩

def Covers (i : Nat) : Prop :=
  s.token.pos ≤ i ∧ i < s.past

def meets (first past : Nat) : Bool :=
  s.token.pos < past && first < s.past

theorem meets_iff {s : Span} {first past : Nat} :
    s.meets first past = true ↔ s.token.pos < past ∧ first < s.past := by
  simp [meets]

end Span

structure LongestRun (p : Char → Bool) (front run behind : List Char) : Prop where
  nonempty : run ≠ []
  inside : ∀ c ∈ run, p c = true
  before : ∀ c ∈ front.getLast?, p c = false
  after : ∀ c ∈ behind.head?, p c = false

namespace LongestRun

variable {front run behind : List Char}

theorem exists_head {p : Char → Bool} (longest : LongestRun p front run behind) :
    ∃ c, (run ++ behind).head? = some c ∧ p c = true := by
  obtain ⟨c, more, rfl⟩ := List.exists_cons_of_ne_nil longest.nonempty
  exact ⟨c, rfl, longest.inside c (List.mem_cons_self ..)⟩

theorem digits_apart (longest : LongestRun Char.isDigit front run behind) : Apart front (run ++ behind) := by
  obtain ⟨first, head, digit⟩ := longest.exists_head
  constructor
  · intro c last digit
    cases digit.symm.trans (longest.before c last)
  · rintro - star
    cases head.symm.trans star
    cases digit

theorem stars_apart (longest : LongestRun (· == '*') front run behind) : Apart front (run ++ behind) := by
  obtain ⟨first, head, star⟩ := longest.exists_head
  constructor
  · rintro - - - c other
    cases head.symm.trans other
    cases eq_of_beq star
    rfl
  · intro last
    cases longest.before '*' last

theorem stars_eq (longest : LongestRun (· == '*') front run behind) : run = List.replicate run.length '*' := by
  apply List.eq_replicate_of_mem
  intro c member
  exact eq_of_beq (longest.inside c member)

end LongestRun

/-- How the spans lie in a text that they are the tokens of. -/
structure Layout (cs : List Char) (spans : List Span) : Prop where
  spelt : ∀ s ∈ spans, s.Spelt
  stands : ∀ s ∈ spans, ∃ before behind, cs = before ++ (s.lexeme ++ behind) ∧ s.token.pos = before.length
  ordered : spans.Pairwise fun s later => s.token.pos < later.token.pos ∧ s.past ≤ later.token.pos
  uncovered : ∀ i c, cs[i]? = some c → (Text.isBlank c = true ↔ ∀ s ∈ spans, ¬ s.Covers i)
  digits : ∀ front run behind, cs = front ++ (run ++ behind) → LongestRun Char.isDigit front run behind →
    spans.filter (Span.meets · front.length (front.length + run.length)) =
      [⟨.integer (runValue run) front.length, run⟩]
  stars : ∀ front run behind, cs = front ++ (run ++ behind) → LongestRun (· == '*') front run behind →
    (spans.filter (Span.meets · front.length (front.length + run.length))).map (·.token.kind) =
      List.replicate (run.length / 2) .power ++ List.replicate (run.length % 2) .times

namespace Cut

variable {cs rest : List Char} {pos : Nat} {spans : List Span}

theorem spelt {s : Span} (cut : Cut rest cs pos spans) (member : s ∈ spans) : s.Spelt := by
  obtain ⟨before, behind, -, -, lexeme⟩ := cut.exists_place member
  obtain ⟨t, front⟩ := s
  simp only at lexeme
  have place := lexeme.pos_eq
  generalize t.pos = first at lexeme
  cases lexeme with
  | run digits _ => exact .run digits
  | symbol written _ => exact .symbol written

theorem within {s : Span} (cut : Cut rest cs pos spans) (member : s ∈ spans) :
    pos ≤ s.token.pos ∧ s.token.pos < s.past ∧ s.past ≤ pos + cs.length := by
  obtain ⟨before, behind, rfl, place, lexeme⟩ := cut.exists_place member
  have visible := lexeme.length_pos
  simp only [Span.past, place, List.length_append]
  omega

theorem ordered (cut : Cut rest cs pos spans) :
    spans.Pairwise fun s later => s.token.pos < later.token.pos ∧ s.past ≤ later.token.pos := by
  induction cut with
  | nil => exact .nil
  | blank _ _ ih => exact ih
  | token begins further ih =>
    apply List.Pairwise.cons _ ih
    intro later member
    have behind := (further.within member).1
    have visible := begins.length_pos
    simp only [Span.past, begins.pos_eq]
    omega

theorem uncovered (cut : Cut rest cs pos spans) :
    ∀ i c, cs[i]? = some c → (Text.isBlank c = true ↔ ∀ s ∈ spans, ¬ s.Covers (pos + i)) := by
  induction cut with
  | nil => simp
  | @blank first cs pos spans blank further ih =>
    intro i c char
    cases i with
    | zero =>
      cases char
      apply iff_of_true blank
      intro s member covers
      have behind := (further.within member).1
      have upTo := covers.1
      omega
    | succ i =>
      have same : pos + (i + 1) = pos + 1 + i := by omega
      rw [same]
      exact ih i c char
  | @token lexeme cs pos t spans begins further ih =>
    intro i c char
    by_cases inside : i < lexeme.length
    · rw [List.getElem?_append_left inside] at char
      have visible := begins.visible c (List.mem_of_getElem? char)
      apply iff_of_false
      · simp [visible]
      · intro bare
        apply bare _ (List.mem_cons_self ..)
        simp only [Span.Covers, Span.past, begins.pos_eq]
        omega
    · have outside : ¬ Span.Covers ⟨t, lexeme⟩ (pos + i) := by
        simp only [Span.Covers, Span.past, begins.pos_eq]
        omega
      have same : pos + i = pos + lexeme.length + (i - lexeme.length) := by omega
      rw [List.getElem?_append_right (by omega)] at char
      rw [ih _ c char, ← same, List.forall_mem_cons]
      exact ⟨fun bare => ⟨outside, bare⟩, fun bare => bare.2⟩

theorem exists_of_readable (all : ∀ c ∈ cs, Reckon.readable c = true) (pos : Nat) :
    ∃ spans, Cut [] cs pos spans := by
  obtain ⟨front, rest, spans, rfl, cut, stops⟩ := exists_cut cs pos
  cases rest with
  | nil =>
    rw [List.append_nil]
    exact ⟨spans, cut⟩
  | cons c rest =>
    have legal := all c (by simp)
    cases (stops c rfl).symm.trans legal

theorem append_end {back : List Char} {later : List Span} (cut : Cut back cs pos spans)
    (further : Cut [] back (pos + cs.length) later) : Cut [] (cs ++ back) pos (spans ++ later) := by
  rw [← List.append_nil back] at cut
  exact cut.append further

theorem filter_meets {front run behind : List Char} {inner : List Span}
    (cut : Cut [] (front ++ (run ++ behind)) 0 spans) (middle : Cut behind run front.length inner)
    (apart : Apart front (run ++ behind)) :
    spans.filter (Span.meets · front.length (front.length + run.length)) = inner := by
  have all := cut.readable
  simp only [List.forall_mem_append] at all
  obtain ⟨left, before⟩ := exists_of_readable all.1 0
  obtain ⟨right, after⟩ := exists_of_readable all.2.2 (front.length + run.length)
  have kept := before.ahead_of_apart apart
  have whole : Cut [] (front ++ (run ++ behind)) 0 (left ++ (inner ++ right)) := by
    apply kept.append_end
    rw [Nat.zero_add]
    exact middle.append_end after
  have none_left : ∀ s ∈ left, ¬ s.meets front.length (front.length + run.length) = true := by
    intro s member
    have place := before.within member
    rw [Span.meets_iff]
    omega
  have none_right : ∀ s ∈ right, ¬ s.meets front.length (front.length + run.length) = true := by
    intro s member
    have place := after.within member
    rw [Span.meets_iff]
    omega
  have each : ∀ s ∈ inner, s.meets front.length (front.length + run.length) = true := by
    intro s member
    have place := middle.within member
    rw [Span.meets_iff]
    omega
  rw [whole.unique cut, List.filter_append, List.filter_append, List.filter_eq_nil_iff.mpr none_left,
    List.filter_eq_nil_iff.mpr none_right, List.filter_eq_self.mpr each, List.nil_append, List.append_nil]

theorem run {run behind : List Char} (digits : DigitRun run) (ahead : NoDigitAhead behind) (pos : Nat) :
    Cut behind run pos [⟨.integer (runValue run) pos, run⟩] := by
  have begins : Lexeme run ([] ++ behind) pos (.integer (runValue run) pos) := .run digits ahead
  have only := Cut.token begins .nil
  rwa [List.append_nil] at only

theorem exists_stars {behind : List Char} (single : behind.head? ≠ some '*') :
    ∀ count pos, ∃ spans, Cut behind (List.replicate count '*') pos spans ∧
      spans.map (·.token.kind) = List.replicate (count / 2) .power ++ List.replicate (count % 2) .times
  | 0, pos => ⟨[], .nil, rfl⟩
  | 1, pos => by
    have star : Lexeme ['*'] ([] ++ behind) pos (.symbol .times "*" pos) :=
      @Lexeme.symbol .times _ _ (by decide) fun _ => single
    exact ⟨_, .token star .nil, rfl⟩
  | count + 2, pos => by
    obtain ⟨spans, cut, kinds⟩ := exists_stars single count (pos + 2)
    have pair : Lexeme ['*', '*'] (List.replicate count '*' ++ behind) pos (.symbol .power "**" pos) :=
      @Lexeme.symbol .power _ _ (by decide) nofun
    refine ⟨_, .token pair cut, ?_⟩
    rw [List.map_cons, kinds, Nat.add_div_right _ (by decide), Nat.add_mod_right]
    rfl

end Cut

theorem Cut.layout {cs : List Char} {spans : List Span} (cut : Cut [] cs 0 spans) : Layout cs spans where
  spelt s member := cut.spelt member
  stands s member := by
    obtain ⟨before, behind, whole, place, -⟩ := cut.exists_place member
    exact ⟨before, behind, whole, by omega⟩
  ordered := cut.ordered
  uncovered i c char := by
    have bare := cut.uncovered i c char
    rwa [Nat.zero_add] at bare
  digits front run behind whole longest := by
    subst whole
    have middle := Cut.run ⟨longest.nonempty, longest.inside⟩ longest.after front.length
    exact cut.filter_meets middle longest.digits_apart
  stars front run behind whole longest := by
    subst whole
    have single : behind.head? ≠ some '*' := by
      intro more
      cases longest.after '*' more
    obtain ⟨inner, middle, kinds⟩ := Cut.exists_stars single run.length front.length
    rw [← longest.stars_eq] at middle
    rw [cut.filter_meets middle longest.stars_apart, kinds]

/-- A text has tokens exactly if each of its characters may stand in one, else its first other character is
reported. The tokens are spelt by the characters that they cover, in order and without overlap; they leave the blanks
uncovered and nothing else; and runs of digits and of stars are cut in only one way. -/
theorem tokens_exact (text : String) :
    (∀ e, tokens text = .error e ↔ FirstUnreadable text.toList e) ∧
      ((∃ ts, tokens text = .ok ts) ↔ ∀ c ∈ text.toList, readable c = true) ∧
      ∀ ts, tokens text = .ok ts → ∃ spans, spans.map Span.token = ts ∧ Layout text.toList spans := by
  refine ⟨tokens_eq_error_iff_firstUnreadable text, exists_tokens_iff_readable text, ?_⟩
  intro ts tokenized
  rcases tokens_cases text with ⟨spans, cut, tokenized'⟩ | ⟨front, first, back, spans, -, -, -, torn⟩
  · exact ⟨spans, Except.ok.inj (tokenized'.symm.trans tokenized), cut.layout⟩
  · cases torn.symm.trans tokenized

end Reckon
