import Reckon.Proofs.Expression.Acceptance
import Reckon.Proofs.Token.Layout

namespace Reckon

inductive Operation where
  | plus
  | minus
  | times
  | divide
deriving DecidableEq, Repr

def Operation.kind : Operation → Kind
  | plus => .plus
  | minus => .minus
  | times => .times
  | divide => .divide

inductive Formula where
  | literal (n : Nat)
  | signed (negative : Bool) (operand : Formula)
  | binary (left : Formula) (operation : Operation) (right : Formula)
deriving DecidableEq, Repr

namespace Formula

def signKind (negative : Bool) : Kind :=
  if negative then .minus else .plus

def tree : Formula → Expr
  | literal n => .number (Decimal.nearest n)
  | signed negative operand => .unary (signKind negative) operand.tree
  | binary left operation right => .binary left.tree operation.kind right.tree

def literals : Formula → List Nat
  | literal n => [n]
  | signed _ operand => operand.literals
  | binary left _ right => left.literals ++ right.literals

/-- The characters write the formula as a phrase of the level, which is a sum, a product or an operand. Sums and
products lean to the left, a sign binds more tightly than both, and blanks around a phrase mean nothing. -/
inductive Writes : Level → List Char → Formula → Prop where
  | before {level c cs f} (blank : Text.isBlank c = true) (phrase : Writes level cs f) : Writes level (c :: cs) f
  | behind {level c cs f} (phrase : Writes level cs f) (blank : Text.isBlank c = true) : Writes level (cs ++ [c]) f
  | single {cs f} (only : Writes .product cs f) : Writes .sum cs f
  | sum {cs ds left right} {operation : Operation} (first : Writes .sum cs left)
      (sign : operation.kind.isSign = true) (last : Writes .product ds right) :
      Writes .sum (cs ++ (operation.kind.symbol.toList ++ ds)) (.binary left operation right)
  | factor {cs f} (only : Writes .operand cs f) : Writes .product cs f
  | product {cs ds left right} {operation : Operation} (first : Writes .product cs left)
      (scale : operation.kind.isScale = true) (last : Writes .operand ds right) :
      Writes .product (cs ++ (operation.kind.symbol.toList ++ ds)) (.binary left operation right)
  | signed {cs f} (negative : Bool) (inner : Writes .operand cs f) :
      Writes .operand ((signKind negative).symbol.toList ++ cs) (.signed negative f)
  | literal {run} (digits : DigitRun run) : Writes .operand run (.literal (Nat.ofDigitChars 10 run 0))
  | bracket {cs f} (inner : Writes .sum cs f) :
      Writes .operand (Kind.opening.symbol.toList ++ (cs ++ Kind.closing.symbol.toList)) f

theorem signKind_isSign (negative : Bool) : (signKind negative).isSign = true := by
  cases negative <;> rfl

theorem literals_length_of_tree {f g : Formula} (same : f.tree = g.tree) :
    f.literals.length = g.literals.length := by
  induction f generalizing g with
  | literal n =>
    cases g with
    | literal m => rfl
    | signed | binary => cases same
  | signed negative f ih =>
    cases g with
    | signed negative' g =>
      simp only [literals]
      exact ih (Expr.unary.inj same).2
    | literal | binary => cases same
  | binary left operation right ihl ihr =>
    cases g with
    | binary left' operation' right' =>
      obtain ⟨first, -, last⟩ := Expr.binary.inj same
      simp only [literals, List.length_append, ihl first, ihr last]
    | literal | signed => cases same

theorem eq_of_tree_of_literals {f g : Formula} (same : f.tree = g.tree) (alike : f.literals = g.literals) :
    f = g := by
  induction f generalizing g with
  | literal n =>
    cases g with
    | literal m =>
      cases alike
      rfl
    | signed | binary => cases same
  | signed negative f ih =>
    cases g with
    | signed negative' g =>
      obtain ⟨sign, inner⟩ := Expr.unary.inj same
      rw [ih inner alike]
      cases negative <;> cases negative' <;> first | rfl | cases sign
    | literal | binary => cases same
  | binary left operation right ihl ihr =>
    cases g with
    | binary left' operation' right' =>
      obtain ⟨first, kind, last⟩ := Expr.binary.inj same
      obtain ⟨before, behind⟩ := List.append_inj alike (literals_length_of_tree first)
      rw [ihl first before, ihr last behind]
      cases operation <;> cases operation' <;> first | rfl | cases kind
    | literal | signed => cases same

end Formula

def Span.numeral? (s : Span) : Option Nat :=
  if s.token.kind = .integer then some (Nat.ofDigitChars 10 s.lexeme 0) else none

namespace Cut

variable {cs ds rest : List Char} {pos : Nat} {spans later : List Span} {kind : Kind}

theorem symbol (written : kind ≠ .integer ∧ kind ≠ .finish) (single : kind = .times → (ds ++ rest).head? ≠ some '*')
    (cut : Cut rest ds (pos + kind.symbol.length) later) :
    ∃ s, s.token.kind = kind ∧ s.numeral? = none ∧ Cut rest (kind.symbol.toList ++ ds) pos (s :: later) := by
  rw [← String.length_toList] at cut
  refine ⟨⟨.symbol kind kind.symbol pos, kind.symbol.toList⟩, rfl, if_neg written.1, ?_⟩
  exact .token (.symbol written single) cut

theorem between (operator : kind.isOperator = true) (apart : (ds ++ rest).head? ≠ some '*')
    (cut : Cut (kind.symbol.toList ++ ds ++ rest) cs pos spans)
    (further : Cut rest ds (pos + cs.length + kind.symbol.length) later) :
    ∃ s, s.token.kind = kind ∧ s.numeral? = none ∧
      Cut rest (cs ++ (kind.symbol.toList ++ ds)) pos (spans ++ s :: later) := by
  obtain ⟨s, same, none, back⟩ := further.symbol (Kind.written_of_isOperator operator) fun _ => apart
  exact ⟨s, same, none, cut.append back⟩

end Cut

namespace Formula.Writes

variable {level : Level} {cs : List Char} {f : Formula}

theorem exists_head (writes : Writes level cs f) : ∃ c rest, cs = c :: rest ∧ c ≠ '*' := by
  induction writes with
  | @before _ c cs _ blank _ _ =>
    refine ⟨c, cs, rfl, ?_⟩
    rintro rfl
    cases blank
  | behind _ _ ih =>
    obtain ⟨c, rest, rfl, other⟩ := ih
    exact ⟨c, _, rfl, other⟩
  | single _ ih | factor _ ih => exact ih
  | sum _ _ _ ih _ | product _ _ _ ih _ =>
    obtain ⟨c, rest, rfl, other⟩ := ih
    exact ⟨c, _, rfl, other⟩
  | @signed cs _ negative _ _ =>
    obtain ⟨c, sign, other⟩ := Kind.symbol_of_isSign (signKind_isSign negative)
    rw [sign]
    exact ⟨c, cs, rfl, other⟩
  | @literal run digits =>
    obtain ⟨c, rest, rfl⟩ := List.exists_cons_of_ne_nil digits.1
    refine ⟨c, rest, rfl, ?_⟩
    rintro rfl
    cases digits.2 '*' (List.mem_cons_self ..)
  | @bracket cs _ _ _ => exact ⟨'(', _, rfl, by decide⟩

theorem apart (writes : Writes level cs f) (rest : List Char) : (cs ++ rest).head? ≠ some '*' := by
  obtain ⟨c, more, rfl, other⟩ := writes.exists_head
  exact fun star => other (Option.some.inj star)

end Formula.Writes

namespace Formula

def Lays (level : Level) (cs : List Char) (f : Formula) : Prop :=
  ∀ (rest : List Char) (pos : Nat), NoDigitAhead rest →
    ∃ spans room, Cut rest cs pos spans ∧ Derives level room (spans.map Span.token) f.tree ∧
      spans.filterMap Span.numeral? = f.literals

theorem Lays.between {first last : Level} {cs ds : List Char} {left right : Formula} {kind : Kind}
    (before : Lays first cs left) (behind : Lays last ds right) (operator : kind.isOperator = true)
    (apart : ∀ rest, (ds ++ rest).head? ≠ some '*') (rest : List Char) (pos : Nat) (ahead : NoDigitAhead rest) :
    ∃ spans s later room, s.token.kind = kind ∧
      Cut rest (cs ++ (kind.symbol.toList ++ ds)) pos (spans ++ s :: later) ∧
      Derives first room (spans.map Span.token) left.tree ∧ Derives last room (later.map Span.token) right.tree ∧
      (spans ++ s :: later).filterMap Span.numeral? = left.literals ++ right.literals := by
  have closed : NoDigitAhead (kind.symbol.toList ++ ds ++ rest) := by
    rw [List.append_assoc]
    exact Kind.symbol_noDigitAhead (Kind.written_of_isOperator operator) _
  obtain ⟨spans, room, cut, derived, numerals⟩ := before _ pos closed
  obtain ⟨later, room', cut', derived', numerals'⟩ := behind rest (pos + cs.length + kind.symbol.length) ahead
  obtain ⟨s, same, none, whole⟩ := cut.between operator (apart rest) cut'
  refine ⟨spans, s, later, max room room', same, whole, derived.mono (Nat.le_max_left ..),
    derived'.mono (Nat.le_max_right ..), ?_⟩
  rw [List.filterMap_append, List.filterMap_cons_none none, numerals, numerals']

theorem Writes.lays {level : Level} {cs : List Char} {f : Formula} (writes : Writes level cs f) :
    Lays level cs f := by
  induction writes with
  | before blank _ ih =>
    intro rest pos ahead
    obtain ⟨spans, room, cut, derived, numerals⟩ := ih rest (pos + 1) ahead
    exact ⟨spans, room, .blank blank cut, derived, numerals⟩
  | @behind _ c _ _ _ blank ih =>
    intro rest pos ahead
    have visible : NoDigitAhead ([c] ++ rest) := by
      intro d head
      cases head
      rw [← Bool.not_eq_true]
      intro digit
      cases blank.symm.trans (Text.isBlank_eq_false_of_isDigit c digit)
    obtain ⟨spans, room, cut, derived, numerals⟩ := ih ([c] ++ rest) pos visible
    have whole := cut.append (.blank blank .nil)
    rw [List.append_nil] at whole
    exact ⟨spans, room, whole, derived, numerals⟩
  | single _ ih =>
    intro rest pos ahead
    obtain ⟨spans, room, cut, derived, numerals⟩ := ih rest pos ahead
    exact ⟨spans, room, cut, .single derived, numerals⟩
  | factor _ ih =>
    intro rest pos ahead
    obtain ⟨spans, room, cut, derived, numerals⟩ := ih rest pos ahead
    exact ⟨spans, room, cut, .factor derived, numerals⟩
  | sum _ sign last ihl ihr =>
    intro rest pos ahead
    obtain ⟨spans, s, later, room, same, cut, derived, derived', numerals⟩ :=
      ihl.between ihr (Kind.isOperator_of_isSign sign) last.apart rest pos ahead
    refine ⟨_, room, cut, ?_, numerals⟩
    rw [← same] at sign
    rw [List.map_append, List.map_cons, tree, ← same]
    exact .sum derived sign derived'
  | product _ scale last ihl ihr =>
    intro rest pos ahead
    obtain ⟨spans, s, later, room, same, cut, derived, derived', numerals⟩ :=
      ihl.between ihr (Kind.isOperator_of_isScale scale) last.apart rest pos ahead
    refine ⟨_, room, cut, ?_, numerals⟩
    rw [← same] at scale
    rw [List.map_append, List.map_cons, tree, ← same]
    exact .product derived scale derived'
  | signed negative inner ih =>
    intro rest pos ahead
    have sign := signKind_isSign negative
    have written := Kind.written_of_isOperator (Kind.isOperator_of_isSign sign)
    obtain ⟨spans, room, cut, derived, numerals⟩ := ih rest (pos + (signKind negative).symbol.length) ahead
    obtain ⟨s, same, none, whole⟩ := cut.symbol written fun _ => inner.apart rest
    refine ⟨_, room + 1, whole, ?_, ?_⟩
    · rw [← same] at sign
      rw [tree, ← same]
      exact .signed sign derived
    · rw [List.filterMap_cons_none none, numerals, literals]
  | literal digits =>
    intro rest pos ahead
    exact ⟨_, 1, Cut.run digits ahead pos, .unsigned (.base (.number rfl rfl)), rfl⟩
  | @bracket cs _ inner ih =>
    intro rest pos ahead
    have opening : Kind.opening ≠ .integer ∧ Kind.opening ≠ .finish := by decide
    have closing : Kind.closing ≠ .integer ∧ Kind.closing ≠ .finish := by decide
    obtain ⟨spans, room, cut, derived, numerals⟩ := ih (Kind.closing.symbol.toList ++ rest)
      (pos + Kind.opening.symbol.length) (Kind.symbol_noDigitAhead closing rest)
    have final : Cut rest [] (pos + Kind.opening.symbol.length + cs.length + Kind.closing.symbol.length) [] := .nil
    obtain ⟨last, right, none', back⟩ := final.symbol closing nofun
    rw [List.append_nil] at back
    obtain ⟨first, left, none, whole⟩ := (cut.append back).symbol opening nofun
    refine ⟨_, room + 1, whole, ?_, ?_⟩
    · have enclosed := Derives.bracket left derived right
      rw [List.map_cons, List.map_append]
      exact .unsigned (.base enclosed)
    · rw [List.filterMap_cons_none none, List.filterMap_append, List.filterMap_cons_none none', numerals,
        List.filterMap_nil, List.append_nil]

end Formula

namespace Lexeme

variable {cs rest : List Char} {pos : Nat} {t : Token}

theorem eq_symbol (lexeme : Lexeme cs rest pos t) (other : t.kind ≠ .integer) : cs = t.kind.symbol.toList := by
  cases lexeme with
  | run _ _ => exact absurd rfl other
  | symbol _ _ => rfl

theorem run_of_integer (lexeme : Lexeme cs rest pos t) (integer : t.kind = .integer) :
    DigitRun cs ∧ t.number? = some (runValue cs) := by
  cases lexeme with
  | run digits _ => exact ⟨digits, rfl⟩
  | symbol written _ => exact absurd integer written.1

end Lexeme

namespace Cut

variable {cs rest : List Char} {pos : Nat}

theorem blank_of_nil (cut : Cut rest cs pos []) : ∀ c ∈ cs, Text.isBlank c = true := by
  generalize none : [] = spans at cut
  induction cut with
  | nil => simp
  | blank blank _ ih => exact List.forall_mem_cons.mpr ⟨blank, ih none⟩
  | token => cases none

theorem split {spans before later : List Span} {s : Span} (cut : Cut rest cs pos spans)
    (whole : spans = before ++ s :: later) :
    ∃ front back, cs = front ++ (s.lexeme ++ back) ∧ Cut (s.lexeme ++ back ++ rest) front pos before ∧
      Lexeme s.lexeme (back ++ rest) s.token.pos s.token ∧ Cut rest back s.past later := by
  induction cut generalizing before with
  | nil => simp at whole
  | @blank c _ _ _ blank _ ih =>
    obtain ⟨front, back, rfl, first, lexeme, last⟩ := ih whole
    exact ⟨c :: front, back, rfl, .blank blank first, lexeme, last⟩
  | @token lexeme cs pos t spans begins further ih =>
    have place := begins.pos_eq
    cases before with
    | nil =>
      cases whole
      rw [← place] at begins further
      exact ⟨[], cs, rfl, .nil, begins, further⟩
    | cons first before =>
      obtain ⟨rfl, more⟩ := List.cons.inj whole
      obtain ⟨front, back, rfl, first, lexeme', last⟩ := ih more
      rw [List.append_assoc] at begins
      exact ⟨lexeme ++ front, back, by simp, .token begins first, lexeme', last⟩

theorem split_symbol {spans : List Span} {ts us : List Token} {op : Token} (cut : Cut rest cs pos spans)
    (symbol : op.kind ≠ .integer) (same : spans.map Span.token = ts ++ op :: us) :
    ∃ front back ahead behind before later, cs = front ++ (op.kind.symbol.toList ++ back) ∧
      Cut ahead front pos before ∧ before.map Span.token = ts ∧ Cut rest back behind later ∧
      later.map Span.token = us := by
  obtain ⟨before, more, rfl, first, behind⟩ := List.map_eq_append_iff.mp same
  obtain ⟨s, later, rfl, rfl, last⟩ := List.map_eq_cons_iff.mp behind
  obtain ⟨front, back, rfl, cut, lexeme, further⟩ := cut.split rfl
  rw [lexeme.eq_symbol symbol] at cut ⊢
  exact ⟨front, back, _, _, before, later, rfl, cut, first, further, last⟩

theorem begins_symbol {spans : List Span} {us : List Token} {op : Token} (cut : Cut rest cs pos spans)
    (symbol : op.kind ≠ .integer) (same : spans.map Span.token = op :: us) :
    ∃ front back behind, cs = front ++ (op.kind.symbol.toList ++ back) ∧ (∀ c ∈ front, Text.isBlank c = true) ∧
      ∃ later, Cut rest back behind later ∧ later.map Span.token = us := by
  obtain ⟨front, back, _, behind, before, later, rfl, blanks, none, further, last⟩ :=
    @split_symbol _ _ _ _ [] _ _ cut symbol same
  cases List.map_eq_nil_iff.mp none
  exact ⟨front, back, behind, rfl, blanks.blank_of_nil, later, further, last⟩

end Cut

namespace Formula

variable {level : Level} {cs : List Char} {f : Formula}

theorem Writes.behind_blanks {blanks : List Char} (blank : ∀ c ∈ blanks, Text.isBlank c = true)
    (writes : Writes level cs f) : Writes level (blanks ++ cs) f := by
  induction blanks with
  | nil => exact writes
  | cons c blanks ih =>
    obtain ⟨first, more⟩ := List.forall_mem_cons.mp blank
    exact .before first (ih more)

theorem Writes.before_blanks {blanks : List Char} (blank : ∀ c ∈ blanks, Text.isBlank c = true)
    (writes : Writes level cs f) : Writes level (cs ++ blanks) f := by
  induction blanks generalizing cs with
  | nil =>
    rw [List.append_nil]
    exact writes
  | cons c blanks ih =>
    obtain ⟨first, more⟩ := List.forall_mem_cons.mp blank
    have longer := ih more (writes.behind first)
    rwa [List.append_assoc] at longer

def outer : Level → Level
  | .sum => .sum
  | .product => .product
  | .operand | .power | .atom => .operand

theorem exists_operation {kind : Kind} (operator : kind.isSign = true ∨ kind.isScale = true) :
    ∃ operation : Operation, operation.kind = kind := by
  cases kind with
  | plus => exact ⟨.plus, rfl⟩
  | minus => exact ⟨.minus, rfl⟩
  | times => exact ⟨.times, rfl⟩
  | divide => exact ⟨.divide, rfl⟩
  | integer | power | opening | closing | finish => simp [Kind.isSign, Kind.isScale] at operator

theorem exists_signKind {kind : Kind} (sign : kind.isSign = true) : ∃ negative, signKind negative = kind := by
  cases kind with
  | plus => exact ⟨false, rfl⟩
  | minus => exact ⟨true, rfl⟩
  | integer | times | divide | power | opening | closing | finish => cases sign

theorem ne_integer_of_isOperator {kind : Kind} (operator : kind.isOperator = true) : kind ≠ .integer :=
  (Kind.written_of_isOperator operator).1

theorem exists_writes {room : Nat} {ts : List Token} {e : Expr} (derived : Derives level room ts e)
    (powerless : ∀ t ∈ ts, t.kind ≠ .power) {rest : List Char} {pos : Nat} {spans : List Span}
    (cut : Cut rest cs pos spans) (same : spans.map Span.token = ts) :
    ∃ f : Formula, Writes (outer level) cs f ∧ f.tree = e := by
  induction derived generalizing rest cs pos spans with
  | single _ ih =>
    obtain ⟨f, writes, tree⟩ := ih powerless cut same
    exact ⟨f, .single writes, tree⟩
  | factor _ ih =>
    obtain ⟨f, writes, tree⟩ := ih powerless cut same
    exact ⟨f, .factor writes, tree⟩
  | unsigned _ ih | base _ ih => exact ih powerless cut same
  | power _ raised _ _ _ => exact absurd raised (powerless _ (by simp))
  | sum _ sign _ ihl ihr =>
    obtain ⟨front, back, _, _, before, later, rfl, cut, first, further, last⟩ :=
      cut.split_symbol (ne_integer_of_isOperator (Kind.isOperator_of_isSign sign)) same
    obtain ⟨left, writes, rfl⟩ := ihl (fun t member => powerless t (by simp [member])) cut first
    obtain ⟨right, writes', rfl⟩ := ihr (fun t member => powerless t (by simp [member])) further last
    obtain ⟨operation, kind⟩ := exists_operation (.inl sign)
    rw [← kind] at sign ⊢
    exact ⟨.binary left operation right, .sum writes sign writes', rfl⟩
  | product _ scale _ ihl ihr =>
    obtain ⟨front, back, _, _, before, later, rfl, cut, first, further, last⟩ :=
      cut.split_symbol (ne_integer_of_isOperator (Kind.isOperator_of_isScale scale)) same
    obtain ⟨left, writes, rfl⟩ := ihl (fun t member => powerless t (by simp [member])) cut first
    obtain ⟨right, writes', rfl⟩ := ihr (fun t member => powerless t (by simp [member])) further last
    obtain ⟨operation, kind⟩ := exists_operation (.inr scale)
    rw [← kind] at scale ⊢
    exact ⟨.binary left operation right, .product writes scale writes', rfl⟩
  | @signed _ ts _ op sign _ ih =>
    obtain ⟨front, back, _, rfl, blank, later, further, last⟩ :=
      cut.begins_symbol (ne_integer_of_isOperator (Kind.isOperator_of_isSign sign)) same
    obtain ⟨f, writes, rfl⟩ := ih (fun t member => powerless t (by simp [member])) further last
    obtain ⟨negative, kind⟩ := exists_signKind sign
    rw [← kind]
    exact ⟨.signed negative f, (Writes.signed negative writes).behind_blanks blank, rfl⟩
  | @number _ t value integer carried =>
    obtain ⟨s, later, rfl, rfl, none⟩ := List.map_eq_cons_iff.mp same
    cases List.map_eq_nil_iff.mp none
    obtain ⟨front, back, rfl, cut, lexeme, further⟩ := @Cut.split _ _ _ _ [] _ _ cut rfl
    obtain ⟨digits, number⟩ := lexeme.run_of_integer integer
    cases number.symm.trans carried
    exact ⟨_, ((Writes.literal digits).before_blanks further.blank_of_nil).behind_blanks cut.blank_of_nil, rfl⟩
  | @bracket _ ts _ opened closed left _ right ih =>
    have first : opened.kind ≠ .integer := by
      rw [left]
      decide
    have second : closed.kind ≠ .integer := by
      rw [right]
      decide
    obtain ⟨front, back, _, rfl, blank, later, further, rest⟩ := cut.begins_symbol first same
    obtain ⟨inside, behind, _, _, inner, after, rfl, cut, here, further, none⟩ := further.split_symbol second rest
    cases List.map_eq_nil_iff.mp none
    obtain ⟨f, writes, rfl⟩ := ih (fun t member => powerless t (by simp [member])) cut here
    rw [left, right]
    have enclosed := ((Writes.bracket writes).before_blanks further.blank_of_nil).behind_blanks blank
    simp only [List.append_assoc] at enclosed
    exact ⟨f, enclosed, rfl⟩

end Formula

theorem Cut.powerless {cs rest : List Char} {pos : Nat} {spans : List Span} (cut : Cut rest cs pos spans)
    (apart : ¬ ['*', '*'] <:+: cs) : ∀ t ∈ spans.map Span.token, t.kind ≠ .power := by
  intro t member power
  obtain ⟨s, found, rfl⟩ := List.mem_map.mp member
  obtain ⟨before, behind, whole, -, lexeme⟩ := cut.exists_place found
  have symbol : s.lexeme = ['*', '*'] := by
    rw [lexeme.eq_symbol (by rw [power]; decide), power]
    rfl
  rw [symbol, ← List.append_assoc] at whole
  exact apart ⟨before, behind, whole.symm⟩

theorem exists_formula {limit : Nat} {text : String} {e : Expr} (accepted : parse ⟨false, limit⟩ text = .ok e)
    (powerless : ¬ ['*', '*'] <:+: text.toList) :
    ∃ f : Formula, (∀ g, Formula.Writes .sum text.toList g ↔ g = f) ∧ f.tree = e := by
  obtain ⟨ts, tokenized, derived⟩ := derives_of_parse_strict accepted
  rcases tokens_cases text with ⟨spans, cut, tokenized'⟩ | ⟨_, _, _, _, -, -, -, torn⟩
  · cases tokenized'.symm.trans tokenized
    obtain ⟨f, writes, rfl⟩ := Formula.exists_writes derived (cut.powerless powerless) cut rfl
    have none : NoDigitAhead [] := by simp [NoDigitAhead]
    have laid (g : Formula) (writes : Formula.Writes .sum text.toList g) :
        g.tree = f.tree ∧ spans.filterMap Span.numeral? = g.literals := by
      -- large numbers are rounded to the same double, so the tree alone does not tell formulas apart
      obtain ⟨spans', room, cut', derived', numerals⟩ := writes.lays [] 0 none
      cases cut.unique cut'
      exact ⟨derives_unique_of_tokens tokenized derived' derived, numerals⟩
    refine ⟨f, fun g => ⟨fun writes' => ?_, fun same => same ▸ writes⟩, rfl⟩
    obtain ⟨tree, numerals⟩ := laid g writes'
    exact Formula.eq_of_tree_of_literals tree (numerals.symm.trans (laid f writes).2)
  · cases torn.symm.trans tokenized

/-- Every text that writes a formula is accepted, if it may be deep enough. -/
theorem Formula.Writes.exists_parse {text : String} {f : Formula} (writes : Writes .sum text.toList f) :
    ∃ limit, parse ⟨false, limit⟩ text = .ok f.tree := by
  obtain ⟨spans, room, cut, derived, -⟩ := writes.lays [] 0 (by simp [NoDigitAhead])
  rcases tokens_cases text with ⟨spans', cut', tokenized⟩ | ⟨front, first, back, _, whole, -, other, -⟩
  · cases cut.unique cut'
    exact ⟨room, parse_strict_of_derives tokenized derived (Nat.le_refl room)⟩
  · have legal := cut.readable first (by simp [whole])
    cases other.symm.trans legal

end Reckon
