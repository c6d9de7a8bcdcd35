import Reckon.Reader.Descent

namespace Reckon

inductive Level where
  | sum
  | product
  | operand
  | power
  | atom
deriving DecidableEq, Repr

/-- The tokens are a phrase of the level with this tree, found with no more operands open at once than
there is `room` for. An operand takes up one of the places and leaves the others to the operands
inside it; brackets take up none themselves. -/
inductive Derives : Level → (room : Nat) → List Token → Expr → Prop where
  | single {room ts e} (only : Derives .product room ts e) : Derives .sum room ts e
  | sum {room ts us left right} {op : Token} (before : Derives .sum room ts left)
      (sign : op.kind.isSign = true) (last : Derives .product room us right) :
      Derives .sum room (ts ++ op :: us) (.binary left op.kind right)
  | factor {room ts e} (only : Derives .operand room ts e) : Derives .product room ts e
  | product {room ts us left right} {op : Token} (before : Derives .product room ts left)
      (scale : op.kind.isScale = true) (last : Derives .operand room us right) :
      Derives .product room (ts ++ op :: us) (.binary left op.kind right)
  | signed {room ts e} {op : Token} (sign : op.kind.isSign = true) (inner : Derives .operand room ts e) :
      Derives .operand (room + 1) (op :: ts) (.unary op.kind e)
  | unsigned {room ts e} (inner : Derives .power room ts e) : Derives .operand (room + 1) ts e
  | base {room ts e} (only : Derives .atom room ts e) : Derives .power room ts e
  | power {room ts us base exponent} {op : Token} (before : Derives .atom room ts base)
      (raised : op.kind = .power) (last : Derives .operand room us exponent) :
      Derives .power room (ts ++ op :: us) (.binary base .power exponent)
  | number {room} {t : Token} {value : Float} (integer : t.kind = .integer)
      (carried : t.number? = some value) : Derives .atom room [t] (.number value)
  | bracket {room ts e} {opened closed : Token} (left : opened.kind = .opening)
      (inner : Derives .sum room ts e) (right : closed.kind = .closing) :
      Derives .atom room (opened :: ts ++ [closed]) e

namespace Kind

def isOperator (kind : Kind) : Bool :=
  kind.isSign || kind.isScale || kind == .power

def beginsOperand (kind : Kind) : Bool :=
  kind.isSign || kind == .integer || kind == .opening

theorem isOperator_of_isSign {kind : Kind} (sign : kind.isSign = true) : kind.isOperator = true := by
  simp [isOperator, sign]

theorem isOperator_of_isScale {kind : Kind} (scale : kind.isScale = true) : kind.isOperator = true := by
  simp [isOperator, scale]

theorem ne_bracket_of_isOperator {kind : Kind} (operator : kind.isOperator = true) :
    kind ≠ .opening ∧ kind ≠ .closing := by
  constructor <;> (rintro rfl; cases operator)

theorem ne_power_of_isSign {kind : Kind} (sign : kind.isSign = true) : kind ≠ .power := by
  rintro rfl
  cases sign

theorem ne_power_of_isScale {kind : Kind} (scale : kind.isScale = true) : kind ≠ .power := by
  rintro rfl
  cases scale

theorem beginsOperand_of_isSign {kind : Kind} (sign : kind.isSign = true) : kind.beginsOperand = true := by
  simp [beginsOperand, sign]

end Kind

/-- Whether an operator behind a phrase of a level makes a longer phrase of the same level. -/
def Level.continues : Level → Kind → Bool
  | .sum, kind => kind.isOperator
  | .product, kind => kind.isScale || kind == .power
  | .operand, kind | .power, kind => kind == .power
  | .atom, _ => false

namespace Token

def content (t : Token) : Kind × Option Float :=
  (t.kind, t.number?)

theorem kind_of_content {t u : Token} (same : t.content = u.content) : t.kind = u.kind :=
  (Prod.mk.inj same).1

theorem around_of_content {ts us vs : List Token} {op : Token}
    (same : vs.map content = (ts ++ op :: us).map content) :
    ∃ front here back, vs = front ++ here :: back ∧ front.map content = ts.map content ∧
      here.content = op.content ∧ back.map content = us.map content := by
  rw [List.map_append, List.map_cons] at same
  obtain ⟨front, rest, rfl, before, behind⟩ := List.map_eq_append_iff.mp same
  obtain ⟨here, back, rfl, alike, further⟩ := List.map_eq_cons_iff.mp behind
  exact ⟨front, here, back, rfl, before, alike, further⟩

end Token

theorem suffix_behind {α : Type} {t : α} {ts us vs : List α} (ends : vs <:+ us) : vs <:+ ts ++ t :: us :=
  (ends.trans (List.suffix_cons t us)).trans (List.suffix_append ts (t :: us))

namespace Derives

theorem mono {level : Level} {room more : Nat} {ts : List Token} {e : Expr}
    (derived : Derives level room ts e) (le : room ≤ more) : Derives level more ts e := by
  induction derived generalizing more with
  | single _ ih => exact .single (ih le)
  | sum _ sign _ ihl ihr => exact .sum (ihl le) sign (ihr le)
  | factor _ ih => exact .factor (ih le)
  | product _ scale _ ihl ihr => exact .product (ihl le) scale (ihr le)
  | signed sign _ ih =>
    obtain ⟨more, rfl⟩ := Nat.exists_eq_add_of_le' (Nat.zero_lt_of_lt le)
    exact .signed sign (ih (Nat.le_of_succ_le_succ le))
  | unsigned _ ih =>
    obtain ⟨more, rfl⟩ := Nat.exists_eq_add_of_le' (Nat.zero_lt_of_lt le)
    exact .unsigned (ih (Nat.le_of_succ_le_succ le))
  | base _ ih => exact .base (ih le)
  | power _ raised _ ihl ihr => exact .power (ihl le) raised (ihr le)
  | number integer carried => exact .number integer carried
  | bracket left _ right ih => exact .bracket left (ih le) right

theorem room_pos {level : Level} {room : Nat} {ts : List Token} {e : Expr}
    (derived : Derives level room ts e) (outer : level = .sum ∨ level = .product ∨ level = .operand) :
    0 < room := by
  induction derived with
  | single _ ih | factor _ ih => exact ih (by decide)
  | sum _ _ _ _ ih | product _ _ _ _ ih => exact ih (by decide)
  | signed _ _ _ | unsigned _ _ => exact Nat.succ_pos _
  | base _ _ | power _ _ _ _ _ | number _ _ | bracket _ _ _ _ => simp at outer

theorem exists_last {level : Level} {room : Nat} {ts : List Token} {e : Expr}
    (derived : Derives level room ts e) :
    ∃ last, [last] <:+ ts ∧ (last.kind = .integer ∨ last.kind = .closing) := by
  induction derived with
  | single _ ih | factor _ ih | unsigned _ ih | base _ ih => exact ih
  | sum _ _ _ _ ih | product _ _ _ _ ih | power _ _ _ _ ih =>
    obtain ⟨last, ends, kind⟩ := ih
    exact ⟨last, suffix_behind ends, kind⟩
  | signed _ _ ih =>
    obtain ⟨last, ends, kind⟩ := ih
    exact ⟨last, ends.trans (List.suffix_cons ..), kind⟩
  | @number _ t _ integer _ => exact ⟨t, List.suffix_rfl, .inl integer⟩
  | @bracket _ ts _ opened closed _ _ right _ => exact ⟨closed, List.suffix_append (opened :: ts) _, .inr right⟩

theorem exists_operand {room : Nat} {ts : List Token} {e : Expr} (derived : Derives .product room ts e) :
    ∃ us last, us <:+ ts ∧ Derives .operand room us last := by
  cases derived with
  | factor only => exact ⟨ts, e, List.suffix_rfl, only⟩
  | product _ _ last => exact ⟨_, _, suffix_behind List.suffix_rfl, last⟩

theorem exists_operand_of_sum {room : Nat} {ts : List Token} {e : Expr} (derived : Derives .sum room ts e) :
    ∃ us last, us <:+ ts ∧ Derives .operand room us last := by
  cases derived with
  | single only => exact only.exists_operand
  | sum _ _ last =>
    obtain ⟨us, e, ends, operand⟩ := last.exists_operand
    exact ⟨us, e, suffix_behind ends, operand⟩

theorem exists_integer {level : Level} {room : Nat} {ts : List Token} {e : Expr}
    (derived : Derives level room ts e) : ∃ t ∈ ts, t.kind = .integer := by
  induction derived with
  | single _ ih | factor _ ih | unsigned _ ih | base _ ih => exact ih
  | sum _ _ _ ih _ | product _ _ _ ih _ | power _ _ _ ih _ =>
    obtain ⟨t, member, kind⟩ := ih
    exact ⟨t, List.mem_append_left _ member, kind⟩
  | signed _ _ ih =>
    obtain ⟨t, member, kind⟩ := ih
    exact ⟨t, List.mem_cons_of_mem _ member, kind⟩
  | @number _ t _ integer _ => exact ⟨t, List.mem_singleton_self t, integer⟩
  | bracket _ _ _ ih =>
    obtain ⟨t, member, kind⟩ := ih
    exact ⟨t, List.mem_append_left _ (List.mem_cons_of_mem _ member), kind⟩

theorem of_content {level : Level} {room : Nat} {ts us : List Token} {e : Expr}
    (derived : Derives level room ts e) (same : us.map Token.content = ts.map Token.content) :
    Derives level room us e := by
  induction derived generalizing us with
  | single _ ih => exact .single (ih same)
  | sum _ sign _ ihl ihr =>
    obtain ⟨front, op, back, rfl, before, here, behind⟩ := Token.around_of_content same
    rw [← Token.kind_of_content here] at sign ⊢
    exact .sum (ihl before) sign (ihr behind)
  | factor _ ih => exact .factor (ih same)
  | product _ scale _ ihl ihr =>
    obtain ⟨front, op, back, rfl, before, here, behind⟩ := Token.around_of_content same
    rw [← Token.kind_of_content here] at scale ⊢
    exact .product (ihl before) scale (ihr behind)
  | signed sign _ ih =>
    obtain ⟨op, rest, rfl, here, behind⟩ := List.map_eq_cons_iff.mp same
    rw [← Token.kind_of_content here] at sign ⊢
    exact .signed sign (ih behind)
  | unsigned _ ih => exact .unsigned (ih same)
  | base _ ih => exact .base (ih same)
  | power _ raised _ ihl ihr =>
    obtain ⟨front, op, back, rfl, before, here, behind⟩ := Token.around_of_content same
    exact .power (ihl before) ((Token.kind_of_content here).trans raised) (ihr behind)
  | number integer carried =>
    obtain ⟨t, rest, rfl, here, none⟩ := List.map_eq_cons_iff.mp same
    cases List.map_eq_nil_iff.mp none
    exact .number ((Token.kind_of_content here).trans integer) ((Prod.mk.inj here).2.trans carried)
  | bracket left _ right ih =>
    obtain ⟨opened, rest, rfl, here, behind⟩ := List.map_eq_cons_iff.mp same
    obtain ⟨inner, closed, back, rfl, before, there, none⟩ := Token.around_of_content behind
    cases List.map_eq_nil_iff.mp none
    exact .bracket ((Token.kind_of_content here).trans left) (ih before) ((Token.kind_of_content there).trans right)

end Derives

end Reckon
