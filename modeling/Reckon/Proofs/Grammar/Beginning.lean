import Reckon.Proofs.Grammar.Derivation

namespace Reckon

inductive Missing where
  | operand (room : Nat)
  | closing
  | nothing
deriving DecidableEq, Repr

namespace Missing

def kind : Missing → Kind
  | operand _ => .integer
  | closing => .closing
  | nothing => .finish

def filling : Missing → List Token
  | operand _ => [.integer 0 0]
  | closing => [.symbol .closing ")" 0]
  | nothing => []

/-- The kinds of tokens with which the text cannot go on. Where there is no room for an operand, no
token is looked at. -/
def Refuses : Missing → Kind → Prop
  | operand 0, _ => False
  | operand (_ + 1), kind => kind.beginsOperand = false
  | closing, kind => kind.isOperator = false ∧ kind ≠ .closing
  | nothing, kind => kind.isOperator = false ∧ kind ≠ .finish

end Missing

/-- The tokens begin a phrase of the level, and what is missing next is the last argument: the phrase
breaks off in front of an operand or of a closing bracket, or is complete. -/
inductive Begins : Level → (room : Nat) → List Token → Missing → Prop where
  | whole {level room ts e} (derived : Derives level room ts e) : Begins level room ts .nothing
  | due {room} : Begins .operand room [] (.operand room)
  | single {room ts w} (only : Begins .product room ts w) : Begins .sum room ts w
  | sum {room ts us left w} {op : Token} (before : Derives .sum room ts left)
      (sign : op.kind.isSign = true) (last : Begins .product room us w) : Begins .sum room (ts ++ op :: us) w
  | factor {room ts w} (only : Begins .operand room ts w) : Begins .product room ts w
  | product {room ts us left w} {op : Token} (before : Derives .product room ts left)
      (scale : op.kind.isScale = true) (last : Begins .operand room us w) :
      Begins .product room (ts ++ op :: us) w
  | signed {room ts w} {op : Token} (sign : op.kind.isSign = true) (inner : Begins .operand room ts w) :
      Begins .operand (room + 1) (op :: ts) w
  | unsigned {room ts w} (inner : Begins .power room ts w) : Begins .operand (room + 1) ts w
  | base {room ts w} (only : Begins .atom room ts w) : Begins .power room ts w
  | power {room ts us base w} {op : Token} (before : Derives .atom room ts base)
      (raised : op.kind = .power) (last : Begins .operand room us w) : Begins .power room (ts ++ op :: us) w
  | blank {room} : Begins .atom room [] (.operand (room + 1))
  | bracket {room ts w} {opened : Token} (left : opened.kind = .opening) (inner : Begins .sum room ts w)
      (partway : w ≠ .nothing) : Begins .atom room (opened :: ts) w
  | closing {room ts e} {opened : Token} (left : opened.kind = .opening) (inner : Derives .sum room ts e) :
      Begins .atom room (opened :: ts) .closing

namespace Begins

/-- A phrase that breaks off goes on with what is missing and can then be completed. -/
theorem completion {level : Level} {room : Nat} {ts : List Token} {w : Missing}
    (begun : Begins level room ts w) (fits : w ≠ .operand 0) :
    ∃ more e, Derives level room (ts ++ w.filling ++ more) e := by
  induction begun with
  | @whole level room ts e derived => exact ⟨[], e, by simpa [Missing.filling] using derived⟩
  | @due room =>
    cases room with
    | zero => exact absurd rfl fits
    | succ room => exact ⟨[], .number 0, .unsigned (.base (.number rfl rfl))⟩
  | single _ ih =>
    obtain ⟨more, e, derived⟩ := ih fits
    exact ⟨more, e, .single derived⟩
  | @sum room ts us left w op before sign _ ih =>
    obtain ⟨more, e, derived⟩ := ih fits
    exact ⟨more, _, by simpa using Derives.sum before sign derived⟩
  | factor _ ih =>
    obtain ⟨more, e, derived⟩ := ih fits
    exact ⟨more, e, .factor derived⟩
  | @product room ts us left w op before scale _ ih =>
    obtain ⟨more, e, derived⟩ := ih fits
    exact ⟨more, _, by simpa using Derives.product before scale derived⟩
  | signed sign _ ih =>
    obtain ⟨more, e, derived⟩ := ih fits
    exact ⟨more, _, .signed sign derived⟩
  | unsigned _ ih =>
    obtain ⟨more, e, derived⟩ := ih fits
    exact ⟨more, e, .unsigned derived⟩
  | base _ ih =>
    obtain ⟨more, e, derived⟩ := ih fits
    exact ⟨more, e, .base derived⟩
  | @power room ts us base w op before raised _ ih =>
    obtain ⟨more, e, derived⟩ := ih fits
    exact ⟨more, _, by simpa using Derives.power before raised derived⟩
  | blank => exact ⟨[], .number 0, .number rfl rfl⟩
  | @bracket room ts w opened left _ _ ih =>
    obtain ⟨more, e, derived⟩ := ih fits
    have right : (Token.symbol .closing ")" 0).kind = .closing := rfl
    exact ⟨more ++ [.symbol .closing ")" 0], e, by simpa using Derives.bracket left derived right⟩
  | @closing room ts e opened left inner =>
    exact ⟨[], e, by simpa [Missing.filling] using Derives.bracket left inner rfl⟩

theorem exists_operand {level : Level} {room : Nat} {ts : List Token}
    (begun : Begins level room ts .closing) :
    ∃ us inner e, us <:+ ts ∧ Derives .operand inner us e := by
  generalize missing : Missing.closing = w at begun
  induction begun with
  | whole _ | due | blank => cases missing
  | single _ ih | factor _ ih | unsigned _ ih | base _ ih => exact ih missing
  | sum _ _ _ ih | product _ _ _ ih | power _ _ _ ih =>
    obtain ⟨us, inner, e, ends, operand⟩ := ih missing
    exact ⟨us, inner, e, suffix_behind ends, operand⟩
  | signed _ _ ih | bracket _ _ _ ih =>
    obtain ⟨us, inner, e, ends, operand⟩ := ih missing
    exact ⟨us, inner, e, ends.trans (List.suffix_cons ..), operand⟩
  | closing _ inner =>
    obtain ⟨us, e, ends, operand⟩ := inner.exists_operand_of_sum
    exact ⟨us, _, e, ends.trans (List.suffix_cons ..), operand⟩

theorem derives {level : Level} {room : Nat} {ts : List Token} (begun : Begins level room ts .nothing) :
    ∃ e, Derives level room ts e := by
  generalize missing : Missing.nothing = w at begun
  induction begun with
  | whole derived => exact ⟨_, derived⟩
  | due | blank | closing _ _ => cases missing
  | single _ ih =>
    obtain ⟨e, derived⟩ := ih missing
    exact ⟨e, .single derived⟩
  | sum before sign _ ih =>
    obtain ⟨e, derived⟩ := ih missing
    exact ⟨_, .sum before sign derived⟩
  | factor _ ih =>
    obtain ⟨e, derived⟩ := ih missing
    exact ⟨e, .factor derived⟩
  | product before scale _ ih =>
    obtain ⟨e, derived⟩ := ih missing
    exact ⟨_, .product before scale derived⟩
  | signed sign _ ih =>
    obtain ⟨e, derived⟩ := ih missing
    exact ⟨_, .signed sign derived⟩
  | unsigned _ ih =>
    obtain ⟨e, derived⟩ := ih missing
    exact ⟨e, .unsigned derived⟩
  | base _ ih =>
    obtain ⟨e, derived⟩ := ih missing
    exact ⟨e, .base derived⟩
  | power before raised _ ih =>
    obtain ⟨e, derived⟩ := ih missing
    exact ⟨_, .power before raised derived⟩
  | bracket _ _ partway _ => exact absurd missing.symm partway

end Begins

structure Embeds (front : List Token) (inner : Level) (room : Nat) (outer : Level) (space : Nat) : Prop where
  partway {ts : List Token} {w : Missing} (begun : Begins inner room ts w) (missing : w ≠ .nothing) :
    Begins outer space (front ++ ts) w
  whole {ts : List Token} {e : Expr} (derived : Derives inner room ts e) :
    ∃ w, Begins outer space (front ++ ts) w

namespace Embeds

variable {room : Nat} {ts : List Token} {left : Expr} {op : Token}

theorem first_member (room : Nat) : Embeds [] .product room .sum room :=
  ⟨fun begun _ => .single begun, fun derived => ⟨.nothing, .whole (.single derived)⟩⟩

theorem next_member (before : Derives .sum room ts left) (sign : op.kind.isSign = true) :
    Embeds (ts ++ [op]) .product room .sum room := by
  constructor
  · intro us w begun _
    rw [← List.append_cons]
    exact .sum before sign begun
  · intro us e derived
    rw [← List.append_cons]
    exact ⟨.nothing, .whole (.sum before sign derived)⟩

theorem first_factor (room : Nat) : Embeds [] .operand room .product room :=
  ⟨fun begun _ => .factor begun, fun derived => ⟨.nothing, .whole (.factor derived)⟩⟩

theorem next_factor (before : Derives .product room ts left) (scale : op.kind.isScale = true) :
    Embeds (ts ++ [op]) .operand room .product room := by
  constructor
  · intro us w begun _
    rw [← List.append_cons]
    exact .product before scale begun
  · intro us e derived
    rw [← List.append_cons]
    exact ⟨.nothing, .whole (.product before scale derived)⟩

theorem signed (room : Nat) (sign : op.kind.isSign = true) :
    Embeds [op] .operand room .operand (room + 1) :=
  ⟨fun begun _ => .signed sign begun, fun derived => ⟨.nothing, .whole (.signed sign derived)⟩⟩

theorem unsigned (room : Nat) : Embeds [] .power room .operand (room + 1) :=
  ⟨fun begun _ => .unsigned begun, fun derived => ⟨.nothing, .whole (.unsigned derived)⟩⟩

theorem base (room : Nat) : Embeds [] .atom room .power room :=
  ⟨fun begun _ => .base begun, fun derived => ⟨.nothing, .whole (.base derived)⟩⟩

theorem exponent (before : Derives .atom room ts left) (raised : op.kind = .power) :
    Embeds (ts ++ [op]) .operand room .power room := by
  constructor
  · intro us w begun _
    rw [← List.append_cons]
    exact .power before raised begun
  · intro us e derived
    rw [← List.append_cons]
    exact ⟨.nothing, .whole (.power before raised derived)⟩

theorem bracket (room : Nat) (opening : op.kind = .opening) : Embeds [op] .sum room .atom room :=
  ⟨fun begun missing => .bracket opening begun missing, fun derived => ⟨.closing, .closing opening derived⟩⟩

end Embeds

end Reckon
