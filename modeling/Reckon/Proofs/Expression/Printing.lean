import Reckon.Proofs.Expression.Acceptance
import Reckon.Proofs.Grammar.Spelling

namespace Reckon

theorem Kind.operator_cases {kind : Kind} (operator : kind.isOperator = true) :
    (kind.isSign = true ∧ kind.isScale = false ∧ (kind == .power) = false) ∨
    (kind.isSign = false ∧ kind.isScale = true ∧ (kind == .power) = false) ∨ kind = .power := by
  revert operator
  cases kind <;> decide

namespace Expr

def isSum : Expr → Bool
  | binary _ op _ => op.isSign
  | _ => false

def isProduct : Expr → Bool
  | binary _ op _ => op.isScale
  | _ => false

def isOperand : Expr → Bool
  | unary _ _ => true
  | binary _ op _ => op == .power
  | number _ => false

def isNumber : Expr → Bool
  | number _ => true
  | _ => false

/-- The trees that have a text: with a sign in front of every lone operand, an operator between two of
them, and the value of a run of digits at every leaf. -/
def Grammatical : Expr → Prop
  | number value => ∃ run, DigitRun run ∧ runValue run = value
  | unary op operand => op.isSign = true ∧ operand.Grammatical
  | binary left op right => op.isOperator = true ∧ left.Grammatical ∧ right.Grammatical

/-- The text of a tree as a phrase of a level. A node that does not fit a level is written as on the
next one, and in brackets on the last. Any run of digits may stand for its value. -/
inductive Prints : Level → Expr → List Char → Prop where
  | sum {left right op cs ds} (sign : op.isSign = true) (before : Prints .sum left cs)
      (behind : Prints .product right ds) : Prints .sum (.binary left op right) (cs ++ op.symbol.toList ++ ds)
  | single {e cs} (other : e.isSum = false) (below : Prints .product e cs) : Prints .sum e cs
  | product {left right op cs ds} (scale : op.isScale = true) (before : Prints .product left cs)
      (behind : Prints .operand right ds) :
      Prints .product (.binary left op right) (cs ++ op.symbol.toList ++ ds)
  | factor {e cs} (other : e.isProduct = false) (below : Prints .operand e cs) : Prints .product e cs
  | signed {operand op cs} (sign : op.isSign = true) (inner : Prints .operand operand cs) :
      Prints .operand (.unary op operand) (op.symbol.toList ++ cs)
  | power {base exponent cs ds} (before : Prints .atom base cs) (behind : Prints .operand exponent ds) :
      Prints .operand (.binary base .power exponent) (cs ++ Kind.power.symbol.toList ++ ds)
  | base {e cs} (other : e.isOperand = false) (below : Prints .atom e cs) : Prints .operand e cs
  | number {run} (digits : DigitRun run) : Prints .atom (.number (runValue run)) run
  | bracket {e cs} (other : e.isNumber = false) (inner : Prints .sum e cs) : Prints .atom e ('(' :: cs ++ [')'])

namespace Prints

theorem head_ne_star {level : Level} {e : Expr} {cs : List Char} (prints : Prints level e cs)
    (rest : List Char) : (cs ++ rest).head? ≠ some '*' := by
  induction prints generalizing rest with
  | @sum _ _ op _ ds _ _ _ ih _ | @product _ _ op _ ds _ _ _ ih _ =>
    simpa using ih (op.symbol.toList ++ (ds ++ rest))
  | @power _ _ _ ds _ _ ih _ => simpa using ih (Kind.power.symbol.toList ++ (ds ++ rest))
  | single _ _ ih | factor _ _ ih | base _ _ ih => exact ih rest
  | @signed _ op _ sign _ _ =>
    obtain ⟨c, symbol, other⟩ := Kind.symbol_of_isSign sign
    simpa [symbol] using other
  | @number run digits =>
    obtain ⟨nonempty, all⟩ := digits
    cases run with
    | nil => exact absurd rfl nonempty
    | cons c cs =>
      simp only [List.cons_append, List.head?_cons, ne_eq, Option.some.injEq]
      rintro rfl
      cases all '*' (List.mem_cons_self ..)
  | bracket _ _ _ => simp

end Prints

end Expr

namespace Level

/-- Whether a tree written at the level leaves one of as many places as it has floors to spare: a chain
takes up none of its own, and neither does an atom that is no operand in brackets. -/
def spares : Level → Expr → Bool
  | .sum, e => e.isSum || e.isProduct
  | .product, e => e.isProduct
  | .operand, _ | .power, _ => false
  | .atom, e => !e.isOperand

def needs (level : Level) (e : Expr) : Nat :=
  if level.spares e then e.depth - 1 else e.depth

theorem needs_le_depth (level : Level) (e : Expr) : level.needs e ≤ e.depth := by
  unfold needs
  split
  · exact Nat.sub_le ..
  · exact Nat.le_refl _

theorem needs_le_left (level : Level) (left right : Expr) : level.needs left ≤ max left.depth right.depth :=
  Nat.le_trans (level.needs_le_depth left) (Nat.le_max_left ..)

theorem needs_le_right (level : Level) (left right : Expr) : level.needs right ≤ max left.depth right.depth :=
  Nat.le_trans (level.needs_le_depth right) (Nat.le_max_right ..)

end Level

namespace Expr

variable {left right e : Expr} {op : Kind}

theorem sum_needs (sign : op.isSign = true) :
    Level.sum.needs (.binary left op right) = max left.depth right.depth := by
  simp [Level.needs, Level.spares, isSum, sign, depth]

theorem product_needs (scale : op.isScale = true) :
    Level.product.needs (.binary left op right) = max left.depth right.depth := by
  simp [Level.needs, Level.spares, isProduct, scale, depth]

theorem single_needs (other : e.isSum = false) : Level.sum.needs e = Level.product.needs e := by
  have same : Level.sum.spares e = Level.product.spares e := by simp [Level.spares, other]
  simp only [Level.needs, same]

theorem factor_needs (other : e.isProduct = false) : Level.product.needs e = Level.operand.needs e := by
  simp [Level.needs, Level.spares, other]

theorem base_needs (other : e.isOperand = false) : Level.operand.needs e = Level.atom.needs e + 1 := by
  have positive := e.depth_pos
  simp only [Level.needs, Level.spares, other, Bool.not_false, if_true, if_false, Bool.false_eq_true]
  omega

theorem Grammatical.fits (grammatical : e.Grammatical) (node : e.isNumber = false) :
    e.isSum = true ∨ e.isProduct = true ∨ e.isOperand = true := by
  cases e with
  | number value => cases node
  | unary op operand => exact .inr (.inr rfl)
  | binary left op right =>
    obtain ⟨operator, -, -⟩ := grammatical
    simpa [isSum, isProduct, isOperand, Kind.isOperator, or_assoc] using operator

theorem Grammatical.bracket_needs (grammatical : e.Grammatical) (node : e.isNumber = false) :
    Level.sum.needs e ≤ Level.atom.needs e := by
  cases operand : e.isOperand with
  | true =>
    have whole : Level.atom.needs e = e.depth := by simp [Level.needs, Level.spares, operand]
    rw [whole]
    exact Level.sum.needs_le_depth e
  | false =>
    rcases grammatical.fits node with sum | product | operand'
    · simp [Level.needs, Level.spares, operand, sum]
    · simp [Level.needs, Level.spares, operand, product]
    · cases operand.symm.trans operand'

theorem Prints.spells {level : Level} {cs : List Char} (prints : Prints level e cs) (grammatical : e.Grammatical) :
    Spells level (level.needs e) cs e := by
  induction prints with
  | @sum left right _ _ _ sign _ behind ihl ihr =>
    obtain ⟨-, first, last⟩ := grammatical
    rw [sum_needs sign]
    have before := (ihl first).mono (Level.needs_le_left _ left right)
    have behind' := (ihr last).mono (Level.needs_le_right _ left right)
    exact before.sum sign behind' behind.head_ne_star
  | single other _ ih =>
    rw [single_needs other]
    exact (ih grammatical).single
  | @product left right _ _ _ scale _ behind ihl ihr =>
    obtain ⟨-, first, last⟩ := grammatical
    rw [product_needs scale]
    have before := (ihl first).mono (Level.needs_le_left _ left right)
    have behind' := (ihr last).mono (Level.needs_le_right _ left right)
    exact before.product scale behind' behind.head_ne_star
  | factor other _ ih =>
    rw [factor_needs other]
    exact (ih grammatical).factor
  | signed sign _ ih => exact (ih grammatical.2).signed sign
  | @power left right _ _ _ behind ihl ihr =>
    obtain ⟨-, first, last⟩ := grammatical
    have before := (ihl first).mono (Level.needs_le_left _ left right)
    have behind' := (ihr last).mono (Level.needs_le_right _ left right)
    exact before.power behind' behind.head_ne_star
  | base other _ ih =>
    rw [base_needs other]
    exact (ih grammatical).base
  | number digits => exact .number digits
  | bracket node _ ih => exact ((ih grammatical).mono (grammatical.bracket_needs node)).bracket

theorem exists_prints (grammatical : e.Grammatical) :
    (∃ cs, Prints .sum e cs) ∧ (∃ cs, Prints .product e cs) ∧ (∃ cs, Prints .operand e cs) ∧
      ∃ cs, Prints .atom e cs := by
  induction e with
  | number value =>
    obtain ⟨run, digits, rfl⟩ := grammatical
    have atom := Prints.number digits
    have operand := Prints.base rfl atom
    have product := Prints.factor rfl operand
    exact ⟨⟨_, .single rfl product⟩, ⟨_, product⟩, ⟨_, operand⟩, ⟨_, atom⟩⟩
  | unary op inner ih =>
    obtain ⟨sign, below⟩ := grammatical
    obtain ⟨-, -, ⟨cs, prints⟩, -⟩ := ih below
    have operand := Prints.signed sign prints
    have product := Prints.factor rfl operand
    have sum := Prints.single rfl product
    exact ⟨⟨_, sum⟩, ⟨_, product⟩, ⟨_, operand⟩, ⟨_, .bracket rfl sum⟩⟩
  | binary left op right ihl ihr =>
    obtain ⟨operator, first, last⟩ := grammatical
    obtain ⟨⟨cs, inSum⟩, ⟨cs', inProduct⟩, -, ⟨cs'', inAtom⟩⟩ := ihl first
    obtain ⟨-, ⟨ds, toProduct⟩, ⟨ds', toOperand⟩, -⟩ := ihr last
    -- The node is written plainly up to the level that it fits, and in brackets on those behind it.
    rcases Kind.operator_cases operator with ⟨sign, scale, power⟩ | ⟨sign, scale, power⟩ | rfl
    · have sum := Prints.sum sign inSum toProduct
      have atom := Prints.bracket rfl sum
      have operand : Prints .operand (.binary left op right) _ := .base power atom
      exact ⟨⟨_, sum⟩, ⟨_, .factor scale operand⟩, ⟨_, operand⟩, ⟨_, atom⟩⟩
    · have product := Prints.product scale inProduct toOperand
      have sum : Prints .sum (.binary left op right) _ := .single sign product
      have atom := Prints.bracket rfl sum
      exact ⟨⟨_, sum⟩, ⟨_, product⟩, ⟨_, .base power atom⟩, ⟨_, atom⟩⟩
    · have operand := Prints.power inAtom toOperand
      have product := Prints.factor rfl operand
      have sum := Prints.single rfl product
      exact ⟨⟨_, sum⟩, ⟨_, product⟩, ⟨_, operand⟩, ⟨_, .bracket rfl sum⟩⟩

/-- Every tree that can be written has a text, and each of its texts is parsed to the tree. -/
theorem parse_of_prints (grammatical : e.Grammatical) :
    (∃ cs, Prints .sum e cs) ∧ ∀ limit cs, e.depth ≤ limit → Prints .sum e cs →
      parse ⟨false, limit⟩ (String.ofList cs) = .ok e := by
  refine ⟨(exists_prints grammatical).1, ?_⟩
  intro limit cs fits prints
  obtain ⟨ts, tokenized, derived⟩ := (prints.spells grammatical).exists_tokens
  exact parse_strict_of_derives tokenized derived (Nat.le_trans (Level.needs_le_depth _ _) fits)

theorem parse_of_prints_power :
    let e : Expr := .binary (.unary .minus (.number (runValue ['2']))) .power
      (.unary .plus (.binary (.number (runValue ['0', '3'])) .minus (.number (runValue ['1']))))
    e.Grammatical ∧ e.depth ≤ 4 ∧ Prints .sum e "(-2)**+(03-1)".toList ∧
      parse ⟨false, 4⟩ (String.ofList "(-2)**+(03-1)".toList) = .ok e := by
  intro e
  have two : DigitRun ['2'] := by simp [DigitRun]
  have three : DigitRun ['0', '3'] := by simp [DigitRun]
  have one : DigitRun ['1'] := by simp [DigitRun]
  have grammatical : e.Grammatical := ⟨rfl, ⟨rfl, _, two, rfl⟩, rfl, rfl, ⟨_, three, rfl⟩, _, one, rfl⟩
  have fits : e.depth ≤ 4 := Nat.le_refl 4
  have minus : Kind.minus.isSign = true := rfl
  have plus : Kind.plus.isSign = true := rfl
  have base : Prints .sum (.unary .minus (.number (runValue ['2']))) "-2".toList :=
    .single rfl (.factor rfl (.signed minus (.base rfl (.number two))))
  have exponent : Prints .sum (.binary (.number (runValue ['0', '3'])) .minus (.number (runValue ['1'])))
      "03-1".toList :=
    .sum minus (.single rfl (.factor rfl (.base rfl (.number three)))) (.factor rfl (.base rfl (.number one)))
  have prints : Prints .sum e "(-2)**+(03-1)".toList :=
    .single rfl (.factor rfl (.power (.bracket rfl base) (.signed plus (.base rfl (.bracket rfl exponent)))))
  exact ⟨grammatical, fits, prints, (parse_of_prints grammatical).2 4 _ fits prints⟩

end Expr

end Reckon
