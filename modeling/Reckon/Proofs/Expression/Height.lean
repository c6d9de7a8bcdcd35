import Reckon.Proofs.Expression.Acceptance
import Reckon.Proofs.Grammar.Spelling

namespace Reckon

namespace Expr

/-- The height of a tree where only signs and powers make it higher. -/
def nesting : Expr → Nat
  | number _ => 1
  | unary _ operand => operand.nesting + 1
  | binary left op right => max left.nesting right.nesting + (if op = .power then 1 else 0)

/-- The number of operators that join members of sums and factors of products. -/
def links : Expr → Nat
  | number _ => 0
  | unary _ operand => operand.links
  | binary left op right => left.links + right.links + (if op = .power then 0 else 1)

theorem nesting_of_link {op : Kind} (other : op ≠ .power) (left right : Expr) :
    (binary left op right).nesting = max left.nesting right.nesting := by
  simp [nesting, other]

theorem depth_le_nesting_add_links (e : Expr) : e.depth ≤ e.nesting + e.links := by
  induction e with
  | number value => exact Nat.le_refl 1
  | unary op operand ih =>
    simp only [depth, nesting, links]
    omega
  | binary left op right ihl ihr =>
    simp only [depth, nesting, links]
    split <;> omega

def ones : Nat → Expr
  | 0 => number (runValue ['1'])
  | n + 1 => binary (ones n) .plus (number (runValue ['1']))

theorem ones_depth (n : Nat) : (ones n).depth = n + 1 := by
  induction n with
  | zero => rfl
  | succ n ih =>
    simp only [ones, depth, ih]
    omega

end Expr

def Level.reach : Level → (room : Nat) → Nat
  | .sum, room | .product, room | .operand, room => room
  | .power, room => room + 1
  | .atom, room => max 1 room

theorem Derives.nesting_le {level : Level} {room : Nat} {ts : List Token} {e : Expr}
    (derived : Derives level room ts e) : e.nesting ≤ level.reach room := by
  induction derived with
  | single _ ih | factor _ ih | unsigned _ ih => exact ih
  | sum _ sign _ ihl ihr =>
    have other := Kind.ne_power_of_isSign sign
    rw [Expr.nesting_of_link other]
    exact Nat.max_le.mpr ⟨ihl, ihr⟩
  | product _ scale _ ihl ihr =>
    have other := Kind.ne_power_of_isScale scale
    rw [Expr.nesting_of_link other]
    exact Nat.max_le.mpr ⟨ihl, ihr⟩
  | signed _ _ ih => exact Nat.succ_le_succ ih
  | base _ ih =>
    simp only [Level.reach] at ih ⊢
    omega
  | power _ _ last ihl ihr =>
    -- The exponent has a place of its own, so a base without signs is no higher than the room.
    have place := last.room_pos (.inr (.inr rfl))
    simp only [Level.reach, Expr.nesting, if_true] at ihl ihr ⊢
    omega
  | number _ _ => exact Nat.le_max_left ..
  | bracket _ _ _ ih => exact Nat.le_trans ih (Nat.le_max_right ..)

def onesText : Nat → List Char
  | 0 => ['1']
  | n + 1 => onesText n ++ ['+'] ++ ['1']

theorem onesText_spells (n : Nat) : Spells .sum 1 (onesText n) (.ones n) := by
  have sign : Kind.plus.isSign = true := rfl
  have digits : DigitRun ['1'] := by simp [DigitRun]
  have one : Spells .product 1 ['1'] (.number (runValue ['1'])) := (Spells.number digits).base.factor
  induction n with
  | zero => exact one.single
  | succ n ih => exact ih.sum sign one (by simp)

theorem exists_parse_depth (trailing : Bool) {limit : Nat} (place : 0 < limit) (n : Nat) :
    ∃ text e, parse ⟨trailing, limit⟩ text = .ok e ∧ e.depth = n + 1 := by
  obtain ⟨ts, tokenized, derived⟩ := (onesText_spells n).exists_tokens
  have parsed := parse_strict_of_derives tokenized derived place
  exact ⟨_, _, parse_of_parse_strict parsed, Expr.ones_depth n⟩

/-- No bound on the height of the trees can be given by the greatest depth. -/
theorem not_depth_le_of_maxDepth :
    ¬ ∃ bound : Nat → Nat, ∀ policy text e, parse policy text = .ok e → e.depth ≤ bound policy.maxDepth := by
  rintro ⟨bound, bounded⟩
  obtain ⟨text, e, parsed, depth⟩ := exists_parse_depth false Nat.one_pos (bound 1)
  have high := bounded ⟨false, 1⟩ text e parsed
  rw [depth] at high
  exact Nat.not_succ_le_self _ high

/-- The greatest depth bounds the signs and powers on every way through a tree, and its height together
with the operators in chains. The height alone has a bound only where no text is accepted. -/
theorem depth_bounded_iff (trailing : Bool) (limit : Nat) :
    (∀ text e, parse ⟨trailing, limit⟩ text = .ok e → e.nesting ≤ limit ∧ e.depth ≤ limit + e.links) ∧
    ((∃ bound, ∀ text e, parse ⟨trailing, limit⟩ text = .ok e → e.depth ≤ bound) ↔ limit = 0) := by
  constructor
  · intro text e parsed
    obtain ⟨ts, -, -, derived, -⟩ := parse_eq_ok_iff.mp parsed
    have nested : e.nesting ≤ limit := derived.nesting_le
    have whole := e.depth_le_nesting_add_links
    exact ⟨nested, by omega⟩
  · constructor
    · rintro ⟨bound, bounded⟩
      by_cases none : limit = 0
      · exact none
      · obtain ⟨text, e, parsed, depth⟩ := exists_parse_depth trailing (Nat.pos_of_ne_zero none) bound
        have high := bounded text e parsed
        rw [depth] at high
        exact absurd high (Nat.not_succ_le_self _)
    · rintro rfl
      refine ⟨0, ?_⟩
      intro text e parsed
      obtain ⟨ts, -, -, derived, -⟩ := parse_eq_ok_iff.mp parsed
      exact absurd (derived.room_pos (.inl rfl)) (Nat.lt_irrefl 0)

end Reckon
