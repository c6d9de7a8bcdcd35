import Reckon.Proofs.Grammar.Derivation
import Reckon.Proofs.Reader.Taking

namespace Reckon

namespace Reply

variable {m n : Nat} {e : Expr} {rest : Reader} {final : Except SyntaxError Expr × Reader}

def outcome : Reply n → Except SyntaxError Expr × Reader
  | tree e rest _ => (.ok e, rest)
  | failed e rest => (.error e, rest)

theorem weaken_outcome (reply : Reply m) (le : m ≤ n) : (reply.weaken le).outcome = reply.outcome := by
  cases reply <;> rfl

theorem andThen_outcome {reply : Reply m} {more : (e : Expr) → (rest : Reader) → rest.size < m → Reply n}
    (found : reply.outcome = (.ok e, rest)) (further : ∀ shorter, (more e rest shorter).outcome = final) :
    (reply.andThen more).outcome = final := by
  cases reply with
  | tree e' rest' shorter =>
    cases found
    exact further shorter
  | failed e' rest' => cases found

theorem close_outcome {reply : Reply n} (found : reply.outcome = (.ok e, rest)) :
    reply.close.outcome = (.ok e, { rest with depth := rest.depth - 1 }) := by
  cases reply with
  | tree e' rest' shorter =>
    cases found
    rfl
  | failed e' rest' => cases found

theorem taking_outcome {kind : Kind} {real : kind ≠ .finish} {r q : Reader}
    {more : (rest : Reader) → rest.size < r.size → Reply n} (same : r.current.kind = kind)
    (taken : r.advance = .ok q) (further : ∀ shorter, (more q shorter).outcome = final) :
    (r.taking kind real more).outcome = final := by
  have passed := Reader.expect_eq_ok_iff.mpr ⟨same, taken⟩
  unfold Reader.taking
  split
  · rename_i fault
    cases fault.symm.trans passed
  · rename_i rest through
    cases through.symm.trans passed
    exact further _

end Reply

namespace Level

theorem product_ends_at_sign {kind : Kind} (sign : kind.isSign = true) : product.continues kind = false := by
  revert sign
  cases kind <;> decide

theorem operand_ends_at_scale {kind : Kind} (scale : kind.isScale = true) : operand.continues kind = false := by
  revert scale
  cases kind <;> decide

theorem sum_end {kind : Kind} (stops : sum.continues kind = false) :
    kind.isSign = false ∧ product.continues kind = false := by
  simpa [continues, Kind.isOperator, and_assoc] using stops

end Level

namespace Reader

variable {limit room : Nat} {r q mid stop : Reader} {ts us : List Token} {op : Token} {e left right : Expr}

theorem Takes.cons_inv (takes : r.Takes (op :: ts) stop) :
    r.current = op ∧ ∃ q, r.advance = .ok q ∧ q.Takes ts stop := by
  cases takes with
  | cons _ taken further => exact ⟨rfl, _, taken, further⟩

theorem Takes.append_inv (takes : r.Takes (ts ++ us) stop) : ∃ mid, r.Takes ts mid ∧ mid.Takes us stop := by
  induction ts generalizing r with
  | nil => exact ⟨r, .nil, takes⟩
  | cons t ts ih =>
    cases takes with
    | cons more taken further =>
      obtain ⟨mid, first, second⟩ := ih further
      exact ⟨mid, .cons more taken first, second⟩

theorem Takes.around (takes : r.Takes (ts ++ op :: us) stop) :
    ∃ mid q, r.Takes ts mid ∧ mid.current = op ∧ mid.advance = .ok q ∧ q.Takes us stop ∧
      mid.depth = r.depth ∧ q.depth = r.depth := by
  obtain ⟨mid, first, second⟩ := takes.append_inv
  obtain ⟨here, q, taken, further⟩ := second.cons_inv
  have level := first.depth_eq
  exact ⟨mid, q, first, here, taken, further, level, (advance_eq_ok_iff.mp taken).2.trans level⟩

/-- What a level makes of the tokens of a phrase with the tree `e`. Sums and products go on with
further members and factors, if there are any behind the phrase. -/
def Finds (limit : Nat) : Level → (room : Nat) → List Token → Expr → Prop
  | .sum, room, ts, e => ∀ ⦃r stop : Reader⦄, r.Takes ts stop → r.depth + room ≤ limit →
    Level.product.continues stop.current.kind = false →
    (sum limit r).outcome = (sumTail limit e stop).outcome
  | .product, room, ts, e => ∀ ⦃r stop : Reader⦄, r.Takes ts stop → r.depth + room ≤ limit →
    Level.operand.continues stop.current.kind = false →
    (product limit r).outcome = (productTail limit e stop).outcome
  | .operand, room, ts, e => ∀ ⦃r stop : Reader⦄, r.Takes ts stop → r.depth + room ≤ limit →
    Level.operand.continues stop.current.kind = false → (operand limit r).outcome = (.ok e, stop)
  | .power, room, ts, e => ∀ ⦃r stop : Reader⦄, r.Takes ts stop → r.depth + room ≤ limit →
    Level.power.continues stop.current.kind = false → (power limit r).outcome = (.ok e, stop)
  | .atom, room, ts, e => ∀ ⦃r stop : Reader⦄, r.Takes ts stop → r.depth + room ≤ limit →
    (atom limit r).outcome = (.ok e, stop)

theorem sumTail_outcome_end (other : r.current.kind.isSign = false) :
    (sumTail limit left r).outcome = (.ok left, r) := by
  rw [sumTail, dif_neg (Bool.eq_false_iff.mp other)]
  rfl

theorem productTail_outcome_end (other : r.current.kind.isScale = false) :
    (productTail limit left r).outcome = (.ok left, r) := by
  rw [productTail, dif_neg (Bool.eq_false_iff.mp other)]
  rfl

theorem Finds.whole_product (finds : Finds limit .product room ts e) (takes : r.Takes ts stop)
    (fits : r.depth + room ≤ limit) (stops : Level.product.continues stop.current.kind = false) :
    (product limit r).outcome = (.ok e, stop) := by
  obtain ⟨other, last⟩ := Bool.or_eq_false_iff.mp stops
  rw [finds takes fits last]
  exact productTail_outcome_end other

theorem Finds.whole_sum (finds : Finds limit .sum room ts e) (takes : r.Takes ts stop)
    (fits : r.depth + room ≤ limit) (stops : Level.sum.continues stop.current.kind = false) :
    (sum limit r).outcome = (.ok e, stop) := by
  have ⟨other, last⟩ := Level.sum_end stops
  rw [finds takes fits last]
  exact sumTail_outcome_end other

theorem Finds.single (only : Finds limit .product room ts e) : Finds limit .sum room ts e := by
  intro r stop takes fits stops
  rw [Reader.sum]
  refine Reply.andThen_outcome (only.whole_product takes fits stops) ?_
  intro shorter
  exact Reply.weaken_outcome _ _

theorem Finds.sum (before : Finds limit .sum room ts left) (sign : op.kind.isSign = true)
    (last : Finds limit .product room us right) :
    Finds limit .sum room (ts ++ op :: us) (.binary left op.kind right) := by
  intro r stop takes fits stops
  obtain ⟨mid, q, first, rfl, taken, further, level, below⟩ := takes.around
  -- The members in front of the sign are not found by a call of their own.
  rw [before first fits (Level.product_ends_at_sign sign), sumTail, dif_pos sign]
  refine Reply.taking_outcome rfl taken ?_
  intro smaller
  refine Reply.andThen_outcome (last.whole_product further (below ▸ fits) stops) ?_
  intro shorter
  exact Reply.weaken_outcome _ _

theorem Finds.factor (only : Finds limit .operand room ts e) : Finds limit .product room ts e := by
  intro r stop takes fits stops
  rw [Reader.product]
  refine Reply.andThen_outcome (only takes fits stops) ?_
  intro shorter
  exact Reply.weaken_outcome _ _

theorem Finds.product (before : Finds limit .product room ts left) (scale : op.kind.isScale = true)
    (last : Finds limit .operand room us right) :
    Finds limit .product room (ts ++ op :: us) (.binary left op.kind right) := by
  intro r stop takes fits stops
  obtain ⟨mid, q, first, rfl, taken, further, level, below⟩ := takes.around
  rw [before first fits (Level.operand_ends_at_scale scale), productTail, dif_pos scale]
  refine Reply.taking_outcome rfl taken ?_
  intro smaller
  refine Reply.andThen_outcome (last further (below ▸ fits) stops) ?_
  intro shorter
  exact Reply.weaken_outcome _ _

theorem operand_outcome (fits : r.depth < limit)
    (found : (signed limit { r with depth := r.depth + 1 }).outcome = (.ok e, { stop with depth := r.depth + 1 })) :
    (operand limit r).outcome = (.ok e, { stop with depth := r.depth }) := by
  rw [operand_of_fits (Nat.not_le.mpr fits)]
  exact Reply.close_outcome found

theorem Finds.signed (sign : op.kind.isSign = true) (inner : Finds limit .operand room ts e) :
    Finds limit .operand (room + 1) (op :: ts) (.unary op.kind e) := by
  intro r stop takes fits stops
  have level := takes.depth_eq
  obtain ⟨rfl, q, taken, further⟩ := (takes.atDepth (r.depth + 1)).cons_inv
  have below : q.depth = r.depth + 1 := (advance_eq_ok_iff.mp taken).2
  have found : (Reader.signed limit { r with depth := r.depth + 1 }).outcome =
      (.ok (.unary r.current.kind e), { stop with depth := r.depth + 1 }) := by
    rw [Reader.signed, dif_pos sign]
    refine Reply.taking_outcome rfl taken ?_
    intro smaller
    refine Reply.andThen_outcome (inner further (by omega) stops) ?_
    intro shorter
    rfl
  rw [operand_outcome (by omega) found, ← level]

theorem Finds.unsigned (plain : ∃ first rest, ts = first :: rest ∧ first.kind.isSign = false)
    (inner : Finds limit .power room ts e) : Finds limit .operand (room + 1) ts e := by
  intro r stop takes fits stops
  obtain ⟨first, rest, rfl, other⟩ := plain
  have level := takes.depth_eq
  obtain ⟨rfl, -⟩ := takes.cons_inv
  have found : (Reader.signed limit { r with depth := r.depth + 1 }).outcome =
      (.ok e, { stop with depth := r.depth + 1 }) := by
    rw [Reader.signed, dif_neg (Bool.eq_false_iff.mp other)]
    exact inner (takes.atDepth (r.depth + 1)) (by simp only; omega) stops
  rw [operand_outcome (by omega) found, ← level]

theorem Finds.base (only : Finds limit .atom room ts e) : Finds limit .power room ts e := by
  intro r stop takes fits stops
  rw [Reader.power]
  refine Reply.andThen_outcome (only takes fits) ?_
  intro shorter
  have other : stop.current.kind ≠ .power := by simpa [Level.continues] using stops
  rw [if_neg other]
  rfl

theorem Finds.power (before : Finds limit .atom room ts left) (raised : op.kind = .power)
    (last : Finds limit .operand room us right) :
    Finds limit .power room (ts ++ op :: us) (.binary left .power right) := by
  intro r stop takes fits stops
  obtain ⟨mid, q, first, rfl, taken, further, level, below⟩ := takes.around
  rw [Reader.power]
  refine Reply.andThen_outcome (before first (level ▸ fits)) ?_
  intro shorter
  rw [if_pos raised]
  refine Reply.taking_outcome raised taken ?_
  intro smaller
  refine Reply.andThen_outcome (last further (below ▸ fits) stops) ?_
  intro shorter
  rfl

theorem Finds.number {t : Token} {value : Float} (integer : t.kind = .integer)
    (carried : t.number? = some value) : Finds limit .atom room [t] (.number value) := by
  intro r stop takes _
  obtain ⟨rfl, q, taken, further⟩ := takes.cons_inv
  cases further
  have opening : ¬ r.current.kind = .opening := by simp [integer]
  rw [atom, if_neg opening]
  refine Reply.taking_outcome integer taken ?_
  intro shorter
  rw [carried]
  rfl

theorem Finds.bracket {opened closed : Token} (left : opened.kind = .opening)
    (inner : Finds limit .sum room ts e) (right : closed.kind = .closing) :
    Finds limit .atom room (opened :: ts ++ [closed]) e := by
  intro r stop takes fits
  obtain ⟨rfl, q, taken, behind⟩ := takes.cons_inv
  obtain ⟨mid, p, first, rfl, closing, further, -⟩ := behind.around
  cases further
  have below := (advance_eq_ok_iff.mp taken).2
  have stops : Level.sum.continues mid.current.kind = false := by
    rw [right]
    rfl
  rw [atom, if_pos left]
  refine Reply.taking_outcome left taken ?_
  intro smaller
  refine Reply.andThen_outcome (inner.whole_sum first (below ▸ fits) stops) ?_
  intro shorter
  refine Reply.taking_outcome right closing ?_
  intro shorter
  rfl

end Reader

theorem Derives.exists_first {level : Level} {room : Nat} {ts : List Token} {e : Expr}
    (derived : Derives level room ts e) (inner : level = .power ∨ level = .atom) :
    ∃ first rest, ts = first :: rest ∧ first.kind.isSign = false := by
  induction derived with
  | base _ ih => exact ih (.inr rfl)
  | power _ _ _ ih _ =>
    obtain ⟨first, rest, rfl, other⟩ := ih (.inr rfl)
    exact ⟨first, _, rfl, other⟩
  | @number _ t _ integer _ => exact ⟨t, [], rfl, by rw [integer]; rfl⟩
  | @bracket _ _ _ opened _ left _ _ _ => exact ⟨opened, _, rfl, by rw [left]; rfl⟩
  | single _ _ | sum _ _ _ _ _ | factor _ _ | product _ _ _ _ _ | signed _ _ _ | unsigned _ _ => simp at inner

theorem Derives.finds {level : Level} {room : Nat} {ts : List Token} {e : Expr} (limit : Nat)
    (derived : Derives level room ts e) : Reader.Finds limit level room ts e := by
  induction derived with
  | single _ ih => exact ih.single
  | sum _ sign _ ihl ihr => exact ihl.sum sign ihr
  | factor _ ih => exact ih.factor
  | product _ scale _ ihl ihr => exact ihl.product scale ihr
  | signed sign _ ih => exact .signed sign ih
  | unsigned inner ih => exact .unsigned (inner.exists_first (.inl rfl)) ih
  | base _ ih => exact ih.base
  | power _ raised _ ihl ihr => exact ihl.power raised ihr
  | number integer carried => exact .number integer carried
  | bracket left _ right ih => exact .bracket left ih right

end Reckon
