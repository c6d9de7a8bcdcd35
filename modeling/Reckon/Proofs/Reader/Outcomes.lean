import Reckon.Proofs.Reader.Replies

namespace Reckon

namespace Level

theorem sum_stops {kind : Kind} (stops : product.continues kind = false) (other : ¬ kind.isSign = true) :
    sum.continues kind = false := by
  simp only [continues, Bool.or_eq_false_iff] at stops
  simp [continues, Kind.isOperator, other, stops]

theorem product_stops {kind : Kind} (stops : operand.continues kind = false) (other : ¬ kind.isScale = true) :
    product.continues kind = false := by
  simp only [continues] at stops
  simp [continues, other, stops]

end Level

namespace Reader

def PhraseReports (limit : Nat) (phrase : Level) (room : Nat) (r : Reader) (reply : Reply r.size) : Prop :=
  r.current.Valued → reply.Reports limit phrase room r

/-- What makes a phrase longer reports of the whole phrase, which begins with the tokens taken for the
tree so far. -/
def TailReports (limit : Nat) (chain link : Level) (left : Expr) (r : Reader) (reply : Reply (r.size + 1)) :
    Prop :=
  ∀ ⦃q ts⦄, q.Takes ts r → Derives chain (limit - q.depth) ts left → link.continues r.current.kind = false →
    reply.Reports limit chain (limit - q.depth) q

variable {limit : Nat} {left : Expr} {r : Reader}

theorem PhraseReports.behind {phrase : Level} {q : Reader} {ts : List Token} {reply : Reply q.size}
    (reports : PhraseReports limit phrase (limit - q.depth) q reply) (taken : r.Takes ts q)
    (valued : q.current.Valued) : reply.Reports limit phrase (limit - r.depth) q := by
  rw [← taken.depth_eq]
  exact reports valued

theorem sum_reports (first : PhraseReports limit .product (limit - r.depth) r (product limit r))
    (further : ∀ left rest, rest.size < r.size →
      TailReports limit .sum .product left rest (sumTail limit left rest)) :
    PhraseReports limit .sum (limit - r.depth) r (sum limit r) := by
  intro valued
  rw [sum]
  refine (first valued).andThen .nil (.first_member _) ?_
  intro us e rest shorter takes derived stops
  exact (further e rest shorter takes (.single derived) stops).weaken shorter

theorem product_reports (first : PhraseReports limit .operand (limit - r.depth) r (operand limit r))
    (further : ∀ left rest, rest.size < r.size →
      TailReports limit .product .operand left rest (productTail limit left rest)) :
    PhraseReports limit .product (limit - r.depth) r (product limit r) := by
  intro valued
  rw [product]
  refine (first valued).andThen .nil (.first_factor _) ?_
  intro us e rest shorter takes derived stops
  exact (further e rest shorter takes (.factor derived) stops).weaken shorter

theorem sumTail_reports (sign : r.current.kind.isSign = true)
    (next : ∀ q : Reader, q.size < r.size → PhraseReports limit .product (limit - q.depth) q (product limit q))
    (further : ∀ q : Reader, q.size < r.size → ∀ right rest, rest.size < q.size →
      TailReports limit .sum .product (.binary left r.current.kind right) rest
        (sumTail limit (.binary left r.current.kind right) rest)) :
    TailReports limit .sum .product left r (sumTail limit left r) := by
  intro start ts taken derived _
  rw [sumTail, dif_pos sign]
  refine Reply.Reports.taking _ taken (absurd rfl) (fun _ => ⟨_, .sum derived sign (.factor .due)⟩) ?_
  intro q smaller _ takenSign valued
  refine ((next q smaller).behind takenSign valued).andThen takenSign (.next_member derived sign) ?_
  intro us right rest shorter takes member stops
  have taken := takenSign.append takes
  rw [← List.append_cons] at taken
  exact (further q smaller right rest shorter taken (.sum derived sign member) stops).weaken _

theorem sumTail_reports_end (other : ¬ r.current.kind.isSign = true) :
    TailReports limit .sum .product left r (sumTail limit left r) := by
  intro start ts taken derived stops
  rw [sumTail, dif_neg other]
  exact ⟨ts, taken, derived, Level.sum_stops stops other⟩

theorem productTail_reports (scale : r.current.kind.isScale = true)
    (next : ∀ q : Reader, q.size < r.size → PhraseReports limit .operand (limit - q.depth) q (operand limit q))
    (further : ∀ q : Reader, q.size < r.size → ∀ right rest, rest.size < q.size →
      TailReports limit .product .operand (.binary left r.current.kind right) rest
        (productTail limit (.binary left r.current.kind right) rest)) :
    TailReports limit .product .operand left r (productTail limit left r) := by
  intro start ts taken derived _
  rw [productTail, dif_pos scale]
  refine Reply.Reports.taking _ taken (absurd rfl) (fun _ => ⟨_, .product derived scale .due⟩) ?_
  intro q smaller _ takenScale valued
  refine ((next q smaller).behind takenScale valued).andThen takenScale (.next_factor derived scale) ?_
  intro us right rest shorter takes factor stops
  have taken := takenScale.append takes
  rw [← List.append_cons] at taken
  exact (further q smaller right rest shorter taken (.product derived scale factor) stops).weaken _

theorem productTail_reports_end (other : ¬ r.current.kind.isScale = true) :
    TailReports limit .product .operand left r (productTail limit left r) := by
  intro start ts taken derived stops
  rw [productTail, dif_neg other]
  exact ⟨ts, taken, derived, Level.product_stops stops other⟩

theorem operand_reports_tooDeep (full : limit ≤ r.depth) :
    PhraseReports limit .operand (limit - r.depth) r (operand limit r) := by
  intro _
  rw [operand_of_full full, Nat.sub_eq_zero_of_le full]
  exact ⟨[], r, .nil, .tooDeep .due, rfl⟩

theorem operand_reports (fits : ¬ limit ≤ r.depth)
    (inner : PhraseReports limit .operand (limit - (r.depth + 1) + 1) { r with depth := r.depth + 1 }
      (signed limit { r with depth := r.depth + 1 })) :
    PhraseReports limit .operand (limit - r.depth) r (operand limit r) := by
  intro valued
  have room : limit - (r.depth + 1) + 1 = limit - r.depth := by omega
  rw [room] at inner
  rw [operand_of_fits fits]
  exact (inner valued).close

theorem signed_reports (sign : r.current.kind.isSign = true)
    (next : ∀ q : Reader, q.size < r.size → PhraseReports limit .operand (limit - q.depth) q (operand limit q)) :
    PhraseReports limit .operand (limit - r.depth + 1) r (signed limit r) := by
  intro _
  rw [signed, dif_pos sign]
  refine Reply.Reports.taking _ .nil (absurd rfl) (fun _ => ⟨_, .signed sign .due⟩) ?_
  intro q smaller _ takenSign valued
  refine ((next q smaller).behind takenSign valued).andThen takenSign (.signed _ sign) ?_
  intro us e rest _ takes derived stops
  exact ⟨_, takenSign.append takes, .signed sign derived, stops⟩

theorem signed_reports_unsigned (other : ¬ r.current.kind.isSign = true)
    (inner : PhraseReports limit .power (limit - r.depth) r (power limit r)) :
    PhraseReports limit .operand (limit - r.depth + 1) r (signed limit r) := by
  intro valued
  rw [signed, dif_neg other]
  have reports := inner valued
  cases reply : power limit r with
  | tree e rest shorter =>
    rw [reply] at reports
    obtain ⟨ts, takes, derived, stops⟩ := reports
    exact ⟨ts, takes, .unsigned derived, stops⟩
  | failed e rest =>
    rw [reply] at reports
    obtain ⟨ts, last, takes, halts, left⟩ := reports
    exact ⟨ts, last, takes, halts.embed (.unsigned _), left⟩

theorem power_reports (first : PhraseReports limit .atom (limit - r.depth) r (atom limit r))
    (next : ∀ rest : Reader, rest.size < r.size → ∀ q : Reader, q.size < rest.size →
      PhraseReports limit .operand (limit - q.depth) q (operand limit q)) :
    PhraseReports limit .power (limit - r.depth) r (power limit r) := by
  intro valued
  rw [power]
  refine (first valued).andThen .nil (.base _) ?_
  intro us base rest shorter takes derived _
  split
  · rename_i raised
    refine Reply.Reports.taking _ takes (absurd raised) (fun _ => ⟨_, .power derived raised .due⟩) ?_
    intro q smaller _ takenPower valued
    refine ((next rest shorter q smaller).behind takenPower valued).andThen takenPower (.exponent derived raised) ?_
    intro vs exponent after _ further last stops
    have taken := takenPower.append further
    rw [← List.append_cons] at taken
    exact ⟨_, taken, .power derived raised last, stops⟩
  · rename_i other
    exact ⟨us, takes, .base derived, by simp [Level.continues, other]⟩

theorem atom_reports_bracket (opening : r.current.kind = .opening)
    (inner : ∀ q : Reader, q.size < r.size → PhraseReports limit .sum (limit - q.depth) q (sum limit q)) :
    PhraseReports limit .atom (limit - r.depth) r (atom limit r) := by
  intro _
  rw [atom, if_pos opening]
  refine Reply.Reports.taking _ .nil (absurd opening)
    (fun _ => ⟨_, .bracket opening (.single (.factor .due)) (by simp)⟩) ?_
  intro q smaller _ takenOpening valued
  refine ((inner q smaller).behind takenOpening valued).andThen takenOpening (.bracket _ opening) ?_
  intro us e rest _ takes derived stops
  have front := takenOpening.append takes
  refine Reply.Reports.taking _ front (fun other => .unexpected (.closing opening derived) (by simp) ⟨stops, other⟩)
    (fun closing => ⟨_, .whole (.bracket opening derived closing)⟩) ?_
  intro after _ closing takenClosing _
  exact ⟨_, takenClosing, .bracket opening derived closing, rfl⟩

theorem atom_reports_integer (opening : ¬ r.current.kind = .opening) (sign : ¬ r.current.kind.isSign = true) :
    PhraseReports limit .atom (limit - r.depth) r (atom limit r) := by
  intro valued
  rw [atom, if_neg opening]
  refine Reply.Reports.taking _ .nil ?_ ?_ ?_
  · intro other
    exact .unexpected .blank (by simp) (by simp [Missing.Refuses, Kind.beginsOperand, opening, sign, other])
  · intro integer
    obtain ⟨value, carried⟩ := valued integer
    exact ⟨_, .whole (.number integer carried)⟩
  · intro rest _ integer taken _
    obtain ⟨value, carried⟩ := valued integer
    rw [carried]
    exact ⟨_, taken, .number integer carried, rfl⟩

theorem descent_reports (limit : Nat) :
    (∀ r, PhraseReports limit .sum (limit - r.depth) r (sum limit r)) ∧
    (∀ left r, TailReports limit .sum .product left r (sumTail limit left r)) ∧
    (∀ r, PhraseReports limit .product (limit - r.depth) r (product limit r)) ∧
    (∀ left r, TailReports limit .product .operand left r (productTail limit left r)) ∧
    (∀ r, PhraseReports limit .operand (limit - r.depth) r (operand limit r)) ∧
    (∀ r, PhraseReports limit .operand (limit - r.depth + 1) r (signed limit r)) ∧
    (∀ r, ¬ r.current.kind.isSign = true →
      PhraseReports limit .power (limit - r.depth) r (power limit r)) ∧
    (∀ r, ¬ r.current.kind.isSign = true →
      PhraseReports limit .atom (limit - r.depth) r (atom limit r)) := by
  apply sum.mutual_induct limit
  case case1 => exact fun r => sum_reports
  case case2 => exact fun left r => sumTail_reports
  case case3 => exact fun left r => sumTail_reports_end
  case case4 => exact fun r => product_reports
  case case5 => exact fun left r => productTail_reports
  case case6 => exact fun left r => productTail_reports_end
  case case7 => exact fun r => operand_reports_tooDeep
  case case8 => exact fun r => operand_reports
  case case9 => exact fun r => signed_reports
  case case10 => exact fun r other inner => signed_reports_unsigned other (inner other)
  case case11 => exact fun r first next other => power_reports (first other) next
  case case12 => exact fun r opening inner _ => atom_reports_bracket opening inner
  case case13 => exact fun r opening sign => atom_reports_integer opening sign

theorem sum_reported (limit : Nat) (r : Reader) : PhraseReports limit .sum (limit - r.depth) r (sum limit r) :=
  (descent_reports limit).1 r

end Reader

end Reckon
