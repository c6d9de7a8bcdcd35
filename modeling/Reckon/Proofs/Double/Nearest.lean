import Reckon.Proofs.Double.Alike
import Reckon.Proofs.Double.Rounding
import Reckon.Proofs.Double.Text

namespace Reckon.Double

open Decimal (infinityBits unsignedBits nearest nearestBits)
open Float.Model (UnpackedFloat Format)
open Float.Model.UnpackedFloat

/-- The number that a double stands for, where an infinity stands for the number that the format would go on with behind
the greatest double. -/
def place? (x : Float) : Option ℚ :=
  match x.toModel.unpack with
  | .infinity s => some (s.apply 1 * 2 ^ 1024)
  | u => number? u

/-- No double is nearer to the number, and if another one is as near, the last bit of this one is zero. -/
def IsNearest (n : ℕ) (x : Float) : Prop :=
  ∃ p, place? x = some p ∧ ∀ y q, place? y = some q →
    |p - n| ≤ |q - n| ∧ (q ≠ p → |q - n| = |p - n| → x.toBits.toNat % 2 = 0)

section Place

variable {x : Float} {p q : ℚ} {bits : ℕ}

theorem place?_of_value? (valued : value? x = some q) : place? x = some q := by
  unfold value? at valued
  unfold place?
  cases parts : x.toModel.unpack with
  | infinity s =>
    rw [parts] at valued
    cases valued
  | notANumber | zero | finite => rwa [parts] at valued

theorem unpack_infinity : (Float.ofBits (UInt64.ofNat infinityBits)).toModel.unpack = .infinity .positive :=
  rfl

theorem place?_point (le : bits ≤ infinityBits) : place? (Float.ofBits (UInt64.ofNat bits)) = some (point bits) := by
  rcases Nat.lt_or_eq_of_le le with finite | rfl
  · exact place?_of_value? (value?_point finite)
  · rw [place?, unpack_infinity, point_infinity]
    simp only [Sign.apply, Int.cast_one, one_mul]

theorem toBits_nat (le : bits ≤ infinityBits) : (Float.ofBits (UInt64.ofNat bits)).toBits.toNat = bits := by
  have same : (Float.ofBits (UInt64.ofNat bits)).toBits = UInt64.ofNat bits :=
    UInt64.toBitVec_inj.mp (pack_unpack_of_valid (valid_of_le le))
  rw [same]
  exact ofNat_toNat le

theorem point_of_place? (placed : place? x = some q) : unsignedBits x.toBits.toNat ≤ infinityBits ∧
    (q = point (unsignedBits x.toBits.toNat) ∨ q = -point (unsignedBits x.toBits.toNat)) := by
  rcases Nat.lt_or_ge (unsignedBits x.toBits.toNat) infinityBits with finite | top
  · have valued := value?_signed (value?_point finite) (decide (2 ^ 63 ≤ x.toBits.toNat))
    rw [← eq_signed x finite] at valued
    have same := Option.some.inj (placed.symm.trans (place?_of_value? valued))
    refine ⟨finite.le, ?_⟩
    split at same
    · exact .inr same
    · exact .inl same
  · have unvalued := value?_of_top x top
    unfold value? at unvalued
    unfold place? at placed
    have le : unsignedBits x.toBits.toNat ≤ infinityBits := by
      by_contra gt
      have parts : x.toModel.unpack = .notANumber := eq_notANumber ((isNaN_iff x).mpr (not_le.mp gt))
      rw [parts] at placed
      cases placed
    refine ⟨le, ?_⟩
    rw [le_antisymm le top, point_infinity]
    cases parts : x.toModel.unpack with
    | infinity s =>
      rw [parts] at placed
      cases placed
      cases s with
      | positive => exact .inl (by simp only [Sign.apply, Int.cast_one, one_mul])
      | negative => exact .inr (by simp only [Sign.apply, Int.cast_neg, Int.cast_one, neg_mul, one_mul])
    | notANumber | zero | finite =>
      rw [parts] at placed unvalued
      cases placed.symm.trans unvalued

end Place

section Distance

variable {n bits other : ℕ} {x p q : ℚ}

theorem abs_le_of_before (lt : p < q) (mid : 2 * x ≤ p + q) :
    |p - x| ≤ |q - x| ∧ (|q - x| = |p - x| → 2 * x = p + q) := by
  have right : |q - x| = q - x := abs_of_nonneg (by linarith)
  rw [right, abs_le]
  refine ⟨⟨by linarith, by linarith⟩, ?_⟩
  intro tie
  rcases abs_cases (p - x) with ⟨size, -⟩ | ⟨size, -⟩
  · linarith
  · linarith

theorem abs_le_of_behind (lt : q < p) (mid : p + q ≤ 2 * x) :
    |p - x| ≤ |q - x| ∧ (|q - x| = |p - x| → 2 * x = p + q) := by
  have mirror (y : ℚ) : |-y - -x| = |y - x| := by rw [neg_sub_neg, abs_sub_comm]
  obtain ⟨near, tie⟩ := abs_le_of_before (neg_lt_neg lt) (show 2 * -x ≤ -p + -q by linarith)
  rw [mirror, mirror] at near tie
  exact ⟨near, fun equal => by linarith [tie equal]⟩

theorem le_mid_of_before (lt : p < q) (near : |p - x| ≤ |q - x|) : 2 * x ≤ p + q := by
  by_contra gt
  obtain ⟨near', tie⟩ := abs_le_of_behind lt (show q + p ≤ 2 * x by linarith)
  linarith [tie (le_antisymm near near')]

theorem mid_le_of_behind (lt : q < p) (near : |p - x| ≤ |q - x|) : p + q ≤ 2 * x := by
  by_contra gt
  obtain ⟨near', tie⟩ := abs_le_of_before lt (show 2 * x ≤ q + p by linarith)
  linarith [tie (le_antisymm near near')]

theorem abs_eq_of_mid (mid : 2 * x = p + q) : |q - x| = |p - x| := by
  have opposite : q - x = -(p - x) := by linarith
  rw [opposite, abs_neg]

theorem Around.nearest (around : Around n bits) (le : other ≤ infinityBits) :
    |point bits - n| ≤ |point other - n| ∧
      (other ≠ bits → |point other - n| = |point bits - n| → bits % 2 = 0) := by
  rcases Nat.lt_trichotomy bits other with lt | rfl | gt
  · have finite : bits < infinityBits := lt.trans_le le
    have below := around.below finite
    have half := two_upper bits
    have next : point (bits + 1) ≤ point other := point_strictMono.monotone lt
    obtain ⟨near, tie⟩ := abs_le_of_before (x := n) (point_strictMono lt) (by linarith)
    exact ⟨near, fun _ equal => around.even (.inr ⟨finite, by linarith [tie equal]⟩)⟩
  · exact ⟨le_rfl, fun differs => absurd rfl differs⟩
  · obtain ⟨before, rfl⟩ := Nat.exists_eq_add_of_le' (Nat.one_le_of_lt gt)
    have above := around.above (Nat.succ_pos before)
    have half := two_upper before
    rw [← lower_succ] at half
    have next : point other ≤ point before := point_strictMono.monotone (Nat.le_of_lt_succ gt)
    obtain ⟨near, tie⟩ := abs_le_of_behind (x := n) (point_strictMono gt) (by linarith)
    exact ⟨near, fun _ equal => around.even (.inl ⟨Nat.succ_pos before, by linarith [tie equal]⟩)⟩

end Distance

theorem isNearest_nearest (n : ℕ) : IsNearest n (nearest n) := by
  have around := around_nearestBits n
  have last : (nearest n).toBits.toNat = nearestBits n := toBits_nat around.le
  refine ⟨point (nearestBits n), place?_point around.le, ?_⟩
  intro y q placed
  obtain ⟨le, side⟩ := point_of_place? placed
  obtain ⟨near, tie⟩ := around.nearest le
  rw [last]
  generalize unsignedBits y.toBits.toNat = other at le side near tie
  rcases side with rfl | rfl
  · exact ⟨near, fun differs => tie fun same => differs (congrArg point same)⟩
  · -- a double with a sign is not nearer than the one without it
    have whole : (0 : ℚ) ≤ n := Nat.cast_nonneg n
    have size := point_nonneg other
    have far : |-point other - n| = point other + n := by
      rw [abs_of_nonpos (by linarith)]
      ring
    have nearer : |point other - n| ≤ point other + n := abs_le.mpr ⟨by linarith, by linarith⟩
    rw [far]
    refine ⟨near.trans nearer, fun differs equal => ?_⟩
    by_cases same : other = nearestBits n
    · subst same
      rcases Nat.eq_zero_or_pos n with rfl | positive
      · rfl
      · have some : (0 : ℚ) < n := by exact_mod_cast positive
        rcases abs_cases (point (nearestBits n) - n) with ⟨dist, -⟩ | ⟨dist, -⟩
        · linarith
        · exact absurd (by linarith) differs
    · exact tie same (by linarith)

theorem around_of_nearest {n bits : ℕ} (le : bits ≤ infinityBits)
    (least : ∀ other ≤ infinityBits, |point bits - n| ≤ |point other - n| ∧
      (other ≠ bits → |point other - n| = |point bits - n| → bits % 2 = 0)) : Around n bits := by
  have above (some : 0 < bits) : lower bits ≤ n := by
    obtain ⟨before, rfl⟩ := Nat.exists_eq_add_of_le' some
    have half := two_upper before
    rw [← lower_succ] at half
    have mid := mid_le_of_behind (point_strictMono (Nat.lt_succ_self before)) (least before (by omega)).1
    linarith
  have below (finite : bits < infinityBits) : n ≤ upper bits := by
    have half := two_upper bits
    have mid := le_mid_of_before (point_strictMono (Nat.lt_succ_self bits)) (least (bits + 1) finite).1
    linarith
  refine ⟨le, above, below, ?_⟩
  rintro (⟨some, meets⟩ | ⟨finite, meets⟩)
  · obtain ⟨before, rfl⟩ := Nat.exists_eq_add_of_le' some
    have half := two_upper before
    rw [← lower_succ] at half
    exact (least before (by omega)).2 (by omega) (abs_eq_of_mid (by linarith))
  · have half := two_upper bits
    exact (least (bits + 1) finite).2 (by omega) (abs_eq_of_mid (by linarith))

theorem IsNearest.place?_eq {n : ℕ} {x : Float} (isNearest : IsNearest n x) : place? x = place? (nearest n) := by
  obtain ⟨p, placed, least⟩ := isNearest
  obtain ⟨le, side⟩ := point_of_place? placed
  have parity : x.toBits.toNat % 2 = unsignedBits x.toBits.toNat % 2 := by
    rw [unsigned_le]
    omega
  rw [parity] at least
  generalize unsignedBits x.toBits.toNat = bits at le side least
  have unsigned : p = point bits := by
    rcases side with rfl | rfl
    · rfl
    · have whole : (0 : ℚ) ≤ n := Nat.cast_nonneg n
      have size := point_nonneg bits
      have origin := (least _ _ (place?_point (Nat.zero_le _))).1
      rw [point_zero, abs_of_nonpos (by linarith), abs_of_nonpos (by linarith)] at origin
      linarith
  subst unsigned
  have around : Around n bits := by
    apply around_of_nearest le
    intro other within
    obtain ⟨near, tie⟩ := least _ _ (place?_point within)
    exact ⟨near, fun differs => tie fun same => differs (point_strictMono.injective same)⟩
  rw [placed, nearest, place?_point (Decimal.nearestBits_le_infinityBits n), around.unique (around_nearestBits n)]

/-- A number that some double stands for is not rounded. -/
theorem value?_nearest_iff (n : ℕ) : value? (nearest n) = some (n : ℚ) ↔ ∃ x, value? x = some (n : ℚ) := by
  refine ⟨fun exact => ⟨_, exact⟩, ?_⟩
  rintro ⟨x, valued⟩
  obtain ⟨le, side⟩ := point_of_place? (place?_of_value? valued)
  have finite : unsignedBits x.toBits.toNat < infinityBits := by
    by_contra top
    cases valued.symm.trans (value?_of_top x (not_lt.mp top))
  generalize unsignedBits x.toBits.toNat = bits at le side finite
  have size := point_nonneg bits
  have whole : (0 : ℚ) ≤ n := Nat.cast_nonneg n
  have stands : point bits = n := by
    rcases side with same | opposite
    · exact same.symm
    · linarith
  have near := ((around_nearestBits n).nearest le).1
  rw [stands, sub_self, abs_zero] at near
  have exact := sub_eq_zero.mp (abs_nonpos_iff.mp near)
  have same : nearestBits n = bits := point_strictMono.injective (exact.trans stands.symm)
  rw [nearest, same, value?_point finite, stands]

theorem isInf_nearest_iff (n : ℕ) : (nearest n).isInf = true ↔ 2 ^ 1024 - 2 ^ 970 ≤ n := by
  rw [← nearestBits_eq_infinityBits_iff]
  constructor
  · intro infinite
    by_contra finite
    have lt := lt_of_le_of_ne (Decimal.nearestBits_le_infinityBits n) finite
    obtain ⟨q, valued, -⟩ := exists_value? lt
    have stands := stands_of_value? valued
    change (nearest n).toModel.unpack.isInf = true at infinite
    change Stands (nearest n).toModel.unpack _ at stands
    generalize (nearest n).toModel.unpack = u at infinite stands
    cases stands with
    | zero | finite => cases infinite
  · intro top
    rw [nearest, top]
    rfl

section Order

variable {bits later : ℕ}

theorem le_iff (x y : Float) : x ≤ y ↔ (x.toModel.unpack.compare y.toModel.unpack).any Ordering.isLE = true := by
  show decide (x.toModel ≤ y.toModel) = true ↔ _
  rw [decide_eq_true_iff]
  rfl

theorem significand_lt (lt : bits < later)
    (same : max (bits / 2 ^ 52) 1 = max (later / 2 ^ 52) 1) : significand bits < significand later := by
  unfold significand
  split <;> split <;> omega

theorem compare_nat (positive : 0 < bits) (lt : bits < later) (finite : later < infinityBits) :
    (Float.ofBits (UInt64.ofNat bits)).toModel.unpack.compare (Float.ofBits (UInt64.ofNat later)).toModel.unpack =
      some .lt := by
  rw [unpack_nat positive (lt.trans finite), unpack_nat (positive.trans lt) finite]
  simp only [UnpackedFloat.compare, Option.some.injEq, Ordering.then_eq_lt, Int.compare_eq_lt, Nat.compare_eq_lt]
  have fields : max (bits / 2 ^ 52) 1 ≤ max (later / 2 ^ 52) 1 := by omega
  rcases Nat.lt_or_eq_of_le fields with exponent | same
  · left
    omega
  · right
    rw [same]
    exact ⟨compare_eq_iff_eq.mpr rfl, significand_lt lt same⟩

theorem compare_infinity {u : UnpackedFloat} {q : ℚ} (stands : Stands u q) :
    u.compare (.infinity .positive) = some .lt := by
  cases stands with
  | zero => rfl
  | @finite s => cases s <;> rfl

theorem ofBits_le_ofBits (le : bits ≤ later) (within : later ≤ infinityBits) :
    Float.ofBits (UInt64.ofNat bits) ≤ Float.ofBits (UInt64.ofNat later) := by
  rw [le_iff]
  rcases Nat.lt_or_eq_of_le le with lt | rfl
  · rcases Nat.lt_or_eq_of_le within with finite | rfl
    · rcases Nat.eq_zero_or_pos bits with rfl | positive
      · rw [unpack_nat lt finite]
        rfl
      · rw [compare_nat positive lt finite]
        rfl
    · obtain ⟨q, valued, -⟩ := exists_value? lt
      rw [unpack_infinity, compare_infinity (stands_of_value? valued)]
      rfl
  · have same := unpack_ofBits (UInt64.ofNat bits) (valid_of_le within)
    have number : (unpack Format.binary64 (BitVec.ofNat 64 bits)).isNaN = false := (plain_unpack within).isNaN
    rw [compare_self (by rw [same]; exact number)]
    rfl

end Order

theorem nearest_le_nearest {n m : ℕ} (le : n ≤ m) : nearest n ≤ nearest m :=
  ofBits_le_ofBits (nearestBits_mono le) (Decimal.nearestBits_le_infinityBits m)

end Reckon.Double
