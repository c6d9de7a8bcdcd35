import Reckon.Proofs.Grammar.Derivation
import Reckon.Proofs.Token.Spelling
import Reckon.Proofs.Token.Stream

namespace Reckon

/-- Wherever the text stands in front of what is no digit, it is read as a phrase with this tree. -/
def Spells (level : Level) (room : Nat) (cs : List Char) (e : Expr) : Prop :=
  ∀ (rest : List Char) (pos : Nat), NoDigitAhead rest →
    ∃ ts, Cursor.Reads ⟨cs ++ rest, pos⟩ ts ⟨rest, pos + cs.length⟩ ∧ Derives level room ts e

namespace Spells

variable {room : Nat} {cs ds : List Char} {e left right : Expr} {op : Kind}

theorem around {first last : Level} (before : Spells first room cs left) (behind : Spells last room ds right)
    (operator : op.isOperator = true) (apart : ∀ rest, (ds ++ rest).head? ≠ some '*') (rest : List Char) (pos : Nat)
    (ahead : NoDigitAhead rest) :
    ∃ ts t us, t.kind = op ∧
      Cursor.Reads ⟨cs ++ op.symbol.toList ++ ds ++ rest, pos⟩ (ts ++ t :: us)
        ⟨rest, pos + (cs ++ op.symbol.toList ++ ds).length⟩ ∧
      Derives first room ts left ∧ Derives last room us right := by
  have written := Kind.written_of_isOperator operator
  obtain ⟨ts, reads, derived⟩ := before (op.symbol.toList ++ (ds ++ rest)) pos (Kind.symbol_noDigitAhead written _)
  obtain ⟨us, reads', derived'⟩ := behind rest (pos + cs.length + op.symbol.length) ahead
  have read := Cursor.next_symbol (pos + cs.length) written fun _ => apart rest
  have length : pos + cs.length + op.symbol.length + ds.length = pos + (cs ++ op.symbol.toList ++ ds).length := by
    simp only [List.length_append, String.length_toList]
    omega
  have whole := reads.append (.cons read written.2 reads')
  rw [length] at whole
  simp only [List.append_assoc] at whole ⊢
  exact ⟨ts, .symbol op op.symbol (pos + cs.length), us, rfl, whole, derived, derived'⟩

theorem mono {level : Level} {more : Nat} (spells : Spells level room cs e) (le : room ≤ more) :
    Spells level more cs e := by
  intro rest pos ahead
  obtain ⟨ts, reads, derived⟩ := spells rest pos ahead
  exact ⟨ts, reads, derived.mono le⟩

theorem single (only : Spells .product room cs e) : Spells .sum room cs e := by
  intro rest pos ahead
  obtain ⟨ts, reads, derived⟩ := only rest pos ahead
  exact ⟨ts, reads, .single derived⟩

theorem factor (only : Spells .operand room cs e) : Spells .product room cs e := by
  intro rest pos ahead
  obtain ⟨ts, reads, derived⟩ := only rest pos ahead
  exact ⟨ts, reads, .factor derived⟩

theorem base (only : Spells .atom room cs e) : Spells .operand (room + 1) cs e := by
  intro rest pos ahead
  obtain ⟨ts, reads, derived⟩ := only rest pos ahead
  exact ⟨ts, reads, .unsigned (.base derived)⟩

theorem sum (sign : op.isSign = true) (before : Spells .sum room cs left) (behind : Spells .product room ds right)
    (apart : ∀ rest, (ds ++ rest).head? ≠ some '*') :
    Spells .sum room (cs ++ op.symbol.toList ++ ds) (.binary left op right) := by
  intro rest pos ahead
  obtain ⟨ts, t, us, rfl, reads, first, last⟩ :=
    before.around behind (Kind.isOperator_of_isSign sign) apart rest pos ahead
  exact ⟨_, reads, .sum first sign last⟩

theorem product (scale : op.isScale = true) (before : Spells .product room cs left)
    (behind : Spells .operand room ds right) (apart : ∀ rest, (ds ++ rest).head? ≠ some '*') :
    Spells .product room (cs ++ op.symbol.toList ++ ds) (.binary left op right) := by
  intro rest pos ahead
  obtain ⟨ts, t, us, rfl, reads, first, last⟩ :=
    before.around behind (Kind.isOperator_of_isScale scale) apart rest pos ahead
  exact ⟨_, reads, .product first scale last⟩

theorem power (before : Spells .atom room cs left) (behind : Spells .operand room ds right)
    (apart : ∀ rest, (ds ++ rest).head? ≠ some '*') :
    Spells .operand (room + 1) (cs ++ Kind.power.symbol.toList ++ ds) (.binary left .power right) := by
  intro rest pos ahead
  have operator : Kind.power.isOperator = true := rfl
  obtain ⟨ts, t, us, raised, reads, first, last⟩ := before.around behind operator apart rest pos ahead
  exact ⟨_, reads, .unsigned (.power first raised last)⟩

theorem signed (sign : op.isSign = true) (inner : Spells .operand room cs e) :
    Spells .operand (room + 1) (op.symbol.toList ++ cs) (.unary op e) := by
  intro rest pos ahead
  have written := Kind.written_of_isOperator (Kind.isOperator_of_isSign sign)
  obtain ⟨ts, reads, derived⟩ := inner rest (pos + op.symbol.length) ahead
  have single : op = .times → (cs ++ rest).head? ≠ some '*' := by
    rintro rfl
    cases sign
  have whole := Cursor.Reads.cons (Cursor.next_symbol pos written single) written.2 reads
  rw [Nat.add_assoc, ← String.length_toList, ← List.length_append, ← List.append_assoc] at whole
  exact ⟨_, whole, .signed sign derived⟩

theorem number {run : List Char} (digits : DigitRun run) : Spells .atom room run (.number (runValue run)) := by
  intro rest pos ahead
  exact ⟨_, .cons (Cursor.next_run pos digits ahead) nofun .nil, .number rfl rfl⟩

theorem bracket (inner : Spells .sum room cs e) : Spells .atom room ('(' :: cs ++ [')']) e := by
  intro rest pos _
  have closed : NoDigitAhead (Kind.closing.symbol.toList ++ rest) := Kind.symbol_noDigitAhead (by decide) rest
  obtain ⟨ts, reads, derived⟩ := inner (')' :: rest) (pos + 1) closed
  have opening : Cursor.next ⟨'(' :: (cs ++ ')' :: rest), pos⟩ =
      .ok (.symbol .opening "(" pos, ⟨cs ++ ')' :: rest, pos + 1⟩) := rfl
  have closing : Cursor.next ⟨')' :: rest, pos + 1 + cs.length⟩ =
      .ok (.symbol .closing ")" (pos + 1 + cs.length), ⟨rest, pos + 1 + cs.length + 1⟩) := rfl
  have whole := Cursor.Reads.cons opening nofun (reads.append (.cons closing nofun .nil))
  have length : pos + 1 + cs.length + 1 = pos + ('(' :: cs ++ [')']).length := by
    simp only [List.cons_append, List.length_cons, List.length_append, List.length_nil]
    omega
  rw [length] at whole
  have left : (Token.symbol .opening "(" pos).kind = .opening := rfl
  have right : (Token.symbol .closing ")" (pos + 1 + cs.length)).kind = .closing := rfl
  refine ⟨_, ?_, .bracket left derived right⟩
  simpa using whole

theorem exists_tokens {level : Level} (spells : Spells level room cs e) :
    ∃ ts, tokens (String.ofList cs) = .ok ts ∧ Derives level room ts e := by
  obtain ⟨ts, reads, derived⟩ := spells [] 0 (by simp [NoDigitAhead])
  have final := Cursor.next_of_rest_nil (c := ⟨[], 0 + cs.length⟩) rfl
  refine ⟨ts, (tokens_eq_ok_iff _ ts).mpr ⟨_, _, _, ?_, final, rfl⟩, derived⟩
  simpa [Cursor.ofText] using reads

end Spells

end Reckon
