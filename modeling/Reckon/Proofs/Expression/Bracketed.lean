import Reckon.Expr.Bracketed
import Reckon.Proofs.Double.Text

namespace Reckon

theorem Kind.symbol_inj {op op' : Kind} (same : op.symbol = op'.symbol) : op = op' := by
  revert same
  cases op <;> cases op' <;> decide

theorem Kind.symbol_visible (op : Kind) : ∀ c ∈ op.symbol.toList, (c != ' ') = true := by
  cases op <;> simp [symbol]

def delimits (c : Char) : Bool :=
  c == ' ' || c == '(' || c == ')'

theorem Double.chars_undelimited (x : Float) : ∀ c ∈ Decimal.chars x, delimits c = false := by
  intro c member
  rw [← Bool.not_eq_true]
  intro delimited
  simp only [delimits, Bool.or_eq_true, beq_iff_eq] at delimited
  rcases delimited with (rfl | rfl) | rfl <;> simpa using chars_wordlike x _ member

namespace Expr

/-- The same shape, the same operators, and the same doubles at the leaves. -/
inductive Same : Expr → Expr → Prop where
  | number {x y} (same : Double.Same x y) : Same (number x) (number y)
  | unary {e e'} (op : Kind) (inner : Same e e') : Same (unary op e) (unary op e')
  | binary {left left' right right'} (op : Kind) (first : Same left left') (second : Same right right') :
      Same (binary left op right) (binary left' op right')

def Ends (rest : List Char) : Prop :=
  ∀ c ∈ rest.head?, c = ' ' ∨ c = ')'

theorem ends_nil : Ends [] := by
  intro c head
  cases head

theorem ends_blank (rest : List Char) : Ends (' ' :: rest) := by
  intro c head
  cases head
  exact .inl rfl

theorem ends_closing (rest : List Char) : Ends (')' :: rest) := by
  intro c head
  cases head
  exact .inr rfl

section Words

variable {word word' rest rest' : List Char}

theorem takeWhile_word {p : Char → Bool} (inside : ∀ c ∈ word, p c = true) (stops : ∀ c ∈ rest.head?, p c = false) :
    (word ++ rest).takeWhile p = word := by
  have none : rest.takeWhile p = [] := by
    cases rest with
    | nil => rfl
    | cons c rest => simp [stops c rfl]
  rw [List.takeWhile_append_of_pos inside, none, List.append_nil]

theorem words_inj {p : Char → Bool} (inside : ∀ c ∈ word, p c = true) (inside' : ∀ c ∈ word', p c = true)
    (stops : ∀ c ∈ rest.head?, p c = false) (stops' : ∀ c ∈ rest'.head?, p c = false)
    (same : word ++ rest = word' ++ rest') : word = word' ∧ rest = rest' := by
  have front : word = word' := by rw [← takeWhile_word inside stops, same, takeWhile_word inside' stops']
  rw [front] at same
  exact ⟨front, List.append_cancel_left same⟩

end Words

variable {e e' : Expr} {rest rest' : List Char}

theorem number_chars_inj {x y : Float} (ends : Ends rest) (ends' : Ends rest')
    (same : (number x).chars ++ rest = (number y).chars ++ rest') : Double.Same x y ∧ rest = rest' := by
  have inside (z : Float) : ∀ c ∈ Decimal.chars z, (!delimits c) = true := by
    intro c member
    rw [Double.chars_undelimited z c member]
    rfl
  have stops {behind : List Char} (ends : Ends behind) : ∀ c ∈ behind.head?, (!delimits c) = false := by
    intro c head
    rcases ends c head with rfl | rfl <;> rfl
  obtain ⟨word, behind⟩ := words_inj (inside x) (inside y) (stops ends) (stops ends') same
  exact ⟨(Double.chars_eq_iff x y).mp word, behind⟩

theorem number_chars_ne (x : Float) (ends : Ends rest) (inner : List Char) :
    (number x).chars ++ rest ≠ '(' :: inner := by
  intro same
  have head : '(' ∈ (Decimal.chars x ++ rest).head? := by
    show '(' ∈ ((number x).chars ++ rest).head?
    rw [same]
    rfl
  rcases List.mem_append.mp (List.mem_of_head? head) with leaf | behind
  · cases Double.chars_undelimited x '(' leaf
  · cases text : Decimal.chars x with
    | nil =>
      rw [text] at head
      rcases ends '(' head with other | other <;> cases other
    | cons c word =>
      rw [text] at head
      cases head
      cases Double.chars_undelimited x '(' (by simp [text])

theorem symbol_chars_inj {op op' : Kind}
    (same : op.symbol.toList ++ ' ' :: rest = op'.symbol.toList ++ ' ' :: rest') : op = op' ∧ rest = rest' := by
  have stops (behind : List Char) : ∀ c ∈ (' ' :: behind).head?, (c != ' ') = false := by
    intro c head
    cases head
    rfl
  obtain ⟨word, behind⟩ := words_inj op.symbol_visible op'.symbol_visible (stops rest) (stops rest') same
  exact ⟨Kind.symbol_inj (String.toList_inj.mp word), (List.cons.inj behind).2⟩

theorem unary_chars (op : Kind) (e : Expr) (rest : List Char) :
    (unary op e).chars ++ rest = '(' :: (op.symbol.toList ++ ' ' :: (e.chars ++ ')' :: rest)) := by
  simp [chars]

theorem binary_chars (left : Expr) (op : Kind) (right : Expr) (rest : List Char) :
    (binary left op right).chars ++ rest =
      '(' :: (op.symbol.toList ++ ' ' :: (left.chars ++ ' ' :: (right.chars ++ ')' :: rest))) := by
  simp [chars]

/-- The characters of a tree tell where it ends, if the next one does not make its last leaf longer. -/
theorem chars_append_inj (ends : Ends rest) (ends' : Ends rest') (same : e.chars ++ rest = e'.chars ++ rest') :
    Same e e' ∧ rest = rest' := by
  induction e generalizing e' rest rest' with
  | number x =>
    cases e' with
    | number y =>
      obtain ⟨leaf, behind⟩ := number_chars_inj ends ends' same
      exact ⟨.number leaf, behind⟩
    | unary op' e' =>
      rw [unary_chars] at same
      exact absurd same (number_chars_ne x ends _)
    | binary left' op' right' =>
      rw [binary_chars] at same
      exact absurd same (number_chars_ne x ends _)
  | unary op e ih =>
    rw [unary_chars] at same
    cases e' with
    | number y => exact absurd same.symm (number_chars_ne y ends' _)
    | unary op' e' =>
      rw [unary_chars] at same
      obtain ⟨rfl, operand⟩ := symbol_chars_inj (List.cons.inj same).2
      obtain ⟨inner, behind⟩ := ih (ends_closing _) (ends_closing _) operand
      exact ⟨.unary op inner, (List.cons.inj behind).2⟩
    | binary left' op' right' =>
      -- behind the only operand stands a bracket, behind the first of two a blank
      rw [binary_chars] at same
      obtain ⟨rfl, operand⟩ := symbol_chars_inj (List.cons.inj same).2
      obtain ⟨-, behind⟩ := ih (ends_closing _) (ends_blank _) operand
      cases (List.cons.inj behind).1
  | binary left op right ihl ihr =>
    rw [binary_chars] at same
    cases e' with
    | number y => exact absurd same.symm (number_chars_ne y ends' _)
    | unary op' e' =>
      rw [unary_chars] at same
      obtain ⟨rfl, operand⟩ := symbol_chars_inj (List.cons.inj same).2
      obtain ⟨-, behind⟩ := ihl (ends_blank _) (ends_closing _) operand
      cases (List.cons.inj behind).1
    | binary left' op' right' =>
      rw [binary_chars] at same
      obtain ⟨rfl, operands⟩ := symbol_chars_inj (List.cons.inj same).2
      obtain ⟨first, behind⟩ := ihl (ends_blank _) (ends_blank _) operands
      obtain ⟨second, behind⟩ := ihr (ends_closing _) (ends_closing _) (List.cons.inj behind).2
      exact ⟨.binary op first second, (List.cons.inj behind).2⟩

theorem Same.chars_eq (same : Same e e') : e.chars = e'.chars := by
  induction same with
  | number same => exact (Double.chars_eq_iff _ _).mpr same
  | unary op _ ih => rw [chars, chars, ih]
  | binary op _ _ ihl ihr => rw [chars, chars, ihl, ihr]

/-- The text of a tree loses nothing of it, whatever its operators are. -/
theorem text_eq_iff_same (e e' : Expr) : e.text = e'.text ↔ Same e e' := by
  constructor
  · intro same
    have chars : e.chars ++ [] = e'.chars ++ [] := by
      rw [List.append_nil, List.append_nil]
      exact String.ofList_inj.mp same
    exact (chars_append_inj ends_nil ends_nil chars).1
  · intro same
    rw [text, text, same.chars_eq]

end Expr

end Reckon
