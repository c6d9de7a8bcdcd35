import Reckon.Text.Blank
import Reckon.Text.Line

namespace Reckon.Text

def encoded (text : String) : List UInt8 :=
  text.toList.flatMap String.utf8EncodeChar

section Encoding

variable {c : Char} {byte : UInt8} {text : String}

theorem utf8EncodeChar_of_lt (ascii : c.toNat < 128) : String.utf8EncodeChar c = [UInt8.ofNat c.toNat] :=
  if_pos (Nat.le_of_lt_succ ascii)

theorem le_of_mem_utf8EncodeChar (wide : 128 ≤ c.toNat) (member : byte ∈ String.utf8EncodeChar c) :
    128 ≤ byte.toNat := by
  have high : ∀ n, 128 ≤ n → n < 256 → 128 ≤ (UInt8.ofNat n).toNat := by
    intro n least small
    rw [UInt8.toNat_ofNat_of_lt' small]
    exact least
  have several : ¬ c.val.toNat ≤ 127 := Nat.not_le.mpr wide
  simp only [String.utf8EncodeChar, if_neg several] at member
  split at member
  · simp only [List.mem_cons, List.not_mem_nil, or_false] at member
    rcases member with rfl | rfl <;> apply high <;> omega
  · split at member
    · simp only [List.mem_cons, List.not_mem_nil, or_false] at member
      rcases member with rfl | rfl | rfl <;> apply high <;> omega
    · simp only [List.mem_cons, List.not_mem_nil, or_false] at member
      rcases member with rfl | rfl | rfl | rfl <;> apply high <;> omega

theorem utf8EncodeChar_of_mem (low : byte.toNat < 128) (member : byte ∈ String.utf8EncodeChar c) :
    c = Char.ofNat byte.toNat ∧ String.utf8EncodeChar c = [byte] := by
  by_cases ascii : c.toNat < 128
  · have alone := utf8EncodeChar_of_lt ascii
    rw [alone, List.mem_singleton] at member
    have same : byte.toNat = c.toNat := by
      rw [member]
      exact UInt8.toNat_ofNat_of_lt' (Nat.lt_trans ascii (by decide))
    rw [same, Char.ofNat_toNat, alone, member]
    exact ⟨rfl, rfl⟩
  · have high := le_of_mem_utf8EncodeChar (Nat.not_lt.mp ascii) member
    exact absurd low (Nat.not_lt.mpr high)

theorem encoded_ofList (cs : List Char) : encoded (.ofList cs) = cs.flatMap String.utf8EncodeChar := by
  rw [encoded, String.toList_ofList]

theorem encoded_ofList_concat (cs : List Char) (c : Char) :
    encoded (.ofList (cs ++ [c])) = encoded (.ofList cs) ++ String.utf8EncodeChar c := by
  rw [encoded_ofList, encoded_ofList, List.flatMap_append, List.flatMap_singleton]

theorem lineFeed_mem (member : lineFeed ∈ encoded text) : '\n' ∈ text.toList := by
  obtain ⟨c, here, inside⟩ := List.mem_flatMap.mp member
  obtain ⟨rfl, -⟩ := utf8EncodeChar_of_mem (by decide) inside
  exact here

theorem getLast?_encoded (last : (encoded text).getLast? = some carriageReturn) :
    ∃ front, text = .ofList (front ++ ['\r']) ∧ encoded text = encoded (.ofList front) ++ [carriageReturn] := by
  rcases List.eq_nil_or_concat text.toList with empty | ⟨front, c, whole⟩
  · simp [encoded, empty] at last
  · rw [List.concat_eq_append] at whole
    have same : text = .ofList (front ++ [c]) := by rw [← whole, String.ofList_toList]
    subst same
    rw [encoded_ofList_concat, List.getLast?_append] at last
    have member : carriageReturn ∈ String.utf8EncodeChar c := by
      apply List.mem_of_getLast?
      cases inside : (String.utf8EncodeChar c).getLast? with
      | none => exact absurd (List.getLast?_eq_none_iff.mp inside) String.utf8EncodeChar_ne_nil
      | some byte =>
        rw [inside, Option.some_or] at last
        exact last
    obtain ⟨rfl, alone⟩ := utf8EncodeChar_of_mem (by decide) member
    refine ⟨front, rfl, ?_⟩
    rw [encoded_ofList_concat, alone]

theorem toByteArray_encoded (text : String) : (encoded text).toByteArray = text.toByteArray := by
  calc (encoded text).toByteArray = (String.ofList text.toList).toByteArray := rfl
    _ = text.toByteArray := by rw [String.ofList_toList]

theorem fromUTF8?_encoded (text : String) : String.fromUTF8? (encoded text).toByteArray = some text := by
  have valid : (encoded text).toByteArray.IsValidUTF8 := by
    rw [toByteArray_encoded]
    exact text.isValidUTF8
  rw [String.fromUTF8?, dif_pos valid]
  simp [String.fromUTF8, toByteArray_encoded]

end Encoding

def LineEnd (bytes : List UInt8) : Prop :=
  bytes = [lineFeed] ∨ bytes = [carriageReturn, lineFeed]

/-- The bytes are a line of a stream, from one line feed or the beginning up to the next one or the end. -/
def LineOf (line bytes : List UInt8) : Prop :=
  lineFeed ∉ line ∧ ∃ front back, bytes = front ++ line ++ back ∧
    (front = [] ∨ ∃ before, front = before ++ [lineFeed]) ∧ (back = [] ∨ ∃ after, back = lineFeed :: after)

section Cutting

variable {line front back bytes ending : List UInt8} {text : String}

theorem closeLine_return (line : List UInt8) : closeLine (line ++ [carriageReturn]).reverse = line := by
  simp [closeLine]

theorem closeLine_of_last (last : line.getLast? ≠ some carriageReturn) : closeLine line.reverse = line := by
  rcases List.eq_nil_or_concat line with rfl | ⟨before, byte, rfl⟩
  · rfl
  · rw [List.concat_eq_append] at last ⊢
    have other : byte ≠ carriageReturn := by simpa using last
    simp [closeLine, other]

theorem cutLines_break (held before after : List UInt8) :
    cutLines held (before ++ lineFeed :: after) = cutLines held (before ++ [lineFeed]) ++ cutLines [] after := by
  induction before generalizing held with
  | nil => simp [cutLines]
  | cons byte before ih =>
    simp only [List.cons_append, cutLines]
    split
    · rw [ih, List.cons_append]
    · exact ih _

theorem cutLines_line (plain : lineFeed ∉ line) (back : List UInt8) :
    cutLines [] (line ++ lineFeed :: back) = closeLine line.reverse :: cutLines [] back := by
  rw [cutLines_append _ _ _ plain, cutLines_lineFeed, List.append_nil]

theorem cutLines_rest (plain : lineFeed ∉ line) : cutLines [] line = if line.isEmpty then [] else [line] := by
  have cut := cutLines_append [] line [] plain
  rw [List.append_nil, List.append_nil] at cut
  rw [cut, cutLines]
  simp

/-- An ended line is read as its text. A carriage return at the end of the text may be taken for a part of
the line end. -/
theorem cutLines_encoded (plain : '\n' ∉ text.toList) (ends : LineEnd ending) (bytes : List UInt8) :
    ∃ kept, cutLines [] (encoded text ++ ending ++ bytes) = encoded kept :: cutLines [] bytes ∧
      (kept = text ∨ ∃ front, kept = .ofList front ∧ text = .ofList (front ++ ['\r'])) := by
  have clean : lineFeed ∉ encoded text := mt lineFeed_mem plain
  rcases ends with rfl | rfl
  · rw [List.append_assoc, List.singleton_append, cutLines_line clean]
    by_cases last : (encoded text).getLast? = some carriageReturn
    · obtain ⟨front, same, bytes⟩ := getLast?_encoded last
      rw [bytes, closeLine_return]
      exact ⟨_, rfl, .inr ⟨front, rfl, same⟩⟩
    · rw [closeLine_of_last last]
      exact ⟨text, rfl, .inl rfl⟩
  · have longer : lineFeed ∉ encoded text ++ [carriageReturn] := by
      rw [List.mem_append, not_or]
      exact ⟨clean, by decide⟩
    have regrouped : encoded text ++ [carriageReturn, lineFeed] ++ bytes =
        (encoded text ++ [carriageReturn]) ++ lineFeed :: bytes := by simp
    rw [regrouped, cutLines_line longer, closeLine_return]
    exact ⟨text, rfl, .inl rfl⟩

theorem not_valid_closeLine (torn : ¬ line.toByteArray.IsValidUTF8) :
    ¬ (closeLine line.reverse).toByteArray.IsValidUTF8 := by
  by_cases last : line.getLast? = some carriageReturn
  · obtain ⟨front, rfl⟩ := List.getLast?_eq_some_iff.mp last
    rw [closeLine_return]
    intro valid
    -- the byte that has been cut off is a character by itself, so it cannot have torn the line
    have character : [carriageReturn].toByteArray.IsValidUTF8 := .intro ['\r'] rfl
    rw [List.toByteArray_append] at torn
    exact torn (valid.append character)
  · rw [closeLine_of_last last]
    exact torn

theorem not_valid_mem_cutLines (within : LineOf line bytes) (torn : ¬ line.toByteArray.IsValidUTF8) :
    ∃ cut ∈ cutLines [] bytes, ¬ cut.toByteArray.IsValidUTF8 := by
  obtain ⟨plain, front, back, rfl, begins, ends⟩ := within
  have here : ∃ cut ∈ cutLines [] (line ++ back), ¬ cut.toByteArray.IsValidUTF8 := by
    rcases ends with rfl | ⟨after, rfl⟩
    · have filled : line.isEmpty = false := by
        cases line with
        | nil => exact absurd ByteArray.isValidUTF8_empty torn
        | cons byte line => rfl
      rw [List.append_nil, cutLines_rest plain, filled]
      exact ⟨line, by simp, torn⟩
    · rw [cutLines_line plain]
      exact ⟨_, List.mem_cons_self .., not_valid_closeLine torn⟩
  rcases begins with rfl | ⟨before, rfl⟩
  · exact here
  · obtain ⟨cut, member, torn⟩ := here
    have regrouped : before ++ [lineFeed] ++ line ++ back = before ++ lineFeed :: (line ++ back) := by simp
    rw [regrouped, cutLines_break]
    exact ⟨cut, List.mem_append_right _ member, torn⟩

theorem lines?_eq_none (within : LineOf line bytes) (torn : ¬ line.toByteArray.IsValidUTF8) : lines? bytes = none := by
  obtain ⟨cut, member, torn⟩ := not_valid_mem_cutLines within torn
  obtain ⟨front, back, whole⟩ := List.append_of_mem member
  have refused : String.fromUTF8? cut.toByteArray = none := dif_neg torn
  rw [lines?, whole, List.mapM_append, List.mapM_cons, refused]
  cases front.mapM fun line => String.fromUTF8? line.toByteArray <;> rfl

theorem lines?_of_cutLines_cons {rest : List UInt8} (cut : cutLines [] bytes = encoded text :: cutLines [] rest) :
    lines? bytes = (lines? rest).map (text :: ·) := by
  rw [lines?, lines?, cut, List.mapM_cons, fromUTF8?_encoded]
  cases (cutLines [] rest).mapM fun line => String.fromUTF8? line.toByteArray <;> rfl

end Cutting

end Reckon.Text
