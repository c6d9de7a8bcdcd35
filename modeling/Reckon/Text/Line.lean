namespace Reckon.Text

def lineFeed : UInt8 := 10

def carriageReturn : UInt8 := 13

def closeLine : List UInt8 → List UInt8
  | [] => []
  | last :: before => if last = carriageReturn then before.reverse else (last :: before).reverse

/-- Cuts `bytes` into lines, where `held` are the bytes of the line begun so far, last first. -/
def cutLines (held : List UInt8) : List UInt8 → List (List UInt8)
  | [] => if held.isEmpty then [] else [held.reverse]
  | byte :: bytes =>
    if byte = lineFeed then closeLine held :: cutLines [] bytes else cutLines (byte :: held) bytes

theorem cutLines_lineFeed (held bytes : List UInt8) :
    cutLines held (lineFeed :: bytes) = closeLine held :: cutLines [] bytes := by
  simp [cutLines]

theorem cutLines_append (held line bytes : List UInt8) (plain : lineFeed ∉ line) :
    cutLines held (line ++ bytes) = cutLines (line.reverse ++ held) bytes := by
  induction line generalizing held with
  | nil => rfl
  | cons byte line ih =>
    have other : byte ≠ lineFeed := fun same => plain (by simp [same])
    have rest : lineFeed ∉ line := fun member => plain (List.mem_cons_of_mem _ member)
    simp [cutLines, other, ih _ rest]

/-- The lines of a stream of UTF-8 text, or `none` if one of them is no UTF-8. A line feed takes a carriage return
right before it away with it, and bytes after the last line feed are a line too. -/
def lines? (bytes : List UInt8) : Option (List String) :=
  (cutLines [] bytes).mapM fun line => String.fromUTF8? line.toByteArray

end Reckon.Text
