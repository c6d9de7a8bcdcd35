namespace Reckon

inductive Agree {ε α : Type} (fails : ε → ε → Prop) (values : α → α → Prop) : Except ε α → Except ε α → Prop where
  | failed {err err' : ε} (related : fails err err') : Agree fails values (.error err) (.error err')
  | valued {x x' : α} (related : values x x') : Agree fails values (.ok x) (.ok x')

namespace Agree

variable {ε α β : Type} {fails : ε → ε → Prop} {values : α → α → Prop} {results : β → β → Prop}
  {first first' : Except ε α}

theorem bind {further further' : α → Except ε β} (begun : Agree fails values first first')
    (goesOn : ∀ x x', values x x' → Agree fails results (further x) (further' x')) :
    Agree fails results (first.bind further) (first'.bind further') := by
  cases begun with
  | failed related => exact .failed related
  | valued related => exact goesOn _ _ related

end Agree

end Reckon
