import Reckon.Proofs.Expression.Parsing
import Reckon.Proofs.Token.Stream

namespace Reckon

theorem Precedes.tokens {text : String} {ts : List Token} {t : Token} (before : Precedes text ts t)
    (finish : t.kind = .finish) : tokens text = .ok ts := by
  obtain ⟨stop, behind, reads, final⟩ := before
  exact (tokens_eq_ok_iff text ts).mpr ⟨stop, t, behind, reads, final, finish⟩

theorem exists_precedes_of_tokens {text : String} {ts : List Token} (tokenized : tokens text = .ok ts) :
    ∃ t, Precedes text ts t ∧ t.kind = .finish := by
  obtain ⟨stop, t, behind, reads, final, finish⟩ := (tokens_eq_ok_iff text ts).mp tokenized
  exact ⟨t, ⟨stop, behind, reads, final⟩, finish⟩

theorem parse_strict_of_derives {limit room : Nat} {text : String} {ts : List Token} {e : Expr}
    (tokenized : tokens text = .ok ts) (derived : Derives .sum room ts e) (fits : room ≤ limit) :
    parse ⟨false, limit⟩ text = .ok e := by
  obtain ⟨t, before, finish⟩ := exists_precedes_of_tokens tokenized
  have stops : Level.sum.continues t.kind = false := by
    rw [finish]
    rfl
  exact parse_eq_ok_iff.mpr ⟨ts, t, before, derived.mono fits, stops, fun _ => finish⟩

theorem derives_of_parse_strict {limit : Nat} {text : String} {e : Expr}
    (parsed : parse ⟨false, limit⟩ text = .ok e) : ∃ ts, tokens text = .ok ts ∧ Derives .sum limit ts e := by
  obtain ⟨ts, t, before, derived, -, finish⟩ := parse_eq_ok_iff.mp parsed
  exact ⟨ts, before.tokens (finish rfl), derived⟩

theorem parse_of_parse_strict {trailing : Bool} {limit : Nat} {text : String} {e : Expr}
    (parsed : parse ⟨false, limit⟩ text = .ok e) : parse ⟨trailing, limit⟩ text = .ok e := by
  obtain ⟨ts, t, before, derived, stops, finish⟩ := parse_eq_ok_iff.mp parsed
  exact parse_eq_ok_iff.mpr ⟨ts, t, before, derived, stops, fun _ => finish rfl⟩

theorem derives_unique_of_tokens {room more : Nat} {text : String} {ts : List Token} {e f : Expr}
    (tokenized : tokens text = .ok ts) (derived : Derives .sum room ts e) (derived' : Derives .sum more ts f) :
    e = f := by
  have parsed := parse_strict_of_derives tokenized derived (Nat.le_max_left room more)
  have parsed' := parse_strict_of_derives tokenized derived' (Nat.le_max_right room more)
  exact Except.ok.inj (parsed.symm.trans parsed')

/-- Parsing a whole text finds a tree exactly where the grammar derives it, and no text has two trees. -/
theorem parse_strict_iff_derives (text : String) :
    (∀ limit e, parse ⟨false, limit⟩ text = .ok e ↔ ∃ ts, tokens text = .ok ts ∧ Derives .sum limit ts e) ∧
    (∀ ts room more e f, tokens text = .ok ts → Derives .sum room ts e → Derives .sum more ts f → e = f) := by
  constructor
  · intro limit e
    constructor
    · exact derives_of_parse_strict
    · rintro ⟨ts, tokenized, derived⟩
      exact parse_strict_of_derives tokenized derived (Nat.le_refl limit)
  · intro ts room more e f
    exact derives_unique_of_tokens

end Reckon
