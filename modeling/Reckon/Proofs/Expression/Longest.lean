import Reckon.Proofs.Expression.Verdict
import Reckon.Proofs.Token.Lookahead

namespace Reckon

def Longest (room : Nat) (text : String) (ts : List Token) : Prop :=
  ∀ us place e, (Cursor.ofText text).Reads us place → Derives .sum room us e → us <+: ts

/-- The tokens `ts` at the beginning of the text are an expression with the tree `e`, and behind them stands
the token `t`, which is no operator and ends at the place `behind`. -/
structure Leads (limit : Nat) (text : String) (ts : List Token) (t : Token) (behind : Cursor) (e : Expr) : Prop where
  stands : ∃ stop, (Cursor.ofText text).Reads ts stop ∧ stop.next = .ok (t, behind)
  derived : Derives .sum limit ts e
  plain : t.kind.isOperator = false

variable {limit : Nat} {text : String} {ts : List Token} {t : Token} {behind : Cursor} {e : Expr}

theorem parse_lenient_iff_leads :
    parse ⟨true, limit⟩ text = .ok e ↔ ∃ ts t behind, Leads limit text ts t behind e := by
  rw [parse_eq_ok_iff]
  constructor
  · rintro ⟨ts, t, ⟨stop, behind, reads, final⟩, derived, stops, -⟩
    exact ⟨ts, t, behind, ⟨stop, reads, final⟩, derived, stops⟩
  · rintro ⟨ts, t, behind, ⟨stop, reads, final⟩, derived, plain⟩
    exact ⟨ts, t, ⟨stop, behind, reads, final⟩, derived, plain, by simp⟩

namespace Leads

theorem longest (leads : Leads limit text ts t behind e) (room : Nat) : Longest room text ts := by
  intro us place f reads derived
  obtain ⟨⟨stop, taken, final⟩, whole, plain⟩ := leads
  rcases taken.comparable reads with ⟨more, rfl, between⟩ | ⟨more, rfl, -⟩
  · cases between with
    | nil => simp
    | cons read real _ =>
      cases Except.ok.inj (read.symm.trans final)
      have begun : Begins .sum limit ts .nothing := .whole whole
      exact absurd derived (begun.not_derives_of_refuses ⟨plain, real⟩)
  · exact List.prefix_append us more

theorem exists_read (leads : Leads limit text ts t behind e) :
    ∃ reader, Reader.start (.ofText text) = .ok reader ∧ reader.read ⟨true, limit⟩ = (.ok e, ⟨t, behind, 0⟩) := by
  obtain ⟨⟨stop, reads, final⟩, derived, plain⟩ := leads
  obtain ⟨first, beyond, read⟩ := reads.exists_next final
  have takes : (Reader.mk first beyond 0).Takes ts ⟨t, behind, 0⟩ := Reader.takes_of_reads reads read final rfl
  refine ⟨⟨first, beyond, 0⟩, ?_, ?_⟩
  · simp only [Reader.start, read]
  · have found : Derives .sum (Policy.mk true limit).maxDepth ts e := derived
    rw [Reader.read_of_derives found takes plain (.of_next read) rfl]
    simp

theorem parse_replaced (leads : Leads limit text ts t behind e) {front other : List Char}
    (whole : text.toList = front ++ behind.rest) (last : t.kind = .finish → other = []) :
    parse ⟨true, limit⟩ (String.ofList (front ++ other)) = .ok e := by
  obtain ⟨⟨stop, reads, final⟩, derived, plain⟩ := leads
  by_cases finish : t.kind = .finish
  · -- Nothing stands behind the end of the text.
    have none := Cursor.next_rest_of_finish final finish
    rw [last finish, ← none, ← whole, String.ofList_toList]
    exact parse_lenient_iff_leads.mpr ⟨ts, t, behind, ⟨stop, reads, final⟩, derived, plain⟩
  · obtain ⟨place, u, beyond, again, read, kind⟩ := reads.exists_replaced final finish plain whole other
    refine parse_lenient_iff_leads.mpr ⟨ts, u, beyond, ⟨place, ?_, read⟩, derived, by rw [kind]; exact plain⟩
    simpa [Cursor.ofText] using again

end Leads

theorem parse_lenient_of_operator (before : Precedes text ts t) (operator : t.kind.isOperator = true)
    (derived : Derives .sum limit ts e) (longest : Longest limit text ts) :
    ∃ err, parse ⟨true, limit⟩ text = .error (.unparsable err) := by
  cases answer : parse ⟨true, limit⟩ text with
  | error failure =>
    obtain ⟨err, us, stop, s, rfl, -⟩ := exists_ends_of_failed answer
    exact ⟨err, rfl⟩
  | ok f =>
    obtain ⟨us, u, beyond, leads⟩ := parse_lenient_iff_leads.mp answer
    obtain ⟨stop, behind, reads, final⟩ := before
    have shorter := leads.longest limit ts stop e reads derived
    obtain ⟨⟨place, taken, read⟩, whole, plain⟩ := leads
    -- Both are the longest expression, and one token cannot both be an operator and be none.
    have same := shorter.eq_of_length_le (longest us place f taken whole).length_le
    subst same
    cases reads.unique taken
    cases Except.ok.inj (read.symm.trans final)
    cases operator.symm.trans plain

/-- Where trailing text is allowed, a tree is found exactly if an expression stands at the beginning of the
text with no operator behind it. It is then the longest one, the reader is left at the token behind it,
and what stands behind that token does not matter. Before an operator there is an error, even behind a
complete expression. -/
theorem parse_lenient_longest (limit : Nat) (text : String) :
    (∀ e, parse ⟨true, limit⟩ text = .ok e ↔ ∃ ts t behind, Leads limit text ts t behind e) ∧
    (∀ ts t behind e, Leads limit text ts t behind e →
      (∀ room, Longest room text ts) ∧
      (∃ reader, Reader.start (.ofText text) = .ok reader ∧
        reader.read ⟨true, limit⟩ = (.ok e, ⟨t, behind, 0⟩)) ∧
      (∀ front other : List Char, text.toList = front ++ behind.rest → (t.kind = .finish → other = []) →
        parse ⟨true, limit⟩ (String.ofList (front ++ other)) = .ok e)) ∧
    (∀ ts t e, Precedes text ts t → t.kind.isOperator = true → Derives .sum limit ts e → Longest limit text ts →
      ∃ err, parse ⟨true, limit⟩ text = .error (.unparsable err)) := by
  refine ⟨fun e => parse_lenient_iff_leads, ?_, ?_⟩
  · intro ts t behind e leads
    exact ⟨leads.longest, leads.exists_read, fun front other => leads.parse_replaced⟩
  · intro ts t e before operator derived longest
    exact parse_lenient_of_operator before operator derived longest

end Reckon
