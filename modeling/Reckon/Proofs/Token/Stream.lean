import Reckon.Proofs.Token.Reading

namespace Reckon

namespace Cursor

/-- The tokens from a place on, up to the end of the text or the first unreadable character. -/
def stream (c : Cursor) : List Token :=
  match _ : c.next with
  | .error _ => []
  | .ok (t, behind) => if _ : t.kind = .finish then [] else t :: behind.stream
termination_by c.rest.length
decreasing_by exact next_rest_length_lt ‹_› ‹_›

variable {c behind stop place : Cursor} {t : Token} {ts : List Token} {cause : Unreadable}

theorem stream_of_more (read : c.next = .ok (t, behind)) (more : t.kind ≠ .finish) :
    c.stream = t :: behind.stream := by
  rw [stream]
  split
  · rename_i read'
    cases read.symm.trans read'
  · rename_i read'
    cases Except.ok.inj (read.symm.trans read')
    rw [dif_neg more]

theorem drain_of_error (torn : c.next = .error (cause, place)) : c.drain = (.error cause, place) := by
  rw [drain]
  split
  · rename_i torn'
    cases Except.error.inj (torn.symm.trans torn')
    rfl
  · rename_i read'
    cases torn.symm.trans read'

theorem drain_of_finish (read : c.next = .ok (t, behind)) (kind : t.kind = .finish) :
    c.drain = (.ok [], behind) := by
  rw [drain]
  split
  · rename_i torn
    cases read.symm.trans torn
  · rename_i read'
    cases Except.ok.inj (read.symm.trans read')
    rw [dif_pos kind]

theorem drain_of_more (read : c.next = .ok (t, behind)) (more : t.kind ≠ .finish) :
    c.drain = (behind.drain.1.map (t :: ·), behind.drain.2) := by
  rw [drain]
  split
  · rename_i torn
    cases read.symm.trans torn
  · rename_i read'
    cases Except.ok.inj (read.symm.trans read')
    rw [dif_neg more]

namespace Reads

theorem stream (reads : Reads c ts stop) : c.stream = ts ++ stop.stream := by
  induction reads with
  | nil => rfl
  | cons read more _ ih => rw [stream_of_more read more, ih, List.cons_append]

theorem drain (reads : Reads c ts stop) : c.drain = (stop.drain.1.map (ts ++ ·), stop.drain.2) := by
  induction reads with
  | @nil c =>
    rcases c.drain with ⟨drained | drained, place⟩ <;> rfl
  | @cons c behind stop t ts read more _ ih =>
    rw [drain_of_more read more, ih]
    rcases stop.drain with ⟨drained | drained, place⟩ <;> rfl

end Reads

def Exhausted (c : Cursor) : Prop :=
  ∀ t behind, c.next = .ok (t, behind) → t.kind = .finish

theorem Exhausted.of_error (torn : c.next = .error (cause, place)) : c.Exhausted := by
  intro t behind read
  cases torn.symm.trans read

theorem Exhausted.of_finish (read : c.next = .ok (t, behind)) (kind : t.kind = .finish) : c.Exhausted := by
  intro t' behind' read'
  cases Except.ok.inj (read.symm.trans read')
  exact kind

theorem Exhausted.stream (done : c.Exhausted) : c.stream = [] := by
  rw [Cursor.stream]
  split
  · rfl
  · rename_i read
    rw [dif_pos (done _ _ read)]

theorem exists_next_of_stream {more : List Token} (ahead : c.stream = t :: more) :
    ∃ behind, c.next = .ok (t, behind) ∧ t.kind ≠ .finish := by
  cases read : c.next with
  | error cause =>
    rw [(Exhausted.of_error read).stream] at ahead
    cases ahead
  | ok result =>
    obtain ⟨first, behind⟩ := result
    by_cases kind : first.kind = .finish
    · rw [(Exhausted.of_finish read kind).stream] at ahead
      cases ahead
    · rw [stream_of_more read kind] at ahead
      cases ahead
      exact ⟨behind, rfl, kind⟩

theorem Exhausted.of_stream (empty : c.stream = []) : c.Exhausted := by
  intro t behind read
  by_cases kind : t.kind = .finish
  · exact kind
  · rw [stream_of_more read kind] at empty
    cases empty

theorem stream_of_next_eq {d : Cursor} (same : c.next = d.next) : c.stream = d.stream := by
  cases ahead : d.stream with
  | nil =>
    have done := Exhausted.of_stream ahead
    rw [Exhausted, ← same] at done
    exact Exhausted.stream done
  | cons t more =>
    obtain ⟨behind, read, kind⟩ := exists_next_of_stream ahead
    rw [← ahead, stream_of_more read kind, stream_of_more (same.trans read) kind]

theorem drain_of_next_eq {d : Cursor} (same : c.next = d.next) : c.drain = d.drain := by
  cases read : d.next with
  | error fault => rw [drain_of_error (same.trans read), drain_of_error read]
  | ok result =>
    obtain ⟨t, behind⟩ := result
    by_cases kind : t.kind = .finish
    · rw [drain_of_finish (same.trans read) kind, drain_of_finish read kind]
    · rw [drain_of_more (same.trans read) kind, drain_of_more read kind]

theorem exists_reads_stream (c : Cursor) : ∃ stop, c.Reads c.stream stop ∧ stop.Exhausted := by
  cases read : c.next with
  | error cause =>
    have done := Exhausted.of_error read
    rw [done.stream]
    exact ⟨c, .nil, done⟩
  | ok result =>
    obtain ⟨t, behind⟩ := result
    by_cases kind : t.kind = .finish
    · have done := Exhausted.of_finish read kind
      rw [done.stream]
      exact ⟨c, .nil, done⟩
    · have shorter := next_rest_length_lt read kind
      obtain ⟨stop, reads, done⟩ := exists_reads_stream behind
      rw [stream_of_more read kind]
      exact ⟨stop, .cons read kind reads, done⟩
termination_by c.rest.length

theorem drain_cases (c : Cursor) :
    ∃ stop, c.Reads c.stream stop ∧
      ((∃ cause place, stop.next = .error (cause, place) ∧ c.drain = (.error cause, place)) ∨
        ∃ t behind, stop.next = .ok (t, behind) ∧ t.kind = .finish ∧ c.drain = (.ok c.stream, behind)) := by
  obtain ⟨stop, reads, done⟩ := exists_reads_stream c
  refine ⟨stop, reads, ?_⟩
  cases last : stop.next with
  | error fault =>
    refine .inl ⟨fault.1, fault.2, rfl, ?_⟩
    rw [reads.drain, drain_of_error last]
    rfl
  | ok result =>
    obtain ⟨t, behind⟩ := result
    have kind := done t behind last
    refine .inr ⟨t, behind, rfl, kind, ?_⟩
    rw [reads.drain, drain_of_finish last kind]
    simp [Except.map]

/-- What can be read from the place `c` is what can be read from some place of the text. -/
def Follows (first c : Cursor) : Prop :=
  ∃ ts stop, first.Reads ts stop ∧ c.next = stop.next

theorem Follows.next {first : Cursor} (follows : Follows first c) (read : c.next = .ok (t, behind)) :
    Follows first behind := by
  obtain ⟨ts, stop, reads, same⟩ := follows
  by_cases kind : t.kind = .finish
  · exact ⟨ts, stop, reads, (next_of_finish read kind).trans same⟩
  · exact ⟨ts ++ [t], behind, reads.append (.cons (same.symm.trans read) kind .nil), rfl⟩

theorem Follows.torn {first : Cursor} (follows : Follows first c) (torn : c.next = .error (cause, place)) :
    Follows first place := by
  obtain ⟨ts, stop, reads, same⟩ := follows
  exact ⟨ts, stop, reads, (next_of_torn torn).trans same⟩

theorem Follows.reads {first : Cursor} (follows : Follows first c) (reads : Reads c ts stop) :
    Follows first stop := by
  induction reads with
  | nil => exact follows
  | cons read _ _ ih => exact ih (follows.next read)

theorem Follows.drain {first : Cursor} (follows : Follows first c) : Follows first c.drain.2 := by
  obtain ⟨stop, reads, ⟨cause, place, torn, drained⟩ | ⟨t, behind, read, -, drained⟩⟩ := drain_cases c
  · rw [drained]
    exact (follows.reads reads).torn torn
  · rw [drained]
    exact (follows.reads reads).next read

end Cursor

theorem tokens_eq_ok_iff (text : String) (ts : List Token) :
    tokens text = .ok ts ↔ ∃ stop t behind, Cursor.Reads (.ofText text) ts stop ∧
      stop.next = .ok (t, behind) ∧ t.kind = .finish := by
  constructor
  · intro tokenized
    obtain ⟨stop, reads, ⟨cause, place, -, drained⟩ | ⟨t, behind, read, kind, drained⟩⟩ :=
      Cursor.drain_cases (.ofText text)
    · cases (congrArg Prod.fst drained).symm.trans tokenized
    · cases (congrArg Prod.fst drained).symm.trans tokenized
      exact ⟨stop, t, behind, reads, read, kind⟩
  · rintro ⟨stop, t, behind, reads, read, kind⟩
    rw [tokens, reads.drain, Cursor.drain_of_finish read kind]
    simp [Except.map]

theorem tokens_eq_error_iff (text : String) (cause : Unreadable) :
    tokens text = .error cause ↔
      ∃ ts stop place, Cursor.Reads (.ofText text) ts stop ∧ stop.next = .error (cause, place) := by
  constructor
  · intro torn
    obtain ⟨stop, reads, ⟨cause', place, last, drained⟩ | ⟨t, behind, -, -, drained⟩⟩ :=
      Cursor.drain_cases (.ofText text)
    · cases (congrArg Prod.fst drained).symm.trans torn
      exact ⟨_, stop, place, reads, last⟩
    · cases (congrArg Prod.fst drained).symm.trans torn
  · rintro ⟨ts, stop, place, reads, last⟩
    rw [tokens, reads.drain, Cursor.drain_of_error last]
    rfl

theorem before_unreadable {text : String} {cause : Unreadable} {ts : List Token} {stop behind : Cursor} {t : Token}
    (torn : tokens text = .error cause) (reads : (Cursor.ofText text).Reads ts stop)
    (read : stop.next = .ok (t, behind)) :
    t ∈ (Cursor.ofText text).stream ∧ t.kind ≠ .finish ∧ t.pos < cause.pos := by
  obtain ⟨all, final, place, whole, last⟩ := (tokens_eq_error_iff text cause).mp torn
  rcases reads.comparable whole with ⟨more, rfl, between⟩ | ⟨more, rfl, between⟩
  · cases between with
    | nil => cases read.symm.trans last
    | cons first real further =>
      cases Except.ok.inj (read.symm.trans first)
      refine ⟨?_, real, ?_⟩
      · rw [whole.stream]
        simp
      · have inside := Cursor.next_pos_lt first real
        have between := further.pos_le
        have ahead := Cursor.pos_le_unreadable last
        omega
  · cases between with
    | nil => cases read.symm.trans last
    | cons first _ _ => cases last.symm.trans first

namespace Scanner

inductive Request where
  | token
  | next
  | remaining
deriving DecidableEq, Repr

def serve (s : Scanner) : Request → Scanner
  | .token => s.token.2
  | .next => s.next?.2
  | .remaining => s.remaining.2

def serveAll (s : Scanner) (requests : List Request) : Scanner :=
  requests.foldl serve s

theorem serve_follows {first : Cursor} {s : Scanner} (follows : first.Follows s.cursor) (request : Request) :
    first.Follows (s.serve request).cursor := by
  cases request with
  | token =>
    simp only [serve, token]
    split
    · exact follows.torn ‹_›
    · exact follows.next ‹_›
  | next =>
    simp only [serve, next?]
    split
    · exact follows
    · split
      · exact follows.torn ‹_›
      · split <;> exact follows.next ‹_›
  | remaining =>
    simp only [serve, remaining]
    split
    · exact follows
    · exact follows.drain

theorem serveAll_follows (text : String) (requests : List Request) :
    (Cursor.ofText text).Follows ((ofText text).serveAll requests).cursor := by
  have start : (Cursor.ofText text).Follows (ofText text).cursor := ⟨[], _, .nil, rfl⟩
  unfold serveAll
  generalize ofText text = s at start ⊢
  induction requests generalizing s with
  | nil => exact start
  | cons request requests ih => exact ih _ (serve_follows start request)

end Scanner

end Reckon
