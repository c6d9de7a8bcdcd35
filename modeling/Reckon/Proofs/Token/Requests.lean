import Reckon.Proofs.Token.Cut

namespace Reckon

namespace Cursor

inductive Advances (c : Cursor) : Cursor → Prop where
  | refl : Advances c c
  | step {first : Char} {rest : List Char} {pos : Nat} (before : Advances c ⟨first :: rest, pos⟩) :
      Advances c ⟨rest, pos + 1⟩

namespace Advances

variable {c d e : Cursor}

theorem trans (before : c.Advances d) (behind : d.Advances e) : c.Advances e := by
  induction behind with
  | refl => exact before
  | step _ ih => exact .step ih

theorem of_drop (count : Nat) {cs : List Char} {pos : Nat} (inside : count ≤ cs.length) :
    Advances ⟨cs, pos⟩ ⟨cs.drop count, pos + count⟩ := by
  induction count with
  | zero => exact .refl
  | succ count ih =>
    have before := ih (by omega)
    rw [List.drop_eq_getElem_cons (by omega)] at before
    exact .step before

theorem total (advances : c.Advances d) : d.pos + d.rest.length = c.pos + c.rest.length := by
  induction advances with
  | refl => rfl
  | step _ ih =>
    simp only [List.length_cons] at ih ⊢
    omega

theorem place {text : String} (advances : (ofText text).Advances c) :
    c.pos ≤ text.toList.length ∧ c.rest = text.toList.drop c.pos := by
  induction advances with
  | refl => exact ⟨Nat.zero_le _, rfl⟩
  | @step first rest pos _ ih =>
    obtain ⟨inside, ahead⟩ := ih
    have lengths := congrArg List.length ahead
    simp only [List.length_drop, List.length_cons] at lengths inside ⊢
    refine ⟨by omega, ?_⟩
    rw [← List.drop_drop, ← ahead]
    rfl

end Advances

theorem skip_advances (p : Char → Bool) (c : Cursor) : c.Advances (c.skip p) := by
  have parts := List.takeWhile_append_dropWhile (p := p) (l := c.rest)
  have inside : (c.rest.takeWhile p).length ≤ c.rest.length := (List.takeWhile_sublist p).length_le
  have behind : c.rest.drop (c.rest.takeWhile p).length = c.rest.dropWhile p := by
    have left : (c.rest.takeWhile p ++ c.rest.dropWhile p).drop (c.rest.takeWhile p).length = c.rest.dropWhile p :=
      List.drop_left
    rwa [parts] at left
  rw [skip, ← behind]
  exact .of_drop _ inside

theorem next_advances {c behind : Cursor} {t : Token} (read : c.next = .ok (t, behind)) : c.Advances behind := by
  apply (skip_advances Text.isBlank c).trans
  rcases lead_cases read with ⟨-, -, rfl⟩ | ⟨first, rest, -, -, taken⟩ | ⟨kind, lexeme, -, -, -, -, fits, rfl⟩
  · exact .refl
  · rw [show behind = _ from congrArg Prod.snd taken]
    exact skip_advances _ _
  · exact .of_drop _ fits

theorem torn_advances {c stop : Cursor} {e : Unreadable} (torn : c.next = .error (e, stop)) : c.Advances stop := by
  rw [eq_skip_of_torn torn]
  exact skip_advances _ _

theorem exists_rest_of_torn {c stop : Cursor} {e : Unreadable} (torn : c.next = .error (e, stop)) :
    ∃ rest, stop = ⟨e.char :: rest, e.pos⟩ := by
  obtain ⟨same, pos, rest, head⟩ := lead_torn torn
  refine ⟨rest, ?_⟩
  rw [same, ← head, pos]

end Cursor

namespace Scanner

variable {s : Scanner} {e : Unreadable} {t : Token} {behind place : Cursor}

theorem token_of_error (torn : s.cursor.next = .error (e, place)) : s.token = (.error e, ⟨place, s.ended⟩) := by
  rw [token, torn]

theorem token_of_next (read : s.cursor.next = .ok (t, behind)) : s.token = (.ok t, ⟨behind, s.ended⟩) := by
  rw [token, read]

theorem next?_of_ended (ended : s.ended = true) : s.next? = (none, s) := by
  rw [next?, if_pos ended]

theorem next?_of_error {c : Cursor} (torn : c.next = .error (e, place)) :
    next? ⟨c, false⟩ = (some (.error e), ⟨place, true⟩) := by
  simp [next?, torn]

theorem next?_of_finish {c : Cursor} (read : c.next = .ok (t, behind)) (kind : t.kind = .finish) :
    next? ⟨c, false⟩ = (none, ⟨behind, true⟩) := by
  simp [next?, read, kind]

theorem next?_of_more {c : Cursor} (read : c.next = .ok (t, behind)) (more : t.kind ≠ .finish) :
    next? ⟨c, false⟩ = (some (.ok t), ⟨behind, false⟩) := by
  simp [next?, read, more]

theorem next?_of_going (going : s.ended = false) :
    s.next?.1 = (match s.token.1 with
      | .ok t => if t.kind = .finish then none else some (.ok t)
      | .error e => some (.error e)) := by
  obtain ⟨c, ended⟩ := s
  cases going
  cases read : c.next with
  | error e => rw [next?_of_error read, token_of_error read]
  | ok result =>
    obtain ⟨t, behind⟩ := result
    rw [token_of_next read]
    by_cases kind : t.kind = .finish
    · simp [next?_of_finish read kind, kind]
    · simp [next?_of_more read kind, kind]

theorem next?_rest_length_lt {later : Scanner} (given : s.next? = (some (.ok t), later)) :
    later.cursor.rest.length < s.cursor.rest.length := by
  obtain ⟨c, ended⟩ := s
  cases ended with
  | true =>
    rw [next?_of_ended rfl] at given
    cases given
  | false =>
    cases read : c.next with
    | error e =>
      rw [next?_of_error read] at given
      cases given
    | ok result =>
      obtain ⟨first, behind⟩ := result
      by_cases kind : first.kind = .finish
      · rw [next?_of_finish read kind] at given
        cases given
      · rw [next?_of_more read kind] at given
        cases given
        exact Cursor.next_rest_length_lt read kind

def gather (s : Scanner) : List Token × Option Unreadable × Scanner :=
  match _ : s.next? with
  | (none, stop) => ([], none, stop)
  | (some (.error e), stop) => ([], some e, stop)
  | (some (.ok t), later) =>
    let (tokens, fault, stop) := later.gather
    (t :: tokens, fault, stop)
termination_by s.cursor.rest.length
decreasing_by exact next?_rest_length_lt ‹_›

theorem gather_of_none {stop : Scanner} (given : s.next? = (none, stop)) : s.gather = ([], none, stop) := by
  rw [gather]
  split <;> rename_i given' <;> cases given.symm.trans given'
  rfl

theorem gather_of_error {stop : Scanner} (given : s.next? = (some (.error e), stop)) :
    s.gather = ([], some e, stop) := by
  rw [gather]
  split <;> rename_i given' <;> cases given.symm.trans given'
  rfl

theorem gather_of_token {later : Scanner} (given : s.next? = (some (.ok t), later)) :
    s.gather = (t :: later.gather.1, later.gather.2) := by
  rw [gather]
  split <;> rename_i given' <;> cases given.symm.trans given'
  rfl

def failure? {α : Type} : Except Unreadable α → Option Unreadable
  | .error e => some e
  | .ok _ => none

theorem failure?_eq_some {α : Type} {result : Except Unreadable α} : failure? result = some e ↔ result = .error e := by
  cases result <;> simp [failure?]

theorem gather_fresh (c : Cursor) : gather ⟨c, false⟩ = (c.stream, failure? c.drain.1, ⟨c.drain.2, true⟩) := by
  cases read : c.next with
  | error e =>
    rw [gather_of_error (next?_of_error read), (Cursor.Exhausted.of_error read).stream, Cursor.drain_of_error read]
    rfl
  | ok result =>
    obtain ⟨t, behind⟩ := result
    by_cases kind : t.kind = .finish
    · rw [gather_of_none (next?_of_finish read kind), (Cursor.Exhausted.of_finish read kind).stream,
        Cursor.drain_of_finish read kind]
      rfl
    · have shorter := Cursor.next_rest_length_lt read kind
      rw [gather_of_token (next?_of_more read kind), gather_fresh behind, Cursor.stream_of_more read kind,
        Cursor.drain_of_more read kind]
      cases behind.drain.1 <;> rfl
termination_by c.rest.length

theorem remaining_eq_gather (s : Scanner) :
    s.remaining = ((match s.gather.2.1 with
      | none => .ok s.gather.1
      | some e => .error e), s.gather.2.2) := by
  obtain ⟨c, ended⟩ := s
  cases ended with
  | true =>
    rw [gather_of_none (next?_of_ended rfl)]
    rfl
  | false =>
    rw [gather_fresh]
    obtain ⟨stop, -, ⟨cause, place, -, drained⟩ | ⟨t, behind, -, -, drained⟩⟩ := c.drain_cases
    · simp [remaining, drained, failure?]
    · simp [remaining, drained, failure?]

/-- What a request brings. With the remaining members stand those that had been gathered when an unreadable
character was met. -/
inductive Answer where
  | token (result : Except Unreadable Token)
  | next (result : Option (Except Unreadable Token))
  | remaining (gathered : List Token) (result : Except Unreadable (List Token))

namespace Answer

def tokens : Answer → List Token
  | token (.ok t) => if t.kind = .finish then [] else [t]
  | token (.error _) => []
  | next (some (.ok t)) => [t]
  | next (some (.error _)) => []
  | next none => []
  | remaining _ (.ok ts) => ts
  | remaining gathered (.error _) => gathered

def error? : Answer → Option Unreadable
  | token result => failure? result
  | next (some result) => failure? result
  | next none => none
  | remaining _ result => failure? result

def reports : Answer → Bool
  | token _ => false
  | next (some (.ok _)) => false
  | next (some (.error _)) => true
  | next none => true
  | remaining _ _ => true

end Answer

def answer (s : Scanner) : Request → Answer
  | .token => .token s.token.1
  | .next => .next s.next?.1
  | .remaining => .remaining s.gather.1 s.remaining.1

theorem answer_remaining_tokens (s : Scanner) : (s.answer .remaining).tokens = s.gather.1 := by
  rw [answer, remaining_eq_gather]
  cases s.gather.2.1 <;> rfl

def answers (s : Scanner) : List Request → List Answer
  | [] => []
  | request :: requests => s.answer request :: (s.serve request).answers requests

def handedOut (answers : List Answer) : List Token :=
  answers.flatMap Answer.tokens

theorem next_of_token_error (torn : s.token.1 = .error e) : s.cursor.next = .error (e, s.token.2.cursor) := by
  cases read : s.cursor.next with
  | error fault =>
    rw [token_of_error read] at torn ⊢
    cases torn
    rfl
  | ok result =>
    rw [token_of_next read] at torn
    cases torn

theorem next_of_next?_error (torn : s.next?.1 = some (.error e)) : s.cursor.next = .error (e, s.next?.2.cursor) := by
  obtain ⟨c, ended⟩ := s
  cases ended with
  | true => cases torn
  | false =>
    cases read : c.next with
    | error fault =>
      rw [next?_of_error read] at torn ⊢
      cases torn
      rfl
    | ok result =>
      obtain ⟨t, behind⟩ := result
      by_cases kind : t.kind = .finish
      · rw [next?_of_finish read kind] at torn
        cases torn
      · rw [next?_of_more read kind] at torn
        cases torn

theorem drain_of_fault {request : Request} (fault : (s.answer request).error? = some e) :
    s.cursor.drain.1 = .error e ∧ (s.answer request).tokens = s.cursor.stream := by
  cases request with
  | token =>
    have answered : s.token.1 = .error e := failure?_eq_some.mp fault
    have torn := next_of_token_error answered
    rw [Cursor.drain_of_error torn, (Cursor.Exhausted.of_error torn).stream, answer, answered]
    exact ⟨rfl, rfl⟩
  | next =>
    have answered : s.next?.1 = some (.error e) := by
      cases given : s.next?.1 with
      | none =>
        rw [answer, given] at fault
        cases fault
      | some result =>
        rw [answer, given] at fault
        rw [failure?_eq_some.mp fault]
    have torn := next_of_next?_error answered
    rw [Cursor.drain_of_error torn, (Cursor.Exhausted.of_error torn).stream, answer, answered]
    exact ⟨rfl, rfl⟩
  | remaining =>
    have answered : s.remaining.1 = .error e := failure?_eq_some.mp fault
    obtain ⟨c, ended⟩ := s
    cases ended with
    | true => cases answered
    | false =>
      rw [answer_remaining_tokens, gather_fresh]
      exact ⟨answered, rfl⟩

/-- From its first place on the scanner has handed out these tokens, and it has reported the end of the
sequence or not. -/
structure HasServed (first : Cursor) (ts : List Token) (reported : Bool) (s : Scanner) : Prop where
  place : ∃ stop, first.Reads ts stop ∧ s.cursor.next = stop.next
  ended : s.ended = reported
  advances : first.Advances s.cursor

namespace HasServed

variable {first : Cursor} {ts : List Token} {reported : Bool}

theorem stream (served : HasServed first ts reported s) : first.stream = ts ++ s.cursor.stream := by
  obtain ⟨stop, reads, same⟩ := served.place
  rw [reads.stream, Cursor.stream_of_next_eq same]

theorem drained (served : HasServed first ts reported s) : first.drain.1 = s.cursor.drain.1.map (ts ++ ·) := by
  obtain ⟨stop, reads, same⟩ := served.place
  rw [reads.drain, Cursor.drain_of_next_eq same]

theorem more (served : HasServed first ts reported s) (read : s.cursor.next = .ok (t, behind))
    (kind : t.kind ≠ .finish) (ended : Bool) : HasServed first (ts ++ [t]) ended ⟨behind, ended⟩ := by
  obtain ⟨stop, reads, same⟩ := served.place
  exact ⟨⟨behind, reads.append (.cons (same.symm.trans read) kind .nil), rfl⟩, rfl,
    served.advances.trans (Cursor.next_advances read)⟩

theorem finish (served : HasServed first ts reported s) (read : s.cursor.next = .ok (t, behind))
    (kind : t.kind = .finish) (ended : Bool) : HasServed first ts ended ⟨behind, ended⟩ := by
  obtain ⟨stop, reads, same⟩ := served.place
  exact ⟨⟨stop, reads, (Cursor.next_of_finish read kind).trans same⟩, rfl,
    served.advances.trans (Cursor.next_advances read)⟩

theorem flag (served : HasServed first ts reported s) (ended : Bool) : HasServed first ts ended ⟨s.cursor, ended⟩ :=
  ⟨served.place, rfl, served.advances⟩

theorem torn (served : HasServed first ts reported s) (torn : s.cursor.next = .error (e, place)) (ended : Bool) :
    HasServed first ts ended ⟨place, ended⟩ := by
  obtain ⟨stop, reads, same⟩ := served.place
  exact ⟨⟨stop, reads, (Cursor.next_of_torn torn).trans same⟩, rfl,
    served.advances.trans (Cursor.torn_advances torn)⟩

theorem reads {stop : Cursor} {us : List Token} (served : HasServed first ts reported s)
    (reads : s.cursor.Reads us stop) (ended : Bool) : HasServed first (ts ++ us) ended ⟨stop, ended⟩ := by
  obtain ⟨c, flag⟩ := s
  cases served.ended
  simp only at reads
  induction reads generalizing ts with
  | nil =>
    rw [List.append_nil]
    exact served.flag ended
  | @cons c behind stop t us read more _ ih =>
    have later := ih (served.more read more flag)
    rwa [List.append_assoc, List.singleton_append] at later

theorem drain (served : HasServed first ts reported s) (ended : Bool) :
    HasServed first (ts ++ s.cursor.stream) ended ⟨s.cursor.drain.2, ended⟩ := by
  obtain ⟨stop, reads, ⟨cause, place, torn, drained⟩ | ⟨t, behind, read, kind, drained⟩⟩ := s.cursor.drain_cases
  · rw [drained]
    exact (served.reads reads ended).torn torn ended
  · rw [drained]
    exact (served.reads reads ended).finish read kind ended

theorem serve (served : HasServed first ts reported s) (request : Request) :
    HasServed first (ts ++ (s.answer request).tokens) (reported || (s.answer request).reports) (s.serve request) := by
  obtain ⟨c, ended⟩ := s
  cases served.ended
  cases request with
  | token =>
    simp only [answer, Answer.reports, Bool.or_false, Scanner.serve]
    cases read : c.next with
    | error e =>
      rw [token_of_error read]
      simpa [Answer.tokens] using served.torn read ended
    | ok result =>
      obtain ⟨t, behind⟩ := result
      rw [token_of_next read]
      by_cases kind : t.kind = .finish
      · simpa [Answer.tokens, kind] using served.finish read kind ended
      · simpa [Answer.tokens, kind] using served.more read kind ended
  | next =>
    simp only [answer, Scanner.serve]
    cases ended with
    | true =>
      rw [next?_of_ended rfl]
      simpa [Answer.tokens] using served
    | false =>
      cases read : c.next with
      | error e =>
        rw [next?_of_error read]
        simpa [Answer.tokens, Answer.reports] using served.torn read true
      | ok result =>
        obtain ⟨t, behind⟩ := result
        by_cases kind : t.kind = .finish
        · rw [next?_of_finish read kind]
          simpa [Answer.tokens, Answer.reports] using served.finish read kind true
        · rw [next?_of_more read kind]
          simpa [Answer.tokens, Answer.reports] using served.more read kind false
  | remaining =>
    have last : (answer ⟨c, ended⟩ .remaining).reports = true := rfl
    rw [answer_remaining_tokens, last, Bool.or_true, Scanner.serve, remaining_eq_gather]
    cases ended with
    | true =>
      rw [gather_of_none (next?_of_ended rfl)]
      simpa using served
    | false =>
      rw [gather_fresh]
      exact served.drain true

theorem serveAll (served : HasServed first ts reported s) (requests : List Request) :
    HasServed first (ts ++ handedOut (s.answers requests)) (reported || (s.answers requests).any Answer.reports)
      (s.serveAll requests) := by
  induction requests generalizing s ts reported with
  | nil => simpa [answers, handedOut, Scanner.serveAll] using served
  | cons request requests ih =>
    have later := ih (served.serve request)
    simpa [answers, handedOut, Scanner.serveAll, Bool.or_assoc] using later

theorem token_of_stream {more : List Token} (served : HasServed first ts reported s)
    (ahead : first.stream = ts ++ t :: more) : s.token.1 = .ok t := by
  rw [served.stream] at ahead
  obtain ⟨behind, read, -⟩ := Cursor.exists_next_of_stream (List.append_cancel_left ahead)
  rw [token_of_next read]

theorem exhausted (served : HasServed first ts reported s) (used : first.stream = ts) :
    s.cursor.Exhausted := by
  rw [served.stream] at used
  exact .of_stream (List.self_eq_append_right.mp used.symm)

theorem token_of_end {all : List Token} (served : HasServed first ts reported s)
    (used : first.stream = ts) (tokenized : first.drain.1 = .ok all) :
    s.token.1 = .ok (.finish (first.pos + first.rest.length)) := by
  have whole := served.drained
  cases read : s.cursor.next with
  | error e =>
    rw [Cursor.drain_of_error read, tokenized] at whole
    cases whole
  | ok result =>
    obtain ⟨t, behind⟩ := result
    have kind := served.exhausted used t behind read
    rw [token_of_next read, Cursor.next_finish read kind, served.advances.total]

theorem token_of_torn (served : HasServed first ts reported s) (used : first.stream = ts)
    (torn : first.drain.1 = .error e) : s.token.1 = .error e := by
  have whole := served.drained
  cases read : s.cursor.next with
  | error cause =>
    rw [Cursor.drain_of_error read, torn] at whole
    rw [token_of_error read, Except.error.inj whole]
  | ok result =>
    obtain ⟨t, behind⟩ := result
    rw [Cursor.drain_of_finish read (served.exhausted used t behind read), torn] at whole
    cases whole

theorem of_fault (served : HasServed first ts reported s) {request : Request}
    (fault : (s.answer request).error? = some e) :
    first.drain.1 = .error e ∧ first.stream = ts ++ (s.answer request).tokens := by
  obtain ⟨drained, taken⟩ := drain_of_fault fault
  rw [served.drained, served.stream, drained, taken]
  exact ⟨rfl, rfl⟩

theorem of_fault_mem {requests : List Request} {a : Answer} (served : HasServed first ts reported s)
    (member : a ∈ s.answers requests) (fault : a.error? = some e) :
    first.drain.1 = .error e ∧ first.stream = ts ++ handedOut (s.answers requests) := by
  induction requests generalizing s ts reported with
  | nil => cases member
  | cons request requests ih =>
    have later := served.serve request
    rw [answers, handedOut, List.flatMap_cons, ← List.append_assoc]
    rcases List.mem_cons.mp member with rfl | member
    · obtain ⟨torn, used⟩ := served.of_fault fault
      have whole := (later.serveAll requests).stream
      rw [used, List.append_assoc] at whole
      have none := List.append_eq_nil_iff.mp (List.self_eq_append_right.mp whole)
      rw [← handedOut, none.1, List.append_nil]
      exact ⟨torn, used⟩
    · exact ih later member

theorem remaining_of_going (served : HasServed first ts reported s) (going : s.ended = false) :
    s.remaining.1 = (first.drain.1).map (·.drop ts.length) := by
  obtain ⟨c, ended⟩ := s
  cases going
  rw [served.drained]
  show c.drain.1 = _
  cases c.drain.1 with
  | error e => rfl
  | ok us => simp [Except.map]

end HasServed

theorem serve_advances (s : Scanner) (request : Request) : s.cursor.Advances (s.serve request).cursor := by
  have start : HasServed s.cursor [] s.ended s := ⟨⟨_, .nil, rfl⟩, rfl, .refl⟩
  exact (start.serve request).advances

/-- What is known about a scanner of a text that has given these answers. -/
structure Interleaved (text : String) (answers : List Answer) (s : Scanner) : Prop where
  inOrder : handedOut answers <+: (Cursor.ofText text).stream
  following : ∀ t more, (Cursor.ofText text).stream = handedOut answers ++ t :: more → s.token.1 = .ok t
  finished : (Cursor.ofText text).stream = handedOut answers → ∀ ts, tokens text = .ok ts →
    s.token.1 = .ok (.finish text.length)
  torn : (Cursor.ofText text).stream = handedOut answers → ∀ e, tokens text = .error e → s.token.1 = .error e
  sameFault : ∀ a ∈ answers, ∀ e, a.error? = some e → tokens text = .error e ∧ s.token.1 = .error e
  ended : (∃ a ∈ answers, a.reports = true) → s.next? = (none, s) ∧ s.remaining = (.ok [], s)
  /-- Before that the next member is what the next token would be, be it readable or not. -/
  going : (∀ a ∈ answers, a.reports = false) →
    s.next?.1 = (match s.token.1 with
      | .ok t => if t.kind = .finish then none else some (.ok t)
      | .error e => some (.error e)) ∧
    s.remaining.1 = (tokens text).map (·.drop (handedOut answers).length)
  moves : ∀ request, s.cursor.Advances (s.serve request).cursor
  faultPlace : ∀ e, s.token.1 = .error e → ∃ rest, s.token.2.cursor = ⟨e.char :: rest, e.pos⟩
  within : ∀ c, s.cursor.Advances c → c.pos ≤ text.length ∧ c.rest.head? = text.toList[c.pos]?

/-- Requests of all kinds, in any order, read the same tokens. -/
theorem requests_interleaved (text : String) (requests : List Request) :
    Interleaved text ((ofText text).answers requests) ((ofText text).serveAll requests) := by
  have start : HasServed (.ofText text) [] false (ofText text) := ⟨⟨_, .nil, rfl⟩, rfl, .refl⟩
  have served := start.serveAll requests
  rw [List.nil_append, Bool.false_or] at served
  constructor
  case inOrder => exact ⟨_, served.stream.symm⟩
  case following => exact fun t more => served.token_of_stream
  case finished =>
    intro used ts tokenized
    rw [served.token_of_end used tokenized]
    simp [Cursor.ofText, String.length_toList]
  case torn => exact fun used e => served.token_of_torn used
  case sameFault =>
    intro a member e fault
    obtain ⟨torn, used⟩ := start.of_fault_mem member fault
    exact ⟨torn, served.token_of_torn used torn⟩
  case ended =>
    intro reported
    have ended := served.ended.trans (List.any_eq_true.mpr reported)
    constructor
    · exact next?_of_ended ended
    · rw [remaining, if_pos ended]
  case going =>
    intro unreported
    have going := served.ended.trans (List.any_eq_false.mpr (by simpa using unreported))
    exact ⟨next?_of_going going, served.remaining_of_going going⟩
  case moves => exact serve_advances _
  case faultPlace => exact fun e fault => Cursor.exists_rest_of_torn (next_of_token_error fault)
  case within =>
    intro c advances
    obtain ⟨inside, ahead⟩ := (served.advances.trans advances).place
    rw [String.length_toList] at inside
    rw [ahead, List.head?_drop]
    exact ⟨inside, rfl⟩

end Scanner

end Reckon
