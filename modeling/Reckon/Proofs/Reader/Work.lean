import Reckon.Proofs.Reader.Moves
import Reckon.Proofs.Reader.Runs

namespace Reckon

namespace Reader

def ahead (r : Reader) : List Token :=
  if r.current.kind = .finish then [] else r.current :: r.cursor.stream

def Placed (r : Reader) : Prop :=
  ∃ c : Cursor, r.Views c

def Consumes (r q : Reader) : Prop :=
  ∃ ts, ts ≠ [] ∧ r.ahead = ts ++ q.ahead

variable {c : Cursor} {r q after : Reader} {t : Token} {cause : SyntaxError} {policy : Policy} {text : String}

theorem ahead_eq_stream (views : r.Views c) : r.ahead = c.stream := by
  obtain ⟨behind, read, same⟩ := views.exists_next
  unfold ahead
  split
  · rename_i last
    exact (Cursor.Exhausted.of_finish read last).stream.symm
  · rename_i more
    rw [Cursor.stream_of_more read more, Cursor.stream_of_next_eq same]

theorem ahead_of_advance (more : r.current.kind ≠ .finish) (taken : r.advance = .ok q) :
    r.ahead = r.current :: q.ahead := by
  rw [ahead_eq_stream (.of_advance taken)]
  exact if_neg more

namespace Placed

theorem eq_of_finish (placed : r.Placed) (last : r.current.kind = .finish) (again : r.advance = .ok q) :
    q.current = r.current ∧ q.cursor = r.cursor := by
  obtain ⟨c, views⟩ := placed
  have next := (advance_eq_ok_iff.mp again).1
  exact Prod.mk.inj (Except.ok.inj (next.symm.trans (views.again_of_finish last)))

theorem of_torn (placed : r.Placed) (torn : r.advance = .error (cause, q)) : q.Placed := by
  obtain ⟨c, views⟩ := placed
  obtain ⟨fault, place, -, next, rfl⟩ := advance_eq_error torn
  exact ⟨c, views.of_torn next⟩

theorem ahead_ne_nil_of_torn (placed : r.Placed) (torn : r.advance = .error (cause, q)) : r.ahead ≠ [] := by
  obtain ⟨c, views⟩ := placed
  obtain ⟨behind, read, same⟩ := views.exists_next
  obtain ⟨fault, place, -, next, -⟩ := advance_eq_error torn
  have more := Cursor.more_of_torn read (same.symm.trans next)
  simp [ahead, more]

end Placed

theorem Consumes.one (taken : r.ahead = t :: q.ahead) : r.Consumes q :=
  ⟨[t], List.cons_ne_nil t [], taken⟩

theorem Consumes.trans (first : r.Consumes q) (second : q.Consumes after) : r.Consumes after := by
  obtain ⟨ts, some, taken⟩ := first
  obtain ⟨us, -, further⟩ := second
  refine ⟨ts ++ us, List.append_ne_nil_of_left_ne_nil some us, ?_⟩
  rw [taken, further, List.append_assoc]

theorem UsedOn.placed (used : UsedOn policy text r) : r.Placed := by
  obtain ⟨ts, stop, -, views⟩ := used.standsIn.place
  exact ⟨stop, views⟩

theorem UsedOn.ahead_length_le (used : UsedOn policy text r) :
    r.ahead.length ≤ (Cursor.ofText text).stream.length := by
  obtain ⟨ts, stop, reads, views⟩ := used.standsIn.place
  rw [ahead_eq_stream views, reads.stream, List.length_append]
  exact Nat.le_add_left ..

end Reader

namespace Descent

open Reader

variable {limit : Nat} {s s' after : State} {policy : Policy} {text : String}

/-- A step that asks for the next token is counted, and leaves the reader as the answer does. Any other step leaves the
reader as it is, but for the depth. -/
inductive Asks (s s' : State) : Prop where
  | nothing (asked : s'.asked = s.asked) (reader : s'.reader = { s.reader with depth := s'.reader.depth })
  | token (asked : s'.asked = s.asked + 1) (advanced : s.reader.advance = .ok s'.reader)
  | torn {cause : SyntaxError} (asked : s'.asked = s.asked + 1)
      (advanced : s.reader.advance = .error (cause, s'.reader)) (failed : s'.phase = .failed cause)

theorem Effect.asks (effect : Effect limit s s') : Asks s s' := by
  cases effect with
  | quiet reader asked _ | opens _ reader asked _ | closes reader asked _ => exact .nothing asked (by rw [reader])
  | takes _ taken asked _ _ => exact .token asked taken
  | ends _ again asked _ _ _ => exact .token asked again
  | tears torn asked _ _ failed => exact .torn asked torn failed

structure State.Stays (s s' : State) : Prop where
  current : s'.reader.current = s.reader.current
  next : s'.reader.cursor.next = s.reader.cursor.next
  cursor : s'.phase.isFailed = false → s'.reader.cursor = s.reader.cursor

namespace State.Stays

theorem of_cursor (current : s'.reader.current = s.reader.current) (cursor : s'.reader.cursor = s.reader.cursor) :
    s.Stays s' :=
  ⟨current, by rw [cursor], fun _ => cursor⟩

theorem ahead (stays : s.Stays s') : s'.reader.ahead = s.reader.ahead := by
  simp only [Reader.ahead, stays.current, Cursor.stream_of_next_eq stays.next]

theorem trans (first : s.Stays s') (second : s'.Stays after)
    (lasting : s'.phase.isFailed = true → after.phase.isFailed = true) : s.Stays after := by
  refine ⟨second.current.trans first.current, second.next.trans first.next, ?_⟩
  intro going
  have before : s'.phase.isFailed = false := by
    rw [← Bool.not_eq_true]
    intro failed
    cases going.symm.trans (lasting failed)
  exact (second.cursor going).trans (first.cursor before)

theorem then_consumes (stays : s.Stays s') (consumes : s'.reader.Consumes after.reader) :
    s.reader.Consumes after.reader := by
  rwa [Consumes, ← stays.ahead]

theorem after_consumes (stays : s'.Stays after) (consumes : s.reader.Consumes s'.reader) :
    s.reader.Consumes after.reader := by
  rwa [Consumes, stays.ahead]

end State.Stays

inductive Progress (s s' : State) : Prop where
  | quiet (stays : s.Stays s') (lower : s'.cost < s.cost)
  | takes (taken : s.reader.ahead = s.reader.current :: s'.reader.ahead) (cost : s'.cost < s.cost + 13)

theorem Effect.stays (effect : Effect limit s s') (placed : s.reader.Placed) :
    s.Stays s' ∨ s.reader.current.kind ≠ .finish ∧ s.reader.advance = .ok s'.reader := by
  cases effect with
  | quiet reader _ _ | opens _ reader _ _ | closes reader _ _ =>
    exact .inl (.of_cursor (by rw [reader]) (by rw [reader]))
  | ends last again _ _ _ _ =>
    obtain ⟨current, cursor⟩ := placed.eq_of_finish last again
    exact .inl (.of_cursor current cursor)
  | tears torn _ _ _ failed =>
    obtain ⟨fault, place, -, next, reader⟩ := advance_eq_error torn
    refine .inl ⟨by rw [reader], ?_, ?_⟩
    · rw [reader]
      exact Cursor.next_of_torn next
    · rw [failed]
      exact nofun
  | takes more taken _ _ _ => exact .inr ⟨more, taken⟩

theorem Effect.placed (effect : Effect limit s s') (placed : s.reader.Placed) : s'.reader.Placed := by
  cases effect with
  | quiet reader _ _ | opens _ reader _ _ | closes reader _ _ =>
    rw [reader]
    exact placed
  | takes _ taken _ _ _ | ends _ taken _ _ _ _ => exact ⟨_, .of_advance taken⟩
  | tears torn _ _ _ _ => exact placed.of_torn torn

theorem progress_of_step (placed : s.reader.Placed) (stepped : s.step limit = some s') :
    Progress s s' ∧ s'.reader.Placed := by
  have move := State.step_moves stepped
  refine ⟨?_, move.effect.placed placed⟩
  rcases move.effect.stays placed with stays | ⟨more, taken⟩
  · rcases move.pays with lower | ⟨more, taken, cost⟩
    · exact .quiet stays lower
    · exact .takes (ahead_of_advance more taken) cost
  · refine .takes (ahead_of_advance more taken) ?_
    rcases move.pays with lower | ⟨-, -, cost⟩
    · omega
    · exact cost

def Later (limit : Nat) : State → State → Prop :=
  Relation.TransGen fun s s' => s.step limit = some s'

theorem progress_of_later (placed : s.reader.Placed) (later : Later limit s s') :
    (s.Stays s' ∧ s'.cost < s.cost ∨ s.reader.Consumes s'.reader) ∧ s'.reader.Placed := by
  induction later with
  | single stepped =>
    obtain ⟨progress, placed⟩ := progress_of_step placed stepped
    refine ⟨?_, placed⟩
    cases progress with
    | quiet stays lower => exact .inl ⟨stays, lower⟩
    | takes taken _ => exact .inr (.one taken)
  | tail _ stepped ih =>
    obtain ⟨before, middle⟩ := ih
    obtain ⟨progress, placed⟩ := progress_of_step middle stepped
    refine ⟨?_, placed⟩
    rcases before with ⟨stays, lower⟩ | consumes
    · cases progress with
      | quiet stays' lower' =>
        exact .inl ⟨stays.trans stays' (State.step_moves stepped).failed, lower'.trans lower⟩
      | takes taken _ => exact .inr (stays.then_consumes (.one taken))
    · cases progress with
      | quiet stays _ => exact .inr (stays.after_consumes consumes)
      | takes taken _ => exact .inr (consumes.trans (.one taken))

theorem placed_of_reaches (placed : s.reader.Placed) (reached : Reaches limit s s') : s'.reader.Placed := by
  rcases Relation.reflTransGen_iff_eq_or_transGen.mp reached with rfl | later
  · exact placed
  · exact (progress_of_later placed later).2

/-- A run cannot come back to a state that costs as much, unless it has taken a token. -/
theorem consumes_of_later (placed : s.reader.Placed) (later : Later limit s s') (costs : s.cost ≤ s'.cost) :
    s.reader.Consumes s'.reader :=
  (progress_of_later placed later).1.resolve_left fun quiet => absurd quiet.2 (Nat.not_lt.mpr costs)

theorem stack_cost_le {stack stack' : List Frame} (inside : stack <:+ stack') :
    (stack.map Frame.cost).sum ≤ (stack'.map Frame.cost).sum := by
  obtain ⟨more, rfl⟩ := inside
  rw [List.map_append, List.sum_append]
  exact Nat.le_add_left ..

def Task.isLevel : Task → Bool
  | sumTail _ | productTail _ => false
  | _ => true

theorem outcome_size_lt {n : Nat} {reply : Reply n} {e : Expr} {rest : Reader}
    (found : reply.outcome = (.ok e, rest)) : rest.size < n := by
  cases reply with
  | tree e' rest' shorter =>
    cases found
    exact shorter
  | failed cause rest' => cases found

theorem Task.size_lt {task : Task} {r rest : Reader} {e : Expr} (level : task.isLevel = true)
    (found : task.outcome limit r = (.ok e, rest)) : rest.size < r.size := by
  cases task with
  | sumTail left | productTail left => cases level
  | sum | product | operand | signed | power | atom => exact outcome_size_lt found

theorem Task.consumes {task : Task} {r rest : Reader} {e : Expr} (placed : r.Placed) (level : task.isLevel = true)
    (found : task.outcome limit r = (.ok e, rest)) : r.Consumes rest := by
  obtain ⟨asked, reached⟩ := task_runs limit task r [] 0
  rw [found] at reached
  rcases Relation.reflTransGen_iff_eq_or_transGen.mp reached with same | later
  · cases congrArg State.phase same
  · refine (progress_of_later (s := ⟨.enter task, r, [], 0⟩) placed later).1.resolve_left ?_
    rintro ⟨stays, -⟩
    have current : rest.current = r.current := stays.current
    have cursor : rest.cursor = r.cursor := stays.cursor rfl
    have size : rest.size = r.size := by simp only [Reader.size, current, cursor]
    exact absurd size (Task.size_lt level found).ne

def State.allowance (s : State) : Nat :=
  13 * s.reader.ahead.length + s.cost

theorem allowance_lt_of_step (placed : s.reader.Placed) (stepped : s.step limit = some s') :
    s'.allowance < s.allowance := by
  unfold State.allowance
  cases (progress_of_step placed stepped).1 with
  | quiet stays lower =>
    rw [stays.ahead]
    omega
  | takes taken cost =>
    rw [taken, List.length_cons]
    omega

theorem steps_le_allowance {run : Nat → State} {k : Nat} (placed : (run 0).reader.Placed)
    (steps : ∀ i < k, (run i).step limit = some (run (i + 1))) :
    k + (run k).allowance ≤ (run 0).allowance ∧ (run k).reader.Placed := by
  induction k with
  | zero => exact ⟨(Nat.zero_add _).le, placed⟩
  | succ k ih =>
    obtain ⟨spent, placed⟩ := ih fun i before => steps i (Nat.lt_succ_of_lt before)
    have stepped := steps k (Nat.lt_succ_self k)
    have lower := allowance_lt_of_step placed stepped
    exact ⟨by omega, (progress_of_step placed stepped).2⟩

def State.due (s : State) : Nat :=
  if s.phase.isFailed then 0 else s.reader.ahead.length + s.pledged

theorem State.due_of_going (going : s.phase.isFailed = false) : s.due = s.reader.ahead.length + s.pledged :=
  if_neg (by rw [going]; exact Bool.false_ne_true)

theorem State.due_le (s : State) : s.due ≤ s.reader.ahead.length + s.pledged := by
  unfold due
  split
  · exact Nat.zero_le _
  · exact le_rfl

theorem State.due_le_of_quiet (move : Move limit s s') (same : s'.reader.ahead = s.reader.ahead) : s'.due ≤ s.due := by
  have fewer := move.pledged
  cases failed : s.phase.isFailed with
  | true =>
    rw [due, if_pos (move.failed failed)]
    exact Nat.zero_le _
  | false =>
    have before := due_of_going failed
    have after := s'.due_le
    rw [same] at after
    omega

theorem asked_le_of_step (placed : s.reader.Placed) (stepped : s.step limit = some s') :
    s'.asked + s'.due ≤ s.asked + s.due := by
  have move := State.step_moves stepped
  have fewer := move.pledged
  cases move.effect with
  | quiet reader asked _ | opens _ reader asked _ | closes reader asked _ =>
    have same : s'.reader.ahead = s.reader.ahead := by simp only [Reader.ahead, reader]
    have less := State.due_le_of_quiet move same
    omega
  | takes more taken asked _ going =>
    have before := State.due_of_going going
    have after := s'.due_le
    have taken := congrArg List.length (ahead_of_advance more taken)
    rw [List.length_cons] at taken
    omega
  | ends last again asked _ going looked =>
    have before := State.due_of_going going
    have after := s'.due_le
    obtain ⟨current, cursor⟩ := placed.eq_of_finish last again
    have same : s'.reader.ahead = s.reader.ahead := by simp only [Reader.ahead, current, cursor]
    rw [same] at after
    omega
  | tears torn asked _ going failed =>
    have before := State.due_of_going going
    have after : s'.due = 0 := if_pos (by rw [failed]; rfl)
    have ahead := List.length_pos_of_ne_nil (placed.ahead_ne_nil_of_torn torn)
    omega

theorem asked_le_of_reaches (placed : s.reader.Placed) (reached : Reaches limit s s') :
    s'.asked + s'.due ≤ s.asked + s.due := by
  induction reached with
  | refl => exact le_rfl
  | tail reached stepped ih => exact (asked_le_of_step (placed_of_reaches placed reached) stepped).trans ih

theorem cost_start_le (policy : Policy) (r : Reader) : (State.start policy r).cost ≤ 13 := by
  cases trailing : policy.allowTrailing <;> simp [State.start, State.cost, trailing]

theorem pledged_start_le (policy : Policy) (r : Reader) : (State.start policy r).pledged ≤ 1 := by
  cases trailing : policy.allowTrailing <;> simp [State.start, State.pledged, Frame.isWhole, trailing]

/-- The states that are reached when an expression is asked for, once or again. -/
def Reachable (policy : Policy) (text : String) (s : State) : Prop :=
  ∃ r, Reader.UsedOn policy text r ∧ Reaches policy.maxDepth (.start policy r) s

theorem Reachable.placed (reachable : Reachable policy text s) : s.reader.Placed := by
  obtain ⟨r, used, reached⟩ := reachable
  exact placed_of_reaches (s := .start policy r) used.placed reached

theorem Reachable.asked_le (reachable : Reachable policy text s) :
    s.asked ≤ (Cursor.ofText text).stream.length + 1 := by
  obtain ⟨r, used, reached⟩ := reachable
  have spent := asked_le_of_reaches (s := .start policy r) used.placed reached
  have due := (State.start policy r).due_le
  have pledged := pledged_start_le policy r
  have ahead : (State.start policy r).reader.ahead.length ≤ _ := used.ahead_length_le
  have asked : (State.start policy r).asked = 0 := rfl
  omega

theorem landed_step (limit : Nat) (answer : Except SyntaxError Expr × Reader) (asked : Nat) :
    (State.landed answer [] asked).step limit = none := by
  obtain ⟨outcome, rest⟩ := answer
  cases outcome with
  | ok e => rfl
  | error cause => rfl

/-- Whatever the limit on the depth is: a level that finds a tree has taken a token. Where a level is entered again
inside itself, and where a loop has made a turn, a token has been taken. So reading comes to an end, with no more steps
than thirteen for every token and thirteen for the end of the text, and asks for one token more than the text has at
most, where a step that asks for one is counted and no other. -/
theorem reading_linear (policy : Policy) (text : String) :
    (∀ s task e rest, Reachable policy text s → s.phase = .enter task → task.isLevel = true →
      task.outcome policy.maxDepth s.reader = (.ok e, rest) → s.reader.Consumes rest) ∧
    (∀ s s' task, Reachable policy text s → Later policy.maxDepth s s' → s.phase = .enter task →
      s'.phase = .enter task → s.stack <:+ s'.stack → s.reader.Consumes s'.reader) ∧
    (∀ s s' left more, Reachable policy text s → Later policy.maxDepth s s' → s'.stack = s.stack →
      (s.phase = .enter (.sumTail left) ∧ s'.phase = .enter (.sumTail more) ∨
        s.phase = .enter (.productTail left) ∧ s'.phase = .enter (.productTail more)) →
      s.reader.Consumes s'.reader) ∧
    (∀ r, Reader.UsedOn policy text r → ∃ asked,
      Reaches policy.maxDepth (.start policy r) (.landed (r.read policy) [] asked) ∧
      (State.landed (r.read policy) [] asked).step policy.maxDepth = none) ∧
    (∀ r k, ∀ run : Nat → State, Reader.UsedOn policy text r → run 0 = .start policy r →
      (∀ i < k, (run i).step policy.maxDepth = some (run (i + 1))) →
      k ≤ 13 * ((Cursor.ofText text).stream.length + 1)) ∧
    (∀ s s', s.step policy.maxDepth = some s' → Asks s s') ∧
    ∀ s, Reachable policy text s → s.asked ≤ (Cursor.ofText text).stream.length + 1 := by
  refine ⟨?_, ?_, ?_, ?_, ?_, ?_, fun s reachable => reachable.asked_le⟩
  · intro s task e rest reachable _ level found
    exact Task.consumes reachable.placed level found
  · intro s s' task reachable later entered again inside
    refine consumes_of_later reachable.placed later ?_
    have frames := stack_cost_le inside
    simp only [State.cost, entered, again]
    omega
  · intro s s' left more reachable later stack loop
    refine consumes_of_later reachable.placed later ?_
    rcases loop with ⟨entered, again⟩ | ⟨entered, again⟩
    · simp [State.cost, entered, again, stack]
    · simp [State.cost, entered, again, stack]
  · intro r used
    obtain ⟨asked, reached⟩ := start_lands policy r
    exact ⟨asked, reached, landed_step ..⟩
  · intro r k run used first steps
    have placed : (run 0).reader.Placed := by
      rw [first]
      exact used.placed
    have spent := (steps_le_allowance placed steps).1
    have ahead : (run 0).reader.ahead.length ≤ (Cursor.ofText text).stream.length := by
      rw [first]
      exact used.ahead_length_le
    have cost : (run 0).cost ≤ 13 := by
      rw [first]
      exact cost_start_le policy r
    unfold State.allowance at spent
    omega
  · intro s s' stepped
    exact (State.step_moves stepped).effect.asks

end Descent

end Reckon
