import Reckon.Proofs.Reader.Steps

namespace Reckon.Descent

def Frame.isClose : Frame → Bool
  | close => true
  | _ => false

def Frame.isWhole : Frame → Bool
  | whole => true
  | _ => false

@[simp] def Phase.isFailed : Phase → Bool
  | failed _ => true
  | _ => false

@[simp] def Task.cost : Task → Nat
  | sum => 12
  | product => 9
  | operand => 6
  | signed => 4
  | power => 3
  | sumTail _ | productTail _ | atom => 1

@[simp] def Phase.cost : Phase → Nat
  | enter task => task.cost
  | found _ | failed _ => 0

@[simp] def Frame.cost : Frame → Nat
  | firstMember | member .. | firstFactor | factor .. => 2
  | close | sign _ | base | exponent _ | bracket | whole => 1

namespace State

def opened (s : State) : Nat :=
  s.stack.countP Frame.isClose

def pledged (s : State) : Nat :=
  s.stack.countP Frame.isWhole

/-- How many steps can still be made before a token has to be taken. -/
def cost (s : State) : Nat :=
  s.phase.cost + (s.stack.map Frame.cost).sum

end State

/-- What a step does to the reader, and how often it asks for a token. -/
inductive Effect (limit : Nat) (s s' : State) : Prop where
  | quiet (reader : s'.reader = s.reader) (asked : s'.asked = s.asked) (opened : s'.opened = s.opened)
  | opens (fits : s.reader.depth < limit) (reader : s'.reader = { s.reader with depth := s.reader.depth + 1 })
      (asked : s'.asked = s.asked) (opened : s'.opened = s.opened + 1)
  | closes (reader : s'.reader = { s.reader with depth := s.reader.depth - 1 }) (asked : s'.asked = s.asked)
      (opened : s.opened = s'.opened + 1)
  | takes (more : s.reader.current.kind ≠ .finish) (taken : s.reader.advance = .ok s'.reader)
      (asked : s'.asked = s.asked + 1) (opened : s'.opened = s.opened) (going : s.phase.isFailed = false)
  | ends (last : s.reader.current.kind = .finish) (again : s.reader.advance = .ok s'.reader)
      (asked : s'.asked = s.asked + 1) (opened : s'.opened = s.opened) (going : s.phase.isFailed = false)
      (pledged : s.pledged = s'.pledged + 1)
  | tears {cause : SyntaxError} (torn : s.reader.advance = .error (cause, s'.reader))
      (asked : s'.asked = s.asked + 1) (opened : s'.opened = s.opened) (going : s.phase.isFailed = false)
      (failed : s'.phase = .failed cause)

structure Move (limit : Nat) (s s' : State) : Prop where
  effect : Effect limit s s'
  pays : s'.cost < s.cost ∨
    s.reader.current.kind ≠ .finish ∧ s.reader.advance = .ok s'.reader ∧ s'.cost < s.cost + 13
  pledged : s'.pledged ≤ s.pledged
  failed : s.phase.isFailed = true → s'.phase.isFailed = true

namespace State

variable {limit : Nat} {s s' : State}

theorem take_moves {kind : Kind} {outer stack : List Frame} {phase : Phase} (going : s.phase.isFailed = false)
    (opened : outer.countP Frame.isClose = s.opened ∧ stack.countP Frame.isClose = s.opened)
    (pledged : outer.countP Frame.isWhole ≤ s.pledged ∧ stack.countP Frame.isWhole ≤ s.pledged)
    (paid : (outer.map Frame.cost).sum < s.cost ∧ phase.cost + (stack.map Frame.cost).sum < s.cost + 13)
    (last : kind = .finish → s.pledged = stack.countP Frame.isWhole + 1 ∧
      phase.cost + (stack.map Frame.cost).sum < s.cost) : Move limit s (s.take kind outer phase stack) := by
  have failing (other : s.phase.isFailed = true) : False := by
    rw [going] at other
    cases other
  have stopped (cause : SyntaxError) (r : Reader) (asked : Nat) :
      (State.mk (.failed cause) r outer asked).cost < s.cost := by
    simpa [cost] using paid.1
  unfold take requests
  by_cases same : s.reader.current.kind = kind
  · cases ahead : s.reader.advance with
    | ok q =>
      simp only [Reader.expect, if_pos same, ahead]
      by_cases finish : kind = .finish
      · obtain ⟨looked, lower⟩ := last finish
        exact ⟨.ends (same.trans finish) ahead rfl opened.2 going looked, .inl lower, pledged.2,
          fun other => (failing other).elim⟩
      · have more : s.reader.current.kind ≠ .finish := by rwa [same]
        exact ⟨.takes more ahead rfl opened.2 going, .inr ⟨more, ahead, paid.2⟩, pledged.2,
          fun other => (failing other).elim⟩
    | error fault =>
      simp only [Reader.expect, if_pos same, ahead]
      exact ⟨.tears ahead rfl opened.1 going rfl, .inl (stopped ..), pledged.1, fun _ => rfl⟩
  · simp only [Reader.expect, if_neg same]
    exact ⟨.quiet rfl rfl opened.1, .inl (stopped ..), pledged.1, fun _ => rfl⟩

theorem begin_moves {task : Task} (entered : s.phase = .enter task) : Move limit s (s.begin limit task) := by
  obtain ⟨phase, r, stack, asked⟩ := s
  cases entered
  cases task with
  | sum | product | power => exact ⟨.quiet rfl rfl rfl, .inl (by simp +arith [begin, cost]), le_rfl, by simp⟩
  | sumTail left | productTail left =>
    simp only [begin]
    split
    · rename_i op
      refine take_moves rfl ⟨rfl, rfl⟩ ⟨le_rfl, le_rfl⟩ (by simp +arith [cost]) ?_
      intro finish
      rw [finish] at op
      cases op
    · exact ⟨.quiet rfl rfl rfl, .inl (by simp [cost]), le_rfl, by simp⟩
  | operand =>
    simp only [begin]
    split
    · exact ⟨.quiet rfl rfl rfl, .inl (by simp [cost]), le_rfl, fun _ => rfl⟩
    · rename_i fits
      exact ⟨.opens (Nat.lt_of_not_le fits) rfl rfl (List.countP_cons_of_pos rfl), .inl (by simp +arith [cost]), le_rfl,
        by simp⟩
  | signed =>
    simp only [begin]
    split
    · rename_i op
      refine take_moves rfl ⟨rfl, rfl⟩ ⟨le_rfl, le_rfl⟩ (by simp +arith [cost]) ?_
      intro finish
      rw [finish] at op
      cases op
    · exact ⟨.quiet rfl rfl rfl, .inl (by simp [cost]), le_rfl, by simp⟩
  | atom =>
    simp only [begin]
    split
    · exact take_moves rfl ⟨rfl, rfl⟩ ⟨le_rfl, le_rfl⟩ (by simp +arith [cost]) (by simp)
    · split
      · exact take_moves rfl ⟨rfl, rfl⟩ ⟨le_rfl, le_rfl⟩ (by simp +arith [cost]) (by simp)
      · exact take_moves rfl ⟨rfl, rfl⟩ ⟨le_rfl, le_rfl⟩ (by simp +arith [cost]) (by simp)

theorem resume_moves {e : Expr} {frame : Frame} {stack : List Frame} (found : s.phase = .found e)
    (top : s.stack = frame :: stack) : Move limit s (s.resume e stack frame) := by
  obtain ⟨phase, r, frames, asked⟩ := s
  cases found
  cases top
  cases frame with
  | firstMember | member | firstFactor | factor | sign | exponent =>
    exact ⟨.quiet rfl rfl rfl, .inl (by simp +arith [resume, cost]), le_rfl, by simp⟩
  | close =>
    exact ⟨.closes rfl rfl (List.countP_cons_of_pos rfl), .inl (by simp [resume, cost]), le_rfl, by simp⟩
  | base =>
    simp only [resume]
    split
    · exact take_moves rfl ⟨rfl, rfl⟩ ⟨le_rfl, le_rfl⟩ (by simp +arith [cost]) (by simp)
    · exact ⟨.quiet rfl rfl rfl, .inl (by simp [cost]), le_rfl, by simp⟩
  | bracket => exact take_moves rfl ⟨rfl, rfl⟩ ⟨le_rfl, le_rfl⟩ (by simp +arith [cost]) (by simp)
  | whole =>
    have fewer := (List.sublist_cons_self Frame.whole stack).countP_le (p := Frame.isWhole)
    refine take_moves rfl ⟨rfl, rfl⟩ ⟨fewer, fewer⟩ (by simp +arith [cost]) ?_
    exact fun _ => ⟨List.countP_cons_of_pos rfl, by simp [cost]⟩

theorem unwind_moves {cause : SyntaxError} {frame : Frame} {stack : List Frame} (failed : s.phase = .failed cause)
    (top : s.stack = frame :: stack) : Move limit s (s.unwind stack frame) := by
  obtain ⟨phase, r, frames, asked⟩ := s
  cases failed
  cases top
  cases frame with
  | firstMember | member | firstFactor | factor | sign | base | exponent | bracket =>
    exact ⟨.quiet rfl rfl rfl, .inl (by simp [unwind, cost]), le_rfl, fun _ => rfl⟩
  | whole =>
    exact ⟨.quiet rfl rfl rfl, .inl (by simp [unwind, cost]), (List.sublist_cons_self ..).countP_le, fun _ => rfl⟩
  | close =>
    exact ⟨.closes rfl rfl (List.countP_cons_of_pos rfl), .inl (by simp [unwind, cost]), le_rfl, fun _ => rfl⟩

theorem step_moves (stepped : s.step limit = some s') : Move limit s s' := by
  unfold step at stepped
  split at stepped
  · rename_i entered
    cases stepped
    exact begin_moves entered
  · rename_i found top
    cases stepped
    exact resume_moves found top
  · rename_i failed top
    cases stepped
    exact unwind_moves failed top
  · cases stepped
  · cases stepped

end State

end Reckon.Descent
