import Mathlib
import Reckon.Proofs.Reader.Recognition

namespace Reckon.Descent

inductive Task where
  | sum
  | sumTail (left : Expr)
  | product
  | productTail (left : Expr)
  | operand
  | signed
  | power
  | atom

def Task.outcome (limit : Nat) : Task → Reader → Except SyntaxError Expr × Reader
  | sum, r => (r.sum limit).outcome
  | sumTail left, r => (r.sumTail limit left).outcome
  | product, r => (r.product limit).outcome
  | productTail left, r => (r.productTail limit left).outcome
  | operand, r => (r.operand limit).outcome
  | signed, r => (r.signed limit).outcome
  | power, r => (r.power limit).outcome
  | atom, r => (r.atom limit).outcome

/-- What is to be done with the tree of the level that has been left. The last one of a strict reading is to look for
the end of the text. -/
inductive Frame where
  | firstMember
  | member (left : Expr) (op : Kind)
  | firstFactor
  | factor (left : Expr) (op : Kind)
  | close
  | sign (op : Kind)
  | base
  | exponent (base : Expr)
  | bracket
  | whole

inductive Phase where
  | enter (task : Task)
  | found (e : Expr)
  | failed (cause : SyntaxError)

def requests (r : Reader) (kind : Kind) : Nat :=
  if r.current.kind = kind then 1 else 0

/-- A moment of a run. The next token has been asked for `asked` times so far. -/
structure State where
  phase : Phase
  reader : Reader
  stack : List Frame
  asked : Nat

namespace State

def landed (answer : Except SyntaxError Expr × Reader) (stack : List Frame) (asked : Nat) : State :=
  match answer with
  | (.ok e, rest) => ⟨.found e, rest, stack, asked⟩
  | (.error cause, rest) => ⟨.failed cause, rest, stack, asked⟩

def take (s : State) (kind : Kind) (outer : List Frame) (phase : Phase) (stack : List Frame) : State :=
  let asked := s.asked + requests s.reader kind
  match s.reader.expect kind with
  | .ok q => ⟨phase, q, stack, asked⟩
  | .error (cause, rest) => ⟨.failed cause, rest, outer, asked⟩

def begin (limit : Nat) (s : State) : Task → State
  | .sum => { s with phase := .enter .product, stack := .firstMember :: s.stack }
  | .sumTail left =>
    let op := s.reader.current.kind
    if op.isSign then s.take op s.stack (.enter .product) (.member left op :: s.stack)
    else { s with phase := .found left }
  | .product => { s with phase := .enter .operand, stack := .firstFactor :: s.stack }
  | .productTail left =>
    let op := s.reader.current.kind
    if op.isScale then s.take op s.stack (.enter .operand) (.factor left op :: s.stack)
    else { s with phase := .found left }
  | .operand =>
    if limit ≤ s.reader.depth then { s with phase := .failed (.tooDeep limit s.reader.current.pos) }
    else ⟨.enter .signed, { s.reader with depth := s.reader.depth + 1 }, .close :: s.stack, s.asked⟩
  | .signed =>
    let op := s.reader.current.kind
    if op.isSign then s.take op s.stack (.enter .operand) (.sign op :: s.stack)
    else { s with phase := .enter .power }
  | .power => { s with phase := .enter .atom, stack := .base :: s.stack }
  | .atom =>
    if s.reader.current.kind = .opening then s.take .opening s.stack (.enter .sum) (.bracket :: s.stack)
    else match s.reader.current.number? with
      | some value => s.take .integer s.stack (.found (.number value)) s.stack
      | none => s.take .integer s.stack (.failed (.unexpected .integer s.reader.current)) s.stack

def resume (s : State) (e : Expr) (stack : List Frame) : Frame → State
  | .firstMember => { s with phase := .enter (.sumTail e), stack }
  | .member left op => { s with phase := .enter (.sumTail (.binary left op e)), stack }
  | .firstFactor => { s with phase := .enter (.productTail e), stack }
  | .factor left op => { s with phase := .enter (.productTail (.binary left op e)), stack }
  | .close => { s with reader := { s.reader with depth := s.reader.depth - 1 }, stack }
  | .sign op => { s with phase := .found (.unary op e), stack }
  | .base =>
    if s.reader.current.kind = .power then s.take .power stack (.enter .operand) (.exponent e :: stack)
    else { s with stack }
  | .exponent base => { s with phase := .found (.binary base .power e), stack }
  | .bracket => s.take .closing stack (.found e) stack
  | .whole => s.take .finish stack (.found e) stack

def unwind (s : State) (stack : List Frame) : Frame → State
  | .close => { s with reader := { s.reader with depth := s.reader.depth - 1 }, stack }
  | _ => { s with stack }

def step (limit : Nat) (s : State) : Option State :=
  match s.phase, s.stack with
  | .enter task, _ => some (s.begin limit task)
  | .found e, frame :: stack => some (s.resume e stack frame)
  | .failed _, frame :: stack => some (s.unwind stack frame)
  | .found _, [] | .failed _, [] => none

def start (policy : Policy) (r : Reader) : State :=
  ⟨.enter .sum, r, if policy.allowTrailing then [] else [.whole], 0⟩

end State

def Reaches (limit : Nat) : State → State → Prop :=
  Relation.ReflTransGen fun s s' => s.step limit = some s'

def Lands (limit : Nat) (s : State) (answer : Except SyntaxError Expr × Reader) (stack : List Frame) : Prop :=
  ∃ asked, Reaches limit s (.landed answer stack asked)

namespace Lands

variable {limit : Nat} {s s' : State} {answer : Except SyntaxError Expr × Reader} {stack : List Frame}

theorem of_step (stepped : s.step limit = some s') (lands : Lands limit s' answer stack) :
    Lands limit s answer stack := by
  obtain ⟨asked, reaches⟩ := lands
  exact ⟨asked, reaches.head stepped⟩

theorem of_reaches (reached : Reaches limit s s') (lands : Lands limit s' answer stack) :
    Lands limit s answer stack := by
  obtain ⟨asked, reaches⟩ := lands
  exact ⟨asked, reached.trans reaches⟩

theorem andThen {m n : Nat} {reply : Reply m} {more : (e : Expr) → (rest : Reader) → rest.size < m → Reply n}
    {frame : Frame} (inner : Lands limit s reply.outcome (frame :: stack)) (kept : frame ≠ .close)
    (further : ∀ e rest shorter asked,
      Lands limit (State.resume ⟨.found e, rest, frame :: stack, asked⟩ e stack frame) (more e rest shorter).outcome
        stack) :
    Lands limit s (reply.andThen more).outcome stack := by
  obtain ⟨asked, reached⟩ := inner
  cases reply with
  | tree e rest shorter => exact of_reaches (reached.tail rfl) (further e rest shorter asked)
  | failed cause rest =>
    have passed : State.step limit ⟨.failed cause, rest, frame :: stack, asked⟩ =
        some ⟨.failed cause, rest, stack, asked⟩ := by
      cases frame with
      | close => exact absurd rfl kept
      | firstMember | member | firstFactor | factor | sign | base | exponent | bracket | whole => rfl
    exact ⟨asked, reached.tail passed⟩

theorem close {n : Nat} {reply : Reply n} (inner : Lands limit s reply.outcome (.close :: stack)) :
    Lands limit s reply.close.outcome stack := by
  obtain ⟨asked, reached⟩ := inner
  cases reply with
  | tree e rest shorter => exact ⟨asked, reached.tail rfl⟩
  | failed cause rest => exact ⟨asked, reached.tail rfl⟩

theorem taking {n : Nat} {kind : Kind} (real : kind ≠ .finish)
    {more : (rest : Reader) → rest.size < s.reader.size → Reply n} {phase : Phase} {frames : List Frame}
    (further : ∀ q shorter asked, Lands limit ⟨phase, q, frames, asked⟩ (more q shorter).outcome stack) :
    Lands limit (s.take kind stack phase frames) (s.reader.taking kind real more).outcome stack := by
  unfold Reader.taking
  split
  · rename_i cause rest fault
    simp only [State.take, fault]
    exact ⟨_, .refl⟩
  · rename_i q passed
    simp only [State.take, passed]
    exact further q _ _

end Lands

def Runs (limit : Nat) (task : Task) (r : Reader) : Prop :=
  ∀ stack asked, Lands limit ⟨.enter task, r, stack, asked⟩ (task.outcome limit r) stack

section Levels

variable {limit : Nat} {left : Expr} {r : Reader}

theorem runs_sum (first : Runs limit .product r)
    (further : ∀ left rest, rest.size < r.size → Runs limit (.sumTail left) rest) : Runs limit .sum r := by
  intro stack asked
  rw [Task.outcome, Reader.sum]
  refine .of_step rfl (.andThen (first (.firstMember :: stack) asked) (by simp) ?_)
  intro e rest shorter asked
  rw [Reply.weaken_outcome]
  exact further e rest shorter stack asked

theorem runs_sumTail (sign : r.current.kind.isSign = true)
    (next : ∀ q : Reader, q.size < r.size → Runs limit .product q)
    (further : ∀ q : Reader, q.size < r.size → ∀ right rest, rest.size < q.size →
      Runs limit (.sumTail (.binary left r.current.kind right)) rest) : Runs limit (.sumTail left) r := by
  intro stack asked
  rw [Task.outcome, Reader.sumTail, dif_pos sign]
  refine .of_step (congrArg some (if_pos sign)) (.taking _ ?_)
  intro q smaller asked
  refine .andThen (next q smaller (.member left r.current.kind :: stack) asked) (by simp) ?_
  intro right rest shorter asked
  rw [Reply.weaken_outcome]
  exact further q smaller right rest shorter stack asked

theorem runs_sumTail_end (other : ¬ r.current.kind.isSign = true) : Runs limit (.sumTail left) r := by
  intro stack asked
  rw [Task.outcome, Reader.sumTail, dif_neg other]
  exact .of_step (congrArg some (if_neg other)) ⟨asked, .refl⟩

theorem runs_product (first : Runs limit .operand r)
    (further : ∀ left rest, rest.size < r.size → Runs limit (.productTail left) rest) : Runs limit .product r := by
  intro stack asked
  rw [Task.outcome, Reader.product]
  refine .of_step rfl (.andThen (first (.firstFactor :: stack) asked) (by simp) ?_)
  intro e rest shorter asked
  rw [Reply.weaken_outcome]
  exact further e rest shorter stack asked

theorem runs_productTail (scale : r.current.kind.isScale = true)
    (next : ∀ q : Reader, q.size < r.size → Runs limit .operand q)
    (further : ∀ q : Reader, q.size < r.size → ∀ right rest, rest.size < q.size →
      Runs limit (.productTail (.binary left r.current.kind right)) rest) : Runs limit (.productTail left) r := by
  intro stack asked
  rw [Task.outcome, Reader.productTail, dif_pos scale]
  refine .of_step (congrArg some (if_pos scale)) (.taking _ ?_)
  intro q smaller asked
  refine .andThen (next q smaller (.factor left r.current.kind :: stack) asked) (by simp) ?_
  intro right rest shorter asked
  rw [Reply.weaken_outcome]
  exact further q smaller right rest shorter stack asked

theorem runs_productTail_end (other : ¬ r.current.kind.isScale = true) : Runs limit (.productTail left) r := by
  intro stack asked
  rw [Task.outcome, Reader.productTail, dif_neg other]
  exact .of_step (congrArg some (if_neg other)) ⟨asked, .refl⟩

theorem runs_operand_tooDeep (full : limit ≤ r.depth) : Runs limit .operand r := by
  intro stack asked
  rw [Task.outcome, Reader.operand_of_full full]
  exact .of_step (congrArg some (if_pos full)) ⟨asked, .refl⟩

theorem runs_operand (fits : ¬ limit ≤ r.depth) (inner : Runs limit .signed { r with depth := r.depth + 1 }) :
    Runs limit .operand r := by
  intro stack asked
  rw [Task.outcome, Reader.operand_of_fits fits]
  exact .of_step (congrArg some (if_neg fits)) (.close (inner (.close :: stack) asked))

theorem runs_signed (sign : r.current.kind.isSign = true)
    (next : ∀ q : Reader, q.size < r.size → Runs limit .operand q) : Runs limit .signed r := by
  intro stack asked
  rw [Task.outcome, Reader.signed, dif_pos sign]
  refine .of_step (congrArg some (if_pos sign)) (.taking _ ?_)
  intro q smaller asked
  refine .andThen (next q smaller (.sign r.current.kind :: stack) asked) (by simp) ?_
  intro e rest shorter asked
  exact ⟨asked, .refl⟩

theorem runs_signed_unsigned (other : ¬ r.current.kind.isSign = true) (inner : Runs limit .power r) :
    Runs limit .signed r := by
  intro stack asked
  rw [Task.outcome, Reader.signed, dif_neg other]
  exact .of_step (congrArg some (if_neg other)) (inner stack asked)

theorem runs_power (first : Runs limit .atom r)
    (next : ∀ rest : Reader, rest.size < r.size → ∀ q : Reader, q.size < rest.size → Runs limit .operand q) :
    Runs limit .power r := by
  intro stack asked
  rw [Task.outcome, Reader.power]
  refine .of_step rfl (.andThen (first (.base :: stack) asked) (by simp) ?_)
  intro base rest shorter asked
  rw [State.resume]
  split
  · refine .taking _ ?_
    intro q smaller asked
    refine .andThen (next rest shorter q smaller (.exponent base :: stack) asked) (by simp) ?_
    intro exponent after shorter asked
    exact ⟨asked, .refl⟩
  · exact ⟨asked, .refl⟩

theorem runs_atom_bracket (opening : r.current.kind = .opening)
    (inner : ∀ q : Reader, q.size < r.size → Runs limit .sum q) : Runs limit .atom r := by
  intro stack asked
  rw [Task.outcome, Reader.atom, if_pos opening]
  refine .of_step (congrArg some (if_pos opening)) (.taking _ ?_)
  intro q smaller asked
  refine .andThen (inner q smaller (.bracket :: stack) asked) (by simp) ?_
  intro e rest shorter asked
  refine .taking _ ?_
  intro after shorter asked
  exact ⟨asked, .refl⟩

theorem runs_atom_integer (other : ¬ r.current.kind = .opening) : Runs limit .atom r := by
  intro stack asked
  rw [Task.outcome, Reader.atom, if_neg other]
  refine .of_step (congrArg some (if_neg other)) ?_
  cases r.current.number? with
  | some value =>
    refine .taking _ ?_
    intro q shorter asked
    exact ⟨asked, .refl⟩
  | none =>
    refine .taking _ ?_
    intro q shorter asked
    exact ⟨asked, .refl⟩

theorem descent_runs (limit : Nat) :
    (∀ r, Runs limit .sum r) ∧ (∀ left r, Runs limit (.sumTail left) r) ∧ (∀ r, Runs limit .product r) ∧
    (∀ left r, Runs limit (.productTail left) r) ∧ (∀ r, Runs limit .operand r) ∧ (∀ r, Runs limit .signed r) ∧
    (∀ r, Runs limit .power r) ∧ ∀ r, Runs limit .atom r := by
  apply Reader.sum.mutual_induct limit
  case case1 => exact fun r => runs_sum
  case case2 => exact fun left r => runs_sumTail
  case case3 => exact fun left r => runs_sumTail_end
  case case4 => exact fun r => runs_product
  case case5 => exact fun left r => runs_productTail
  case case6 => exact fun left r => runs_productTail_end
  case case7 => exact fun r => runs_operand_tooDeep
  case case8 => exact fun r => runs_operand
  case case9 => exact fun r => runs_signed
  case case10 => exact fun r => runs_signed_unsigned
  case case11 => exact fun r => runs_power
  case case12 => exact fun r => runs_atom_bracket
  case case13 => exact fun r => runs_atom_integer

end Levels

theorem task_runs (limit : Nat) (task : Task) (r : Reader) : Runs limit task r := by
  obtain ⟨sum, sumTail, product, productTail, operand, signed, power, atom⟩ := descent_runs limit
  cases task with
  | sum => exact sum r
  | sumTail left => exact sumTail left r
  | product => exact product r
  | productTail left => exact productTail left r
  | operand => exact operand r
  | signed => exact signed r
  | power => exact power r
  | atom => exact atom r

/-- The run of a reading comes to an end, with the answer and the reader of the reading. -/
theorem start_lands (policy : Policy) (r : Reader) : Lands policy.maxDepth (.start policy r) (r.read policy) [] := by
  have left : Lands policy.maxDepth (.start policy r) (r.sum policy.maxDepth).outcome
      (if policy.allowTrailing then [] else [.whole]) := task_runs policy.maxDepth .sum r _ 0
  unfold Reader.read
  cases trailing : policy.allowTrailing with
  | true =>
    rw [trailing, if_pos rfl] at left
    cases reply : r.sum policy.maxDepth with
    | tree e rest shorter | failed cause rest =>
      rw [reply] at left
      exact left
  | false =>
    rw [trailing, if_neg Bool.false_ne_true] at left
    cases reply : r.sum policy.maxDepth with
    | failed cause rest =>
      rw [reply] at left
      obtain ⟨asked, reached⟩ := left
      exact ⟨asked, reached.tail rfl⟩
    | tree e rest shorter =>
      rw [reply] at left
      obtain ⟨asked, reached⟩ := left
      -- the token behind the expression is the last one to be asked for
      refine .of_reaches (reached.tail rfl) ?_
      simp only [State.landed, Reply.outcome, State.resume, State.take]
      cases passed : rest.expect .finish with
      | error fault => exact ⟨_, .refl⟩
      | ok after => exact ⟨_, .refl⟩

end Reckon.Descent
