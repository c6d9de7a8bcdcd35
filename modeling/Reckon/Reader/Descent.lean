import Reckon.Expr.Basic
import Reckon.Policy
import Reckon.Reader.Basic

namespace Reckon

namespace Kind

def isSign : Kind → Bool
  | plus | minus => true
  | _ => false

def isScale : Kind → Bool
  | times | divide => true
  | _ => false

theorem ne_finish_of_isSign {kind : Kind} (sign : kind.isSign = true) : kind ≠ .finish := by
  rintro rfl
  cases sign

theorem ne_finish_of_isScale {kind : Kind} (scale : kind.isScale = true) : kind ≠ .finish := by
  rintro rfl
  cases scale

end Kind

/-- The outcome of a level of the descent, with the reader where it stands afterwards. A tree
leaves a reader of a size below the bound. -/
inductive Reply (bound : Nat) where
  | tree (e : Expr) (rest : Reader) (shorter : rest.size < bound)
  | failed (e : SyntaxError) (rest : Reader)

namespace Reply

def weaken {m n : Nat} (le : m ≤ n) : Reply m → Reply n
  | tree e rest shorter => tree e rest (Nat.lt_of_lt_of_le shorter le)
  | failed e rest => failed e rest

def andThen {m n : Nat} (reply : Reply m)
    (more : (e : Expr) → (rest : Reader) → rest.size < m → Reply n) : Reply n :=
  match reply with
  | tree e rest shorter => more e rest shorter
  | failed e rest => failed e rest

def close {n : Nat} : Reply n → Reply n
  | tree e rest shorter => tree e { rest with depth := rest.depth - 1 } shorter
  | failed e rest => failed e { rest with depth := rest.depth - 1 }

end Reply

namespace Reader

def taking {n : Nat} (kind : Kind) (real : kind ≠ .finish) (r : Reader)
    (more : (rest : Reader) → rest.size < r.size → Reply n) : Reply n :=
  match taken : r.expect kind with
  | .error (e, rest) => .failed e rest
  | .ok rest => more rest (expect_size_lt taken real)

mutual

/-- The levels of the descent are those of the grammar

    sum     : product ((PLUS | MINUS) product)*
    product : operand ((MUL | DIV) operand)*
    operand : (PLUS | MINUS) operand | power
    power   : atom (POW operand)?
    atom    : INTEGER | LPAREN sum RPAREN

and each that finds a tree has made the reader smaller, which is why the descent ends. -/
def sum (limit : Nat) (r : Reader) : Reply r.size :=
  (product limit r).andThen fun left rest shorter => (sumTail limit left rest).weaken shorter
termination_by (r.size, 5)

def sumTail (limit : Nat) (left : Expr) (r : Reader) : Reply (r.size + 1) :=
  if sign : r.current.kind.isSign then
    r.taking r.current.kind (Kind.ne_finish_of_isSign sign) fun q _ =>
      (product limit q).andThen fun right rest _ =>
        (sumTail limit (.binary left r.current.kind right) rest).weaken (by omega)
  else .tree left r (Nat.lt_succ_self _)
termination_by (r.size, 0)

def product (limit : Nat) (r : Reader) : Reply r.size :=
  (operand limit r).andThen fun left rest shorter => (productTail limit left rest).weaken shorter
termination_by (r.size, 4)

def productTail (limit : Nat) (left : Expr) (r : Reader) : Reply (r.size + 1) :=
  if scale : r.current.kind.isScale then
    r.taking r.current.kind (Kind.ne_finish_of_isScale scale) fun q _ =>
      (operand limit q).andThen fun right rest _ =>
        (productTail limit (.binary left r.current.kind right) rest).weaken (by omega)
  else .tree left r (Nat.lt_succ_self _)
termination_by (r.size, 0)

/-- An operand counts as open until it has been read to its end. -/
def operand (limit : Nat) (r : Reader) : Reply r.size :=
  if limit ≤ r.depth then .failed (.tooDeep limit r.current.pos) r
  else (signed limit { r with depth := r.depth + 1 }).close
termination_by (r.size, 3)

def signed (limit : Nat) (r : Reader) : Reply r.size :=
  if sign : r.current.kind.isSign then
    r.taking r.current.kind (Kind.ne_finish_of_isSign sign) fun q _ =>
      (operand limit q).andThen fun e rest _ =>
        .tree (.unary r.current.kind e) rest (by omega)
  else power limit r
termination_by (r.size, 2)

def power (limit : Nat) (r : Reader) : Reply r.size :=
  (atom limit r).andThen fun base rest shorter =>
    if rest.current.kind = .power then
      rest.taking .power (by decide) fun q _ =>
        (operand limit q).andThen fun exponent after _ =>
          .tree (.binary base .power exponent) after (by omega)
    else .tree base rest shorter
termination_by (r.size, 1)

def atom (limit : Nat) (r : Reader) : Reply r.size :=
  if r.current.kind = .opening then
    r.taking .opening (by decide) fun q _ =>
      (sum limit q).andThen fun e rest _ =>
        rest.taking .closing (by decide) fun after _ => .tree e after (by omega)
  else
    r.taking .integer (by decide) fun rest shorter =>
      match r.current.number? with
      | some value => .tree (.number value) rest shorter
      | none => .failed (.unexpected .integer r.current) rest
termination_by (r.size, 0)

end

/-- Reads one expression, which fills the rest of the text unless trailing text is allowed. Reading
can go on with the reader that is left, also after an error. -/
def read (policy : Policy) (r : Reader) : Except SyntaxError Expr × Reader :=
  match sum policy.maxDepth r with
  | .failed e rest => (.error e, rest)
  | .tree e rest _ =>
    if policy.allowTrailing then (.ok e, rest)
    else match rest.expect .finish with
      | .error (fault, stop) => (.error fault, stop)
      | .ok after => (.ok e, after)

end Reader

end Reckon
