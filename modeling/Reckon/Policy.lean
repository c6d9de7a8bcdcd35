namespace Reckon

/-- Trailing text is anything behind a complete expression. The greatest depth bounds the operands that are open at
once, where a sign, a bracket and the operator of a power open one inside another. -/
structure Policy where
  allowTrailing : Bool
  maxDepth : Nat
deriving DecidableEq, Repr

namespace Policy

def defaultMaxDepth : Nat := 256

def strict : Policy :=
  ⟨false, defaultMaxDepth⟩

def lenient : Policy :=
  { strict with allowTrailing := true }

end Policy

end Reckon
