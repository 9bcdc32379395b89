import SymbolicAlgebra.Substitution

/-!
# Calls left over by an operator

An operator that finds no rule for a part of its argument leaves a call of itself there, and must not
be handed that call again when its result is evaluated. `WithLeftovers` computations collect such
calls.
-/

namespace SymbolicAlgebra

/-- Fallible computations that record the calls they leave over. -/
abbrev WithLeftovers := StateT (List Expr) (Except AlgebraError)

/-- Leaves a call over. -/
def leaveOver (call : Expr) : WithLeftovers Expr := do
  modify (call :: ·)
  return call

end SymbolicAlgebra
