import SymbolicAlgebra.Numeric.Code
import SymbolicAlgebra.Numeric.LegendreExpansion

/-!
# Gauss-Legendre quadrature

The integral of a compiled function by the rule whose nodes are the zeros of a Legendre polynomial,
which is exact for polynomials of less than twice its degree.
-/

namespace SymbolicAlgebra.Numeric

/-- The point of the interval from `lower` to `upper` that stands for a node between `-1` and `1`. -/
def intervalPoint (lower upper node : Float) : Float :=
  0.5 * ((upper - lower) * node + (upper + lower))

/-- The integral of `f` from `lower` to `upper` by the rule of a degree of at least two. -/
def quadrature (f x : Expr) (lower upper : Float) (degree : Nat) : Result Float := do
  let compiled ← compile f [x] [.standard]
  if degree < 2 then refuse (.quadratureDegree degree)
  else
    let values ← (Legendre.nodes degree).mapM fun node =>
      match compiled.run? #[intervalPoint lower upper node.position] with
      | some v => .ok (v * node.weight)
      | none => .error .outOfShape
    return 0.5 * (upper - lower) * sum values

end SymbolicAlgebra.Numeric
