import SymbolicAlgebra.Factorization

/-!
# Linear operators

The reductions that every linear operator `V` admits: `V(f + g) = V(f) + V(g)`, `V(c*f) = c*V(f)` and
`V((c*f)^n) = c^n * V(f^n)` for expressions `c` that are constant for it. What they do not reduce is
left to the operator's own leaf rule.
-/

namespace SymbolicAlgebra.LinearOperator

variable {m : Type → Type} [Monad m]

/-- Visits the terms of a sum in order. -/
def visitTerms (visit : Expr → m Expr) : List Expr → m (List Expr)
  | [] => return []
  | t :: ts => do
    let first ← visit t
    return first :: (← visitTerms visit ts)

/-- One reduction by linearity. -/
def reduce (ctx : Context) (isConstant : Expr → Bool) (visit leaf : Expr → m Expr) (e : Expr) :
    m Expr := do
  match e with
  | .sum ts => return .sumOf (← visitTerms visit ts)
  | .product fs =>
    let (constants, rest) := fs.partition isConstant
    if constants.isEmpty then leaf e
    else return .productOf (constants ++ [← visit (.productOf rest)])
  | .binary .power base n =>
    if isConstant n then
      let (constants, rest) := (base.factor none ctx).factors.partition isConstant
      if constants.isEmpty then leaf e
      else
        let inner ← visit (.power (.productOf rest) n)
        return .productOf [.power (.productOf constants) n, inner]
    else leaf e
  | e => leaf e

/-- Reductions down to a depth, with a leaf rule that does not reduce further. -/
def reduceTo (ctx : Context) (isConstant : Expr → Bool) (leaf : Expr → Result Expr) :
    Nat → Expr → Result Expr
  | 0, e => .error (.tooDeep e)
  | depth + 1, e => reduce ctx isConstant (reduceTo ctx isConstant leaf depth) leaf e

/-- The depth set aside for an expression: reductions only take operands away, except that factoring
a base may rearrange it. -/
def depthFor (e : Expr) : Nat := 4 * e.size + 1000

end SymbolicAlgebra.LinearOperator

namespace SymbolicAlgebra.Expr

/-- Reduces the linear operator `W` in `x` as far as linearity goes; it remains as the undefined
function `W` at the leaves. -/
def linearForm (f x : Expr) (ctx : Context) : Result Expr :=
  LinearOperator.reduceTo ctx (fun e => !e.dependsOn x) (fun e => .ok (undefinedCall "W" [e]))
    (LinearOperator.depthFor f) f

end SymbolicAlgebra.Expr
