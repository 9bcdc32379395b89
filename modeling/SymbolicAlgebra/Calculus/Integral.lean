import SymbolicAlgebra.Calculus.Leftover
import SymbolicAlgebra.Calculus.LinearOperator
import SymbolicAlgebra.Reduction.RuleSet

/-!
# Integration

Integration is linear, and what linearity leaves is looked up in a small table: powers, `1/x`, `Exp`,
`Sin` and `Cos` of multiples of the variable, and derivatives. Anything else stays as a call of `I`.
-/

namespace SymbolicAlgebra

namespace Integral

/-- The table, as rules on `I[f, x]`. -/
def rules (ctx : Context) : Result RuleSet := do
  let x := Expr.symbol "x"
  let n := Expr.symbol "N"
  let a := Expr.symbol "a"
  let u := Expr.symbol "u"
  let integral (e : Expr) : Result Expr := ctx.call "I" [e, x]
  let f (name : String) (arg : Expr) : Result Expr := ctx.call name [arg]
  let independent := Expr.not (← ctx.call "IsFunctionOf" [a, x])
  let ax := a * x
  let powers : Rule := ⟨← integral (.power x n), .power x (n + 1) / (n + 1),
    [← f "IsConstant" n, .binary .notEqual n (-1)]⟩
  let reciprocal := Rule.plain (← integral (x.pow (-1))) (← f "Ln" x)
  let exponential : Rule := ⟨← integral (← f "Exp" ax), (← f "Exp" ax) / a, [independent]⟩
  let sine : Rule := ⟨← integral (← f "Sin" ax), -(← f "Cos" ax) / a, [independent]⟩
  let cosine : Rule := ⟨← integral (← f "Cos" ax), (← f "Sin" ax) / a, [independent]⟩
  let derivative := Rule.plain (← integral (← ctx.call "D" [u, x])) u
  return RuleSet.ofRules [powers, reciprocal, exponential, sine, cosine, derivative] ctx

/-- What an integration does not change. -/
structure Settings where
  context : Context
  /-- The variable. -/
  x : Expr
  rules : Thunk (Result RuleSet)

def Settings.isConstant (s : Settings) (e : Expr) : Bool := !e.dependsOn s.x

/-- The integral from the table, or the call of `I`. -/
def byRule (s : Settings) (e : Expr) : WithLeftovers Expr := do
  let call ← s.context.call "I" [e, s.x]
  let rules ← s.rules.get
  match rules.reduct? call s.context with
  | some result => return result
  | none => leaveOver call

/-- Integration down to a depth. -/
def visitTo (s : Settings) : Nat → Expr → WithLeftovers Expr
  | 0, e => throw (.tooDeep e)
  | depth + 1, e =>
    if s.isConstant e then return .productOf [e, s.x]
    else LinearOperator.reduce s.context s.isConstant (visitTo s depth) (byRule s) e

end Integral

/-- An antiderivative of `f` in `x`; parts without one in the table stay as calls of `I`. -/
def integrate (f x : Expr) (ctx : Context) : Result Expr := do
  let settings : Integral.Settings := ⟨ctx, x, .mk fun _ => Integral.rules ctx⟩
  let (result, leftovers) ← (Integral.visitTo settings (LinearOperator.depthFor f) f).run []
  return result.evaluateHolding leftovers ctx

mutual

/-- Whether a call of `I` occurs in an expression. -/
def Expr.hasIntegral : Expr → Bool
  | .const _ => false
  | .var .. => false
  | .sum ts => Expr.anyHasIntegral ts
  | .product ts => Expr.anyHasIntegral ts
  | .binary _ l r => Expr.hasIntegral l || Expr.hasIntegral r
  | .not a => Expr.hasIntegral a
  | .call f args => f.name == "I" || Expr.anyHasIntegral args
  | .set ts => Expr.anyHasIntegral ts

/-- Whether a call of `I` occurs in a list of expressions. -/
def Expr.anyHasIntegral : List Expr → Bool
  | [] => false
  | t :: ts => Expr.hasIntegral t || Expr.anyHasIntegral ts

end

/-- The integral of `f` from `lower` to `upper`, if there is a closed antiderivative. -/
def integrateBetween (f x lower upper : Expr) (ctx : Context) : Result Expr := do
  let antiderivative ← integrate f x ctx
  if antiderivative.hasIntegral then .error (.unimplemented (.antiderivative f x))
  else
    let difference := Expr.subtract (antiderivative.substituteOne x upper)
      (antiderivative.substituteOne x lower)
    return difference.evaluate ctx

end SymbolicAlgebra
