import SymbolicAlgebra.Calculus.Leftover
import SymbolicAlgebra.Calculus.LinearOperator
import SymbolicAlgebra.PartialFractions
import SymbolicAlgebra.Reduction.RuleSet

/-!
# Laplace transforms

The transform `L` and its inverse `IL` as linear operators with rule tables. What no rule covers is
expanded in `s` (into partial fractions where it is a quotient) and transformed again; what then
still has no rule stays as a call. The rules for `D` and `I` make the transform of a differential
equation an algebraic one.
-/

namespace SymbolicAlgebra

namespace Laplace

/-- The rules on `L[f, t, s]`. -/
def rules (ctx : Context) : Result RuleSet := do
  let f := Expr.symbol "f"
  let t := Expr.symbol "t"
  let s := Expr.symbol "s"
  let a := Expr.symbol "a"
  let n := Expr.symbol "N"
  let transform (e : Expr) : Result Expr := ctx.call "L" [e, t, s]
  let call (name : String) (arg : Expr) : Result Expr := ctx.call name [arg]
  let multiple := a * t
  let squares := s.pow 2 + a.pow 2
  let independent := Expr.not (← ctx.call "IsFunctionOf" [a, t])
  let initial := Expr.substituteLater f (.arrow t 0)
  let derivative := Rule.plain (← transform (← ctx.call "D" [f, t])) (s * (← transform f) - initial)
  let integral := Rule.plain (← transform (← ctx.call "I" [f, t])) ((← transform f) / s)
  let inverse := Rule.plain (← transform (← ctx.call "IL" [f, s, t])) f
  let powers : Rule := ⟨← transform (.power t n), (← call "Factorial" n) / .power s (n + 1),
    [← call "IsNatural" n]⟩
  let exponential : Rule := ⟨← transform (← call "Exp" multiple), .inverse (s - a), [independent]⟩
  let sine : Rule := ⟨← transform (← call "Sin" multiple), a / squares, [independent]⟩
  let cosine : Rule := ⟨← transform (← call "Cos" multiple), s / squares, [independent]⟩
  return RuleSet.ofRules [derivative, integral, inverse, powers, exponential, sine, cosine] ctx

/-- The rules on `IL[F, s, t]`. -/
def inverseRules (ctx : Context) : Result RuleSet := do
  let f := Expr.symbol "f"
  let t := Expr.symbol "t"
  let s := Expr.symbol "s"
  let a := Expr.symbol "a"
  let n := Expr.symbol "N"
  let invert (e : Expr) : Result Expr := ctx.call "IL" [e, s, t]
  let transformed ← ctx.call "L" [f, t, s]
  let call (name : String) (arg : Expr) : Result Expr := ctx.call name [arg]
  let multiple := a * t
  let squares := s.pow 2 + a.pow 2
  let initial := Expr.substituteLater f (.arrow t 0)
  let inverse := Rule.plain (← invert transformed) f
  let derivative := Rule.plain (← invert (s * transformed - initial)) (← ctx.call "D" [f, t])
  let integral := Rule.plain (← invert (transformed / s)) (← ctx.call "I" [f, t])
  let powers : Rule := ⟨← invert (.inverse (.power s n)),
    .power t (n - 1) / (← call "Factorial" (n - 1)), [← call "IsNatural" n]⟩
  let exponential := Rule.plain (← invert (.inverse (s + a))) (← call "Exp" (-(a * t)))
  let scaledSine := Rule.plain (← invert (a / squares)) (← call "Sin" multiple)
  let sine := Rule.plain (← invert (.inverse squares)) ((← call "Sin" multiple) / a)
  let cosine := Rule.plain (← invert (s / squares)) (← call "Cos" multiple)
  return RuleSet.ofRules
    [inverse, derivative, integral, powers, exponential, scaledSine, sine, cosine] ctx

/-- What a transformation does not change. -/
structure Settings where
  context : Context
  /-- The variable of the argument. -/
  source : Expr
  /-- The variable of the result. -/
  target : Expr
  rules : Thunk (Result RuleSet)

def Settings.isConstant (s : Settings) (e : Expr) : Bool := !e.dependsOn s.source

/-- The transform of a leaf: the result of a rule that is accepted, else the transform of the
expansion in `expansionVariable` if that changes anything, else the call. -/
def leaf (s : Settings) (name : String) (accept : Expr → Bool) (expansionVariable : Expr)
    (visit : Expr → WithLeftovers Expr) (e : Expr) : WithLeftovers Expr := do
  let call ← s.context.call name [e, s.source, s.target]
  let rules ← s.rules.get
  match RuleSet.reductAccepted? accept s.context call rules with
  | some result => return result
  | none =>
    let expanded ← e.expand (some expansionVariable) s.context
    if expanded != e then visit expanded else leaveOver call

/-- The transform down to a depth; a constant `c` becomes `c / s`. -/
def visitTo (s : Settings) : Nat → Expr → WithLeftovers Expr
  | 0, e => throw (.tooDeep e)
  | depth + 1, e =>
    if s.isConstant e then return .divide e s.target
    else LinearOperator.reduce s.context s.isConstant (visitTo s depth)
      (leaf s "L" (fun _ => true) s.target (visitTo s depth)) e

/-- The inverse transform down to a depth. A result may not contain the variable of the argument. -/
def inverseVisitTo (s : Settings) : Nat → Expr → WithLeftovers Expr
  | 0, e => throw (.tooDeep e)
  | depth + 1, e =>
    LinearOperator.reduce s.context s.isConstant (inverseVisitTo s depth)
      (leaf s "IL" s.isConstant s.source (inverseVisitTo s depth)) e

end Laplace

/-- The Laplace transform of `f` from `t` to `s`. -/
def laplaceTransform (f t s : Expr) (ctx : Context) : Result Expr := do
  let settings : Laplace.Settings := ⟨ctx, t, s, .mk fun _ => Laplace.rules ctx⟩
  let (result, leftovers) ← (Laplace.visitTo settings (LinearOperator.depthFor f) f).run []
  return result.evaluateHolding leftovers ctx

/-- The inverse Laplace transform of `f` from `s` to `t`. -/
def inverseLaplaceTransform (f s t : Expr) (ctx : Context) : Result Expr := do
  let settings : Laplace.Settings := ⟨ctx, s, t, .mk fun _ => Laplace.inverseRules ctx⟩
  let (result, leftovers) ← (Laplace.inverseVisitTo settings (LinearOperator.depthFor f) f).run []
  return result.evaluateHolding leftovers ctx

end SymbolicAlgebra
