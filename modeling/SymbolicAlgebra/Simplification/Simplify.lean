import SymbolicAlgebra.Evaluation.Memo
import SymbolicAlgebra.Expr.Traversal
import SymbolicAlgebra.Reduction.RuleSet
import SymbolicAlgebra.Simplification.Equivalence

/-!
# Simplification

`simplify` works from the inside outwards: every node is evaluated and replaced by the cheapest of
its equivalent forms, as long as a cheaper one is found. `expandLog` splits logarithms of products
and powers until no rule applies. Both keep their results; an expression met again inside its own
visit is left as it is, which ends circles of rules.
-/

namespace SymbolicAlgebra.Simplification

/-- The number of steps that the search for equivalent forms goes deep. -/
def searchDepth : Nat := 3

/-- A visit with a memo table. -/
abbrev Visit := Expr → StateM Memo Expr

/-- The kept result for `e`, or that of `compute`. -/
def memoized (compute : Visit) (e : Expr) : StateM Memo Expr := do
  match (← get).find? e with
  | some (.done result) => return result
  | some .inFlight => return e
  | none =>
    modify fun m => m.start e
    let result ← compute e
    modify fun m => m.finish e result
    return result

/-- The cheapest of the candidates that costs less than `e`, the first one of several. -/
def cheaper? (e : Expr) (candidates : List Expr) : Option Expr :=
  candidates.foldl (fun best c =>
    if c.cost < (best.getD e).cost then some c else best) none

/-- Evaluates a node over its simplified operands and goes on with a cheaper equivalent, if any. -/
def step (rules : List Rule) (ctx : Context) (visit : Visit) (e : Expr) : StateM Memo Expr := do
  let evaluated := (← e.mapChildrenM visit).evaluate ctx
  match cheaper? evaluated (evaluated.equivalents rules searchDepth ctx) with
  | some best => visit best
  | none => return evaluated

/-- Simplification down to a depth. -/
def visitTo (rules : List Rule) (ctx : Context) : Nat → Visit
  | 0, e => return e
  | depth + 1, e => memoized (step rules ctx (visitTo rules ctx depth)) e

/-- Reduces a node over its visited operands by a logarithm rule and visits the result. -/
def logStep (rules : RuleSet) (ctx : Context) (visit : Visit) (e : Expr) : StateM Memo Expr := do
  let children ← e.mapChildrenM visit
  match rules.reduct? children ctx with
  | some expanded => visit expanded
  | none => return children

/-- Expansion of logarithms down to a depth. -/
def logVisitTo (rules : RuleSet) (ctx : Context) : Nat → Visit
  | 0, e => return e
  | depth + 1, e => memoized (logStep rules ctx (logVisitTo rules ctx depth)) e

/-- The rules that split logarithms. -/
def logRules (ctx : Context) : Result RuleSet := do
  let x := Expr.symbol "x"
  let y := Expr.symbol "y"
  let b := Expr.symbol "b"
  let ln (a : Expr) : Result Expr := ctx.call "Ln" [a]
  let log (a : Expr) : Result Expr := ctx.call "Log" [a, b]
  let factors := Equivalence.properFactor "x" * Equivalence.properFactor "y"
  let rules := [
    Rule.plain (← ln factors) ((← ln x) + (← ln y)),
    Rule.plain (← ln (.power x y)) (y * (← ln x)),
    Rule.plain (← log factors) ((← log x) + (← log y)),
    Rule.plain (← log (.power x y)) (y * (← log x)),
    Rule.plain (← ln (← ctx.call "Exp" [x])) x]
  return RuleSet.ofRules rules ctx

/-- The depth set aside for an expression: far more than its nesting and the steps on the way. -/
def depthFor (e : Expr) : Nat := Nat.pow (e.size + 1000) 3

end SymbolicAlgebra.Simplification

namespace SymbolicAlgebra.Expr

/-- The cheapest equivalent form that is found; the evaluated form where the functions that the
identities are about are not defined. -/
def simplify (f : Expr) (ctx : Context) : Expr :=
  match Equivalence.rules ctx with
  | .ok rules => ((Simplification.visitTo rules ctx (Simplification.depthFor f) f).run .empty).1
  | .error _ => f.evaluate ctx

/-- The form with logarithms of products and powers split; unchanged where the logarithms are not
defined. -/
def expandLog (f : Expr) (ctx : Context) : Expr :=
  match Simplification.logRules ctx with
  | .ok rules =>
    let e := f.evaluate ctx
    Expr.evaluate ((Simplification.logVisitTo rules ctx (Simplification.depthFor e) e).run .empty).1 ctx
  | .error _ => f

end SymbolicAlgebra.Expr
