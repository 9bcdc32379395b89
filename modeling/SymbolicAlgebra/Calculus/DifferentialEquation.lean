import SymbolicAlgebra.Calculus.Laplace

/-!
# Differential equations

Linear systems with initial conditions are solved through the Laplace transform. A numerical method
is one step from `t0` to `t0 + h`, written as expressions: explicit for Euler's method, and else an
equation for the new values that is solved in turn.
-/

namespace SymbolicAlgebra

/-- How one step of a numerical integration uses the derivative. -/
inductive IntegrationMethod where
  /-- The derivative at the beginning of the step. -/
  | euler
  /-- The derivative at the end of the step. -/
  | backwardEuler
  /-- The mean of both. -/
  | trapezoid
  deriving DecidableEq, Repr, Inhabited

namespace IntegrationMethod

def name : IntegrationMethod → String
  | euler => "Euler"
  | backwardEuler => "BackwardEuler"
  | trapezoid => "Trapezoid"

/-- All methods. -/
def all : List IntegrationMethod := [euler, backwardEuler, trapezoid]

/-- The method of that name. -/
def ofName? (text : String) : Option IntegrationMethod :=
  all.find? fun m => m.name == text

end IntegrationMethod

namespace DifferentialEquation

/-- The variable of the transformed equations. -/
def transformVariable : Expr := .symbol "_s"

/-- The two sides of an equation; anything else is to be zero. -/
def sides (e : Expr) : Expr × Expr :=
  e.asEqual?.getD (e, .zero)

/-- An equation transformed, with the initial values filled in. -/
def transformEquation (t : Expr) (initial : Bindings) (ctx : Context) (equation : Expr) :
    Result Expr := do
  let (l, r) := sides equation
  let l ← laplaceTransform l t transformVariable ctx
  let r ← laplaceTransform r t transformVariable ctx
  return .equal ((l.substitute initial).evaluate ctx) ((r.substitute initial).evaluate ctx)

/-- A solution of the transformed equations, transformed back. -/
def transformBack (t : Expr) (ctx : Context) (l r : Expr) : Result Expr := do
  let y ← inverseLaplaceTransform l transformVariable t ctx
  let value ← inverseLaplaceTransform r transformVariable t ctx
  if value.dependsOn transformVariable || y.dependsOn transformVariable then
    .error (.unimplemented (.inverseLaplace r))
  else return .arrow y value

/-- The function `y` of a derivative `D[y, t]`. -/
def derivedFunction (e : Expr) : Result Expr :=
  match e with
  | .call f (y :: _) => if f.name == "D" then .ok y else refuse (.notDerivative e)
  | _ => refuse (.notDerivative e)

/-- The new value of `y` for an arrow `D[y, t] -> f`. -/
def stepFor (t t0 h : Expr) (method : IntegrationMethod) (ctx : Context) (arrow : Expr) :
    Result Expr := do
  let atStart (e : Expr) : Expr := (e.substituteOne t t0).evaluate ctx
  match arrow.asArrow? with
  | none => refuse (.notDerivativeArrow arrow)
  | some (d, f) =>
    let y ← derivedFunction d
    let increment := match method with
      | .euler => Expr.productOf [h, atStart f]
      | .backwardEuler => Expr.productOf [h, f]
      | .trapezoid => Expr.productOf [h / 2, .sumOf [atStart f, f]]
    return .arrow y ((Expr.sumOf [atStart y, increment]).evaluate ctx)

/-- The derivatives of the functions, solved from the equations. -/
def derivatives (equations functions : List Expr) (t : Expr) (ctx : Context) :
    Result (List Expr) := do
  let unknowns ← functions.mapM fun y => ctx.call "D" [y, t]
  let solved := solve equations unknowns ctx
  let remaining := (solved.filterMap Expr.asArrow?).any fun (_, f) => f.dependsOnAny unknowns
  if solved.length < unknowns.length || remaining then refuse .singularDifferential
  else return solved

end DifferentialEquation

open DifferentialEquation

/-- Solves linear differential equations for functions of `t`, with initial conditions such as
`y[0] -> 1`. -/
def solveDifferential (equations functions initial : List Expr) (t : Expr) (ctx : Context) :
    Result (List Expr) := do
  let transformed ← equations.mapM (transformEquation t (.ofArrows initial) ctx)
  let unknowns ← functions.mapM fun y => ctx.call "L" [y, t, transformVariable]
  ((solve transformed unknowns ctx).filterMap Expr.asArrow?).mapM fun (l, r) => transformBack t ctx l r

/-- One step of a numerical method for arrows `D[y, t] -> f`: arrows from each `y` to its new value. -/
def integrationStep (equations : List Expr) (t t0 h : Expr) (method : IntegrationMethod)
    (ctx : Context) : Result (List Expr) :=
  equations.mapM (stepFor t t0 h method ctx)

/-- The equations of one step for a system that determines the derivatives. -/
def discretize (equations functions : List Expr) (t t0 h : Expr) (method : IntegrationMethod)
    (ctx : Context) : Result (List Expr) := do
  let slopes ← derivatives equations functions t ctx
  let step ← integrationStep slopes t t0 h method ctx
  return (step.filterMap Expr.asArrow?).map fun (l, r) => Expr.equal l r

/-- The functions after one step, in terms of their values before it. -/
def solveStep (equations functions : List Expr) (t t0 h : Expr) (method : IntegrationMethod)
    (ctx : Context) : Result (List Expr) := do
  return solve (← discretize equations functions t t0 h method ctx) functions ctx

/-- One step where solutions may contain functions that come later in the list. -/
def partialSolveStep (equations functions : List Expr) (t t0 h : Expr) (method : IntegrationMethod)
    (ctx : Context) : Result (List Expr) := do
  return partialSolve (← discretize equations functions t t0 h method ctx) functions ctx

end SymbolicAlgebra
