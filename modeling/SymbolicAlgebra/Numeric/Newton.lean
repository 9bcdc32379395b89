import SymbolicAlgebra.Calculus.Derivative
import SymbolicAlgebra.LinearSystem
import SymbolicAlgebra.Numeric.Code
import SymbolicAlgebra.Numeric.LogLevel
import SymbolicAlgebra.Numeric.SingularValues

/-!
# Newton's method

A solver for systems of equations `F(x) = 0` keeps the system, its parameters, the compiled residuals
and derivatives, and what its last iteration found. `solveNumerically` runs it along a homotopy
`F(x) - s * F(x0)`, which has the same derivatives, so that a far guess can be approached in stages.
-/

namespace SymbolicAlgebra.Numeric

/-- A Newton solver. -/
structure Newton where
  /-- The residuals, each of which is to be zero. -/
  system : List Expr
  unknowns : List Expr
  guess : Array Float
  tolerance : Float
  maxIterations : Nat
  logLevel : Option String
  /-- The compiled derivatives of each residual by each unknown. -/
  derivatives : Array (Array Compiled)
  residuals : List Compiled
  /-- What is subtracted from the residuals. -/
  shift : Array Float
  /-- The steps taken in the last run. -/
  iterations : Nat
  /-- The derivatives at the last point. -/
  jacobian : Rows
  jacobianShape : Nat × Nat
  /-- The residuals at the last point. -/
  residualValues : Array Float
  /-- The last point at which a run converged. -/
  result : Option (Array Float)

namespace Newton

def defaultTolerance : Float := 1e-6

def defaultMaxIterations : Nat := 64

/-- A solver without a system. -/
def new : Newton where
  system := []
  unknowns := []
  guess := #[]
  tolerance := defaultTolerance
  maxIterations := defaultMaxIterations
  logLevel := some "info"
  derivatives := #[]
  residuals := []
  shift := #[]
  iterations := 0
  jacobian := #[]
  jacobianShape := (0, 0)
  residualValues := #[]
  result := none

/-! ### Setup

Each step of a setup gives the solver as it is afterwards, also when it fails. -/

/-- The outcome of an operation on a solver, with the solver afterwards. -/
abbrev Step (α : Type) := Result α × Newton

/-- Sets the tolerance, which may not be negative. -/
def setTolerance (s : Newton) : Option Float → Step Unit
  | none => (.ok (), s)
  | some t => if t ≥ 0 then (.ok (), { s with tolerance := t }) else (refuse .negativeTolerance, s)

/-- Sets the limit of iterations, which may not be zero. -/
def setMaxIterations (s : Newton) : Option Nat → Step Unit
  | none => (.ok (), s)
  | some n => if n = 0 then (refuse .noIterations, s) else (.ok (), { s with maxIterations := n })

/-- Sets the log level to the name of one. -/
def setLogLevel (s : Newton) : Option String → Step Unit
  | none => (.ok (), s)
  | some level =>
    match LogLevel.parse (some level) with
    | .ok _ => (.ok (), { s with logLevel := some level })
    | .error cause => (.error cause, s)

/-- Goes on with the next step after a success. -/
def andThen {α β : Type} (first : Step α) (next : α → Newton → Step β) : Step β :=
  match first with
  | (.ok a, s) => next a s
  | (.error cause, s) => (.error cause, s)

/-- Sets the parameters that are given, one after the other up to the first that is refused. -/
def setParameters (s : Newton) (tolerance : Option Float) (maxIterations : Option Nat)
    (logLevel : Option String) : Step Unit :=
  andThen (s.setTolerance tolerance) fun _ s =>
    andThen (s.setMaxIterations maxIterations) fun _ s => s.setLogLevel logLevel

/-- Sets the system, its unknowns and the initial guess, and then the parameters. -/
def setSystem (s : Newton) (system unknowns : List Expr) (guess : Array Float)
    (tolerance : Float) (maxIterations : Nat) : Step Unit :=
  if system.isEmpty || unknowns.isEmpty then (refuse .emptySystem, s)
  else if guess.size ≠ unknowns.length then (refuse (.guessCount guess.size unknowns.length), s)
  else
    match unknowns.find? fun u => !u.isVar with
    | some bad => (refuse (.notVariable bad), s)
    | none =>
      let s := { s with
        system := system
        unknowns := unknowns
        guess := guess
        shift := Array.replicate system.length 0 }
      s.setParameters (some tolerance) (some maxIterations) none

/-- The compiled derivatives of the system. -/
def compileDerivatives (s : Newton) (ctx : Context) : Result (Array (Array Compiled)) := do
  let symbolic ← SymbolicAlgebra.jacobian s.system s.unknowns ctx
  let rows ← symbolic.mapM fun row => do
    return (← row.mapM fun d => compile d s.unknowns [.standard]).toArray
  return rows.toArray

/-- The compiled residuals of the system. -/
def compileResiduals (s : Newton) (ctx : Context) : Result (List Compiled) :=
  s.system.mapM fun f => compile (f.evaluate ctx) s.unknowns [.standard]

/-- Differentiates and compiles the system. -/
def generate (s : Newton) (ctx : Context) : Step Unit :=
  match s.compileDerivatives ctx with
  | .error cause => (.error cause, s)
  | .ok derivatives =>
    let s := { s with derivatives := derivatives }
    match s.compileResiduals ctx with
    | .error cause => (.error cause, s)
    | .ok residuals => (.ok (), { s with residuals := residuals })

/-! ### Iteration -/

/-- Whether the residuals have values at a point, and a shift each. -/
def hasResidualAt (s : Newton) (x : Array Float) : Bool :=
  decide (s.residuals.length ≤ s.shift.size) && s.residuals.all fun f => f.isDefinedAt x

/-- Whether there is a derivative of each residual by each unknown, with a value at a point. -/
def hasJacobianAt (s : Newton) (x : Array Float) : Bool :=
  (List.range s.residuals.length).all fun i =>
    (List.range s.unknowns.length).all fun j =>
      match (s.derivatives.getD i #[])[j]? with
      | some d => d.isDefinedAt x
      | none => false

/-- The residuals at a point, less the shift. -/
def residual (s : Newton) (x : Array Float) : Array Float :=
  ((s.residuals.zip s.shift.toList).map fun (f, shift) => f.run x - shift).toArray

/-- The residuals at a point where they have values. -/
def residualAt (s : Newton) (x : Array Float) : Result (Array Float) :=
  if s.hasResidualAt x then .ok (s.residual x) else .error .outOfShape

/-- The derivatives at a point. -/
def jacobianAt (s : Newton) (x : Array Float) : Rows :=
  let derivative (i j : Nat) : Float :=
    match (s.derivatives.getD i #[])[j]? with
    | some d => d.run x
    | none => notANumber
  (Array.range s.residuals.length).map fun i =>
    (Array.range s.unknowns.length).map fun j => derivative i j

/-- Evaluates the derivatives and then the residuals at a point. After a change of the system the
compiled functions may not fit it any more. -/
def evaluateAt (s : Newton) (x : Array Float) : Step Unit :=
  if !s.hasJacobianAt x then (.error .outOfShape, s)
  else
    let s := { s with
      jacobian := s.jacobianAt x
      jacobianShape := (s.residuals.length, s.unknowns.length) }
    match s.residualAt x with
    | .ok values => (.ok (), { s with residualValues := values })
    | .error cause => (.error cause, s)

/-- The sum of squares of the residuals. -/
def error (s : Newton) : Float := dot s.residualValues s.residualValues

/-- The failure of the current run. -/
def diverged {α : Type} (s : Newton) (residual : Float) : Result α :=
  .error (.diverged s.iterations residual)

/-- The step `dx` with `J * dx = -F`, if there is one; the derivatives and residuals of the last point
may not fit each other after a change of the system. -/
def direction? (s : Newton) : Result (Option (Array Float)) :=
  let rhs := s.residualValues.map fun v => -v
  let (m, n) := s.jacobianShape
  if rhs.size ≠ m || m = 0 then .error .outOfShape
  else if m = n then .ok (solveSquare s.jacobian rhs)
  else
    match solveLeastSquares s.jacobian n rhs with
    | some dx => .ok (some dx)
    | none => .error .outOfShape

/-- One Newton step from `x`, with the derivatives and residuals evaluated before. -/
def advance (s : Newton) (x : Array Float) : Result (Array Float) := do
  match ← s.direction? with
  | some dx =>
    if !dx.all Binary64.isFinite then s.diverged s.error.sqrt
    else if dx.size ≠ x.size then .error .outOfShape
    else return addMultiple x 1 dx
  | none => s.diverged s.error.sqrt

/-- The sum of squares below which a point counts as a solution. -/
def threshold (s : Newton) : Float :=
  s.tolerance * s.tolerance * Float.ofNat s.unknowns.length

/-- Ends a run at a solution. -/
def converged (s : Newton) (x : Array Float) : Step (Array Float) :=
  (.ok x, { s with result := some x })

/-- Iterates from `x` with a number of steps left. -/
def iterate : Nat → Newton → Array Float → Step (Array Float)
  | 0, s, x =>
    andThen (s.evaluateAt x) fun _ s =>
      if s.error < s.threshold then s.converged x else (s.diverged s.error.sqrt, s)
  | left + 1, s, x =>
    andThen (s.evaluateAt x) fun _ s =>
      if !Binary64.isFinite s.error then (s.diverged s.error, s)
      else if s.error < s.threshold then s.converged x
      else
        match s.advance x with
        | .ok next => iterate left { s with iterations := s.iterations + 1 } next
        | .error cause => (.error cause, s)

/-- Iterates from `x` up to the limit. -/
def iterateFrom (s : Newton) (x : Array Float) : Step (Array Float) :=
  iterate s.maxIterations { s with iterations := 0 } x

/-- Iterates from the initial guess; the system must have been compiled. -/
def runFromGuess (s : Newton) : Step (Array Float) :=
  if s.residuals.isEmpty then (refuse .notGenerated, s) else s.iterateFrom s.guess

/-- Compiles the system and iterates from the initial guess. -/
def solve (s : Newton) (ctx : Context) : Step (Array Float) :=
  match LogLevel.parse s.logLevel with
  | .error cause => (.error cause, s)
  | .ok _ => andThen (s.generate ctx) fun _ s => s.runFromGuess

/-! ### Homotopy -/

/-- The part of the way by which the homotopy parameter moves from stage to stage. -/
def stageRatio : Float := 0.9

/-- Stages closer together than this end the homotopy. -/
def smallestStage : Float := 1e-6

/-- The point between `a` and `b` at the part `t` of the way. -/
def between (a b t : Float) : Float := a + (b - a) * t

/-- A homotopy under way: the solver, the last point found, the parameter of the last success and
that of the next stage. -/
structure Homotopy where
  solver : Newton
  point : Array Float
  reached : Float
  next : Float

/-- Runs one stage. After a success the parameter moves towards zero, after a failure back towards
the last success. -/
def Homotopy.stage (h : Homotopy) (start : Array Float) : Result Homotopy :=
  let solver := { h.solver with shift := start.map fun v => v * h.next }
  match solver.iterateFrom h.point with
  | (.ok x, solver) => .ok ⟨solver, x, h.next, between h.next 0 stageRatio⟩
  | (.error (.diverged _ _), solver) => .ok ⟨solver, h.point, h.reached, between h.next h.reached stageRatio⟩
  | (.error cause, _) => .error cause

/-- Runs stages until the next one is too close to zero or to the last success. -/
def Homotopy.run (start : Array Float) : Nat → Homotopy → Result Homotopy
  | 0, h => .ok h
  | stages + 1, h => do
    let h ← h.stage start
    if h.next ≤ smallestStage || h.reached < h.next + smallestStage then return h
    else Homotopy.run start stages h

/-- More stages than any homotopy has: each one closes nine tenths of a gap. -/
def maxStages : Nat := 10000

/-- The last stage, for the system itself, unless it has been run. -/
def Homotopy.finish (h : Homotopy) (start : Array Float) : Result Homotopy :=
  if h.reached != 0 then
    let solver := { h.solver with shift := Array.replicate start.size 0 }
    match solver.iterateFrom h.point with
    | (.ok x, solver) => .ok ⟨solver, x, 0, 0⟩
    | (.error cause, _) => .error cause
  else .ok h

end Newton

/-- A guess `x -> x0` as the unknown and a number. -/
def readGuess (ctx : Context) (guess : Expr) : Result (Expr × Float) :=
  match guess.asArrow? with
  | none => refuse (.notGuess guess)
  | some (x, v) =>
    match v.evaluate ctx with
    | .const q => .ok (x, Binary64.nearest q)
    | _ => refuse (.guessNotNumber v)

/-- Solves equations numerically from guesses `x -> x0`: an arrow for each unknown. -/
def solveNumerically (equations guesses : List Expr) (tolerance : Float) (maxIterations : Nat)
    (ctx : Context) : Result (List Expr) := do
  let start ← guesses.mapM (readGuess ctx)
  let unknowns := start.map Prod.fst
  let guess := (start.map Prod.snd).toArray
  let system := equations.map LinearSystem.equalToZero
  let (outcome, solver) := Newton.new.setSystem system unknowns guess tolerance maxIterations
  outcome
  let (outcome, solver) := solver.generate ctx
  outcome
  let residual ← solver.residualAt guess
  let h ← Newton.Homotopy.run residual Newton.maxStages ⟨solver, guess, 1, 0⟩
  let h ← h.finish residual
  (unknowns.zip h.point.toList).mapM fun (u, v) =>
    match Binary64.value? v with
    | some q => .ok (.arrow u (.const q))
    | none => .error (.diverged h.solver.iterations notANumber)

end SymbolicAlgebra.Numeric
