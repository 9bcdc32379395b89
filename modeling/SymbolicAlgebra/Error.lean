import SymbolicAlgebra.Expr.Display

/-!
# Failures

The causes of failure, grouped by class, with one wording for each. A pattern that does not match
is no failure; neither is a function that does not apply to its arguments.
-/

namespace SymbolicAlgebra

/-- Why a name has no single meaning. -/
inductive NameFailure where
  | unknown (name : String)
  | ambiguous (name : String) (candidates : Nat)
  | isFunction (name : String)
  /-- There is not exactly one function of that name and arity. -/
  | noFunction (name : String) (arity : Nat)

def NameFailure.message : NameFailure → String
  | unknown name => name
  | ambiguous name count => name ++ " is ambiguous (" ++ toString count ++ " candidates)"
  | isFunction name => name ++ " is a function"
  | noFunction name arity => name ++ "/" ++ toString arity

/-- What the algebra has no method for. -/
inductive MissingMethod where
  | antiderivative (f x : Expr)
  | inverseLaplace (f : Expr)

def MissingMethod.message : MissingMethod → String
  | antiderivative f x => "no closed antiderivative of " ++ f.text ++ " in " ++ x.text
  | inverseLaplace f => "inverse Laplace transform of " ++ f.text

/-- What has no value as a floating point number. -/
inductive NotCompilable where
  | setOf (e : Expr)
  | expression (e : Expr)
  | noRoutine (name : String) (arity : Nat)

def NotCompilable.message : NotCompilable → String
  | setOf e => "set " ++ e.text
  | expression e => e.text
  | noRoutine name arity => "no native routine for " ++ name ++ "/" ++ toString arity

/-- What is wrong with an argument. -/
inductive BadArgument where
  | notFinite (x : Float)
  | argumentCount (function : String) (expected actual : Nat)
  | conditionalArgumentCount
  | tableArgumentCount (name : String)
  | emptyTable (name : String)
  | infiniteTable (name : String)
  | factorial (x : Rat)
  | iterationCount
  | notArrow (e : Expr)
  | conflictingPrematch (key : Expr)
  | notPolynomial (f x : Expr)
  | degreeTooLarge (term : Expr)
  | mixedPolynomials (x y : Expr)
  | zeroDivisor
  | notDenominatorFactor (e : Expr)
  | freeDenominator (d x : Expr)
  | notVector (rows columns : Nat)
  | vectorIndex (i : Nat)
  | notInvertible (rows columns : Nat)
  | singularMatrix
  | powerOfNonSquare (rows columns : Nat)
  | notDerivative (e : Expr)
  | notDerivativeArrow (e : Expr)
  | singularDifferential
  | quadratureDegree (degree : Nat)
  | emptySystem
  | guessCount (values unknowns : Nat)
  | notVariable (e : Expr)
  | negativeTolerance
  | noIterations
  | notGenerated
  | notGuess (e : Expr)
  | guessNotNumber (e : Expr)
  | logLevel (given : String)

def BadArgument.message : BadArgument → String
  | notFinite x => Decimal.floatText x ++ " is not a finite number"
  | argumentCount f expected actual =>
    f ++ " expects " ++ toString expected ++ " arguments, got " ++ toString actual
  | conditionalArgumentCount => "If expects 3 arguments"
  | tableArgumentCount name => name ++ " expects 1 argument"
  | emptyTable name => "lookup table " ++ name ++ " has no points"
  | infiniteTable name => "lookup table " ++ name ++ " has non-finite points"
  | factorial x => "Factorial is not defined for " ++ Rational.text x
  | iterationCount => "iteration count must be a positive integer"
  | notArrow e => e.text ++ " is not an arrow"
  | conflictingPrematch key => "conflicting pre-match for " ++ key.text
  | notPolynomial f x => f.text ++ " is not a polynomial of " ++ x.text
  | degreeTooLarge term => "degree of " ++ term.text ++ " is too large"
  | mixedPolynomials x y => "dividing polynomials of " ++ x.text ++ " and " ++ y.text
  | zeroDivisor => "division by the zero polynomial"
  | notDenominatorFactor e => e.text ++ " is not a denominator factor"
  | freeDenominator d x => d.text ++ " does not depend on " ++ x.text
  | notVector rows columns =>
    "a " ++ toString rows ++ "x" ++ toString columns ++ " matrix is not a vector"
  | vectorIndex i => "vector index " ++ toString i ++ " out of bounds"
  | notInvertible rows columns =>
    "cannot invert a " ++ toString rows ++ "x" ++ toString columns ++ " matrix"
  | singularMatrix => "singular matrix"
  | powerOfNonSquare rows columns =>
    "power of a non-square " ++ toString rows ++ "x" ++ toString columns ++ " matrix"
  | notDerivative e => e.text ++ " is not a derivative"
  | notDerivativeArrow e => e.text ++ " is not an arrow D[y, t] -> f"
  | singularDifferential => "differential equation is singular or not linear"
  | quadratureDegree degree => "Gauss-Legendre rule of degree " ++ toString degree
  | emptySystem => "equation system and unknowns must not be empty"
  | guessCount values unknowns =>
    "initial guess has " ++ toString values ++ " values for " ++ toString unknowns ++ " unknowns"
  | notVariable e => e.text ++ " is not a variable"
  | negativeTolerance => "tolerance should be a non-negative number"
  | noIterations => "max iterations should be a positive number"
  | notGenerated => "eq_generate must be called before main_loop"
  | notGuess e => e.text ++ " is not a guess x -> x0"
  | guessNotNumber e => "guess " ++ e.text ++ " is not a number"
  | logLevel given => "loglevel must be trace, debug, info, warn, error or off, got " ++ given

/-- The failures of the algebra. -/
inductive AlgebraError where
  | unresolvedName (cause : NameFailure)
  /-- A decision was asked for that the symbolic condition does not allow. -/
  | undecided (condition : Expr)
  /-- A memoizing pass came back to an expression that it was still working on. -/
  | cycle (e : Expr)
  | unimplemented (cause : MissingMethod)
  | notCompilable (cause : NotCompilable)
  /-- An iteration did not converge. -/
  | diverged (iterations : Nat) (residual : Float)
  | invalidArgument (cause : BadArgument)
  /-- Numbers, vectors and matrices that do not fit each other. -/
  | outOfShape
  /-- A pass used up the depth that was set aside for it. -/
  | tooDeep (e : Expr)

def AlgebraError.message : AlgebraError → String
  | unresolvedName cause => "unresolved name '" ++ cause.message ++ "'"
  | undecided condition => "match failure: condition " ++ condition.text ++ " is not a constant"
  | cycle e => "cycle detected while visiting " ++ e.text
  | unimplemented cause => "not implemented: " ++ cause.message
  | notCompilable cause => "cannot compile: " ++ cause.message
  | diverged iterations residual =>
    "iteration diverged after " ++ toString iterations ++ " iterations (residual " ++
      Decimal.floatText residual ++ ")"
  | invalidArgument cause => "invalid argument: " ++ cause.message
  | outOfShape => "dimensions do not fit"
  | tooDeep e => "recursion too deep at " ++ e.text

/-- Computations that may fail. -/
abbrev Result (α : Type) := Except AlgebraError α

/-- Fails for a bad argument. -/
def refuse {α : Type} (cause : BadArgument) : Result α :=
  .error (.invalidArgument cause)

end SymbolicAlgebra
