import SymbolicAlgebra.Calculus.DifferentialEquation
import SymbolicAlgebra.Calculus.Integral
import SymbolicAlgebra.Numeric.Newton
import SymbolicAlgebra.Simplification.Simplify

/-!
# The meaning of functions

`Native.applyTo` says what each built-in function computes, `Function.applyTo` extends it to user
functions, `If` and tables, and `Namespace.context` ties the knot: functions may evaluate expressions
that call functions again, down to a depth beyond which calls stay as they are.
-/

namespace SymbolicAlgebra

namespace Native

/-- The value of a function on constants. -/
def ofConst? (args : List Expr) (f : Rat → Option Rat) : Result (Option Expr) :=
  match args with
  | .const q :: _ => .ok ((f q).map Expr.const)
  | _ => .ok none

/-- The value of a function on two constants. -/
def ofConsts? (args : List Expr) (f : Rat → Rat → Option Rat) : Result (Option Expr) :=
  match args with
  | .const a :: .const b :: _ => .ok ((f a b).map Expr.const)
  | _ => .ok none

/-- A truth value. -/
def truth (b : Bool) : Result (Option Expr) := .ok (some (.boolean b))

/-- One result stands for itself if the input was no set; all others form a set. -/
def collectResults (input : Expr) (results : List Expr) : Expr :=
  match results with
  | [single] => if input.isSet then .setOf [single] else single
  | many => .setOf many

/-- The logarithm to a base. -/
def logarithm? (x base : Rat) : Option Rat :=
  Binary64.value? ((Binary64.nearest x).log / (Binary64.nearest base).log)

/-- The factorial; too large a number is left alone, and what is no natural number is refused. -/
def factorialOf (x : Rat) : Result (Option Expr) :=
  match Rational.factorial? x with
  | some f => .ok (some (.const f))
  | none => if Rational.isInteger x && decide (0 ≤ x) then .ok none else refuse (.factorial x)

/-- The number of iterations that an argument asks for. -/
def iterationCount (n : Rat) : Result Nat :=
  match Rational.toInt64? n with
  | some k => if 0 < k then .ok k.toNat else refuse .iterationCount
  | none => refuse .iterationCount

/-- What a function makes of as many arguments as it has parameters, with constants where it asks for
them. -/
def compute (ctx : Context) (f : Native) (args : List Expr) : Result (Option Expr) :=
  match f, args with
  | elementary g, args => ofConst? args (Rational.mapFloat? g.apply)
  | abs, args => ofConst? args fun q => some q.abs
  | sign, args => ofConst? args fun q => some (Rational.sign q : Rat)
  | min, args => ofConsts? args fun a b => some (if b < a then b else a)
  | max, args => ofConsts? args fun a b => some (if b < a then a else b)
  | sqrt, args => ofConst? args Rational.sqrt?
  | log, args => ofConsts? args logarithm?
  | floor, args => ofConst? args fun q => some (q.floor : Rat)
  | ceiling, args => ofConst? args fun q => some (q.ceil : Rat)
  | round, args => ofConst? args fun q => some (Rational.round q)
  | factorial, .const q :: _ => factorialOf q
  | isConstant, x :: _ => truth x.isConst
  | isInteger, .const q :: _ => truth (Rational.isInteger q)
  | isNatural, .const q :: _ => truth (Rational.isNatural q)
  | isFunctionOf, e :: x :: _ => truth (e.dependsOn x)
  | simplify, e :: _ => .ok (some (e.simplify ctx))
  | factor, e :: _ => .ok (some (e.factor none ctx))
  | factorIn, e :: x :: _ => .ok (some (e.factor (some x) ctx))
  | expand, e :: _ => (e.expand none ctx).map some
  | expandIn, e :: x :: _ => (e.expand (some x) ctx).map some
  | expandLog, e :: _ => .ok (some (e.expandLog ctx))
  | solve, e :: x :: _ =>
    .ok (some (collectResults e (SymbolicAlgebra.solve e.members x.members ctx)))
  | solveNumerically, e :: x :: _ => do
    let results ← Numeric.solveNumerically e.members x.members Numeric.Newton.defaultTolerance
      Numeric.Newton.defaultMaxIterations ctx
    return some (collectResults e results)
  | solveNumericallyWith, e :: x :: .const tolerance :: .const n :: _ => do
    let iterations ← iterationCount n
    let results ← Numeric.solveNumerically e.members x.members (Binary64.nearest tolerance)
      iterations ctx
    return some (collectResults e results)
  | solveDifferential, e :: y :: y0 :: t :: _ => do
    let results ← SymbolicAlgebra.solveDifferential e.members y.members y0.members t ctx
    return some (collectResults e results)
  | derivative, e :: x :: _ => (differentiate e x ctx).map some
  | integral, e :: x :: _ => (integrate e x ctx).map some
  | laplace, e :: t :: s :: _ => (laplaceTransform e t s ctx).map some
  | inverseLaplace, e :: s :: t :: _ => (inverseLaplaceTransform e s t ctx).map some
  | _, _ => .ok none

/-- Applies a built-in function: it needs as many arguments as it has parameters, and applies only if
those that are to be constants are. -/
def applyTo (ctx : Context) (f : Native) (args : List Expr) : Result (Option Expr) :=
  let parameters := f.parameters
  if args.length ≠ parameters.length then
    refuse (.argumentCount f.name parameters.length args.length)
  else if (parameters.zip args).all fun (p, a) => p.kind == .any || a.isConst then
    compute ctx f args
  else .ok none

end Native

namespace Function

/-- Chooses a branch; equal branches need no condition. -/
def chooseBranch (c t f : Expr) : Result (Option Expr) :=
  if t == f || c.isTrue then .ok (some t)
  else if c.isZero then .ok (some f)
  else .error (.undecided c)

/-- Applies a function to arguments; `none` when it does not apply to them. -/
def applyTo (ctx : Context) (f : Function) (args : List Expr) : Result (Option Expr) :=
  match f with
  | native g => g.applyTo ctx args
  | user name _ none => .error (.unresolvedName (.unknown name))
  | user _ params (some body) =>
    .ok (some ((body.substitute (.ofList (params.zip args))).evaluate ctx))
  | ifThenElse =>
    match args with
    | [c, t, f] => chooseBranch c t f
    | _ => refuse .conditionalArgumentCount
  | table name points =>
    match args with
    | [.const q] => .ok (((Rational.mapFloat? (Interpolation.interpolate points)) q).map Expr.const)
    | [_] => .ok none
    | _ => refuse (.tableArgumentCount name)

end Function

namespace Namespace

/-- The context in which functions may call functions down to a depth. -/
def contextTo (ns : Namespace) : Nat → Context
  | 0 => .inert ns
  | depth + 1 => ⟨ns, fun f args => f.applyTo (contextTo ns depth) args⟩

/-- How deep functions may call each other, far beyond what evaluation can reach. -/
def callDepth : Nat := 1000000

/-- The context of a namespace. -/
def context (ns : Namespace) : Context := ns.contextTo callDepth

end Namespace

end SymbolicAlgebra
