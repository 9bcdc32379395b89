import SymbolicAlgebra.Evaluation.Evaluator
import SymbolicAlgebra.Numeric.Routine

/-!
# Compiled expressions

`compile` turns an expression into `Code`, a tree of floating point operations over argument slots, in
which all names are resolved: variables to slots, calls to library routines, selections, tables or
the inlined bodies of user functions. `Code.run` computes its value.
-/

namespace SymbolicAlgebra.Numeric

/-- Operations of two numbers. -/
inductive Operation where
  | power | conj | disj | equal | notEqual | greater | less | greaterEqual | lessEqual | approxEqual
  deriving DecidableEq, Repr, Inhabited

/-- The value of an operation; truth values are `1` and `0`, and anything but `0` is true. -/
def Operation.apply : Operation → Float → Float → Float
  | power, u, v => Float.pow u v
  | conj, u, v => truth (u != 0 && v != 0)
  | disj, u, v => truth (u != 0 || v != 0)
  | equal, u, v => truth (u == v)
  | notEqual, u, v => truth (u != v)
  | greater, u, v => truth (u > v)
  | less, u, v => truth (u < v)
  | greaterEqual, u, v => truth (u ≥ v)
  | lessEqual, u, v => truth (u ≤ v)
  | approxEqual, u, v =>
    truth (u == v || (u - v).abs < Evaluator.approximationTolerance * maximum u.abs v.abs)

/-- Whether the left operand alone decides: a false one a conjunction, a true one a disjunction. -/
def Operation.isSettledBy : Operation → Float → Bool
  | conj, u => u == 0
  | disj, u => u != 0
  | _, _ => false

/-- A compiled expression. -/
inductive Code where
  | const (value : Float)
  /-- The argument at an index. -/
  | slot (index : Nat)
  | sum (parts : List Code)
  | product (parts : List Code)
  | integerPower (base : Code) (n : Int)
  | sqrt (base : Code)
  | square (base : Code)
  | reciprocal (base : Code)
  | reciprocalSquare (base : Code)
  | operation (op : Operation) (left right : Code)
  | not (operand : Code)
  | routine (r : Routine) (args : List Code)
  /-- Only the branch that is taken has an effect on the value. -/
  | select (condition yes no : Code)
  | table (points : List (Float × Float)) (argument : Code)

mutual

/-- The value at a list of arguments. -/
def Code.run (x : Array Float) : Code → Float
  | .const v => v
  | .slot i => x.getD i notANumber
  | .sum parts => Numeric.sum (Code.runAll x parts)
  | .product parts => Numeric.product (Code.runAll x parts)
  | .integerPower b n => Numeric.integerPower (Code.run x b) n
  | .sqrt b => (Code.run x b).sqrt
  | .square b => let v := Code.run x b; v * v
  | .reciprocal b => 1 / Code.run x b
  | .reciprocalSquare b => let v := Code.run x b; 1 / (v * v)
  | .operation op l r => op.apply (Code.run x l) (Code.run x r)
  | .not a => truth (Code.run x a == 0)
  | .routine r args => r.apply (Code.runAll x args)
  | .select c t f => if Code.run x c != 0 then Code.run x t else Code.run x f
  | .table points a => Interpolation.interpolate points (Code.run x a)

/-- The values of a list. -/
def Code.runAll (x : Array Float) : List Code → List Float
  | [] => []
  | c :: cs => Code.run x c :: Code.runAll x cs

end

mutual

/-- Whether there is a value at a list of arguments: every argument that is read is there, and every
table that is read has a value at its argument. -/
def Code.isDefinedAt (x : Array Float) : Code → Bool
  | .const _ => true
  | .slot i => decide (i < x.size)
  | .sum parts => Code.allDefinedAt x parts
  | .product parts => Code.allDefinedAt x parts
  | .integerPower b _ => Code.isDefinedAt x b
  | .sqrt b => Code.isDefinedAt x b
  | .square b => Code.isDefinedAt x b
  | .reciprocal b => Code.isDefinedAt x b
  | .reciprocalSquare b => Code.isDefinedAt x b
  | .operation op l r =>
    Code.isDefinedAt x l && (op.isSettledBy (Code.run x l) || Code.isDefinedAt x r)
  | .not a => Code.isDefinedAt x a
  | .routine r args => decide (r.reads ≤ args.length) && Code.allDefinedAt x args
  | .select c t f =>
    Code.isDefinedAt x c &&
      if Code.run x c != 0 then Code.isDefinedAt x t else Code.isDefinedAt x f
  | .table points a =>
    Code.isDefinedAt x a && (Interpolation.interpolate? points (Code.run x a)).isSome

/-- Whether every item has a value. -/
def Code.allDefinedAt (x : Array Float) : List Code → Bool
  | [] => true
  | c :: cs => Code.isDefinedAt x c && Code.allDefinedAt x cs

end

/-- A compiled function of a number of arguments. -/
structure Compiled where
  arity : Nat
  code : Code

namespace Compiled

/-- The value at a list of arguments. -/
def run (c : Compiled) (x : Array Float) : Float := c.code.run x

def isDefinedAt (c : Compiled) (x : Array Float) : Bool := c.code.isDefinedAt x

/-- The value at a list of arguments, if there is one. -/
def run? (c : Compiled) (x : Array Float) : Option Float :=
  if c.isDefinedAt x then some (c.run x) else none

def text (c : Compiled) : String := "CompiledFunction(arity " ++ toString c.arity ++ ")"

end Compiled

namespace Compiler

/-- What variables are compiled to. -/
abbrev Environment := List (Expr × Code)

/-- The code of a variable; of two entries the last one counts. -/
def Environment.find? (env : Environment) (e : Expr) : Option Code :=
  (env.reverse.find? fun (k, _) => k == e).map Prod.snd

/-- A base to a constant exponent: exponents `1/2`, `2`, `-1` and `-2` have operations of their own. -/
def constantPower (base : Code) (n : Rat) : Code :=
  if n = mkRat 1 2 then .sqrt base
  else if n = 2 then .square base
  else if n = -1 then .reciprocal base
  else if n = -2 then .reciprocalSquare base
  else if n.den = 1 && decide (-2147483648 ≤ n.num) && decide (n.num < 2147483648) then
    .integerPower base n.num
  else .operation .power base (.const (Binary64.nearest n))

/-- The operation of a binary operator; bindings and substitutions have none. -/
def operation? : BinaryOp → Option Operation
  | .power => some .power
  | .conj => some .conj
  | .disj => some .disj
  | .equal => some .equal
  | .notEqual => some .notEqual
  | .greater => some .greater
  | .less => some .less
  | .greaterEqual => some .greaterEqual
  | .lessEqual => some .lessEqual
  | .approxEqual => some .approxEqual
  | .arrow => none
  | .substitute => none

/-- Fails for an expression without a numeric value. -/
def fail {α : Type} (cause : NotCompilable) : Result α := .error (.notCompilable cause)

mutual

/-- Compiles an expression. -/
def compile (libraries : List Library) : Expr → Environment → Result Code
  | .const q, _ => .ok (.const (Binary64.nearest q))
  | .var n c, env =>
    match env.find? (.var n c) with
    | some code => .ok code
    | none => .error (.unresolvedName (.unknown n))
  | .sum ts, env => do return .sum (← compileAll libraries ts env)
  | .product fs, env => do return .product (← compileAll libraries fs env)
  | .binary .power b (.const n), env => do return constantPower (← compile libraries b env) n
  | .binary op l r, env =>
    match operation? op with
    | none => fail (.expression (.binary op l r))
    | some operation => do
      let a ← compile libraries l env
      return .operation operation a (← compile libraries r env)
  | .not a, env => do return .not (← compile libraries a env)
  | .call f args, env =>
    match libraries.findSome? fun l => l.get? f.name args.length with
    | some routine => do return .routine routine (← compileAll libraries args env)
    | none => applyCode libraries f (.call f args) args.length (compileAll libraries args env)
  | .set ms, _ => fail (.setOf (.set ms))

/-- Compiles each item. -/
def compileAll (libraries : List Library) : List Expr → Environment → Result (List Code)
  | [], _ => .ok []
  | t :: ts, env => do
    let first ← compile libraries t env
    return first :: (← compileAll libraries ts env)

/-- The code of a function at compiled arguments, where no library has a routine for it: a selection,
a table, or the body with its parameters bound to the arguments. -/
def applyCode (libraries : List Library) : Function → Expr → Nat → Result (List Code) → Result Code
  | .ifThenElse, e, count, args => do
    if count != 3 then fail (.expression e)
    else
      match ← args with
      | [c, t, f] => return .select c t f
      | _ => fail (.expression e)
  | .table _ points, e, count, args => do
    if count != 1 then fail (.expression e)
    else
      match ← args with
      | [a] => return .table points a
      | _ => fail (.expression e)
  | .user name params body, _, count, args => compileBody libraries name count params args body
  | .native f, _, count, _ => fail (.noRoutine f.name count)

/-- Compiles the body of a user function. -/
def compileBody (libraries : List Library) (name : String) (count : Nat) (params : List Expr)
    (args : Result (List Code)) : Option Expr → Result Code
  | none => fail (.noRoutine name count)
  | some body => do compile libraries body (params.zip (← args))

end

end Compiler

/-- Compiles an expression into a function of the variables. -/
def compile (e : Expr) (inputs : List Expr) (libraries : List Library) : Result Compiled := do
  let slots := inputs.zipIdx.map fun (v, i) => (v, Code.slot i)
  return ⟨inputs.length, ← Compiler.compile libraries e slots⟩

/-- Compiles a function of its own parameters. -/
def compileFunction (f : Function) (libraries : List Library) : Result Compiled :=
  compile (.call f f.parameters) f.parameters libraries

end SymbolicAlgebra.Numeric
