import SymbolicAlgebra.Evaluation.Memo
import SymbolicAlgebra.Evaluation.Tally
import SymbolicAlgebra.Substitution

/-!
# The evaluator

Evaluation computes what can be computed exactly, collects like terms and like bases, and applies
functions to evaluated arguments. It never fails: a call whose function fails stays as it is, and
the failure is recorded. An evaluator keeps its results, so that an expression is evaluated once
however often it occurs; an expression met again inside its own evaluation is left as it is.

The step for each kind of expression (`visitSum`, `visitProduct`, …) is written against the
recursive visit that it is given, in whatever monad that visit runs; `visitTo` ties the knot over the
memo table with a bound on the depth, and beyond the bound expressions are left as they are.
-/

namespace SymbolicAlgebra

namespace Evaluator

/-- What an evaluation does not change: the context, and the calls that are not to be applied. -/
structure Settings where
  context : Context
  held : List Expr

/-- What an evaluation has found: results, and the calls that failed, in order. -/
structure State where
  memo : Memo
  failures : List (Expr × AlgebraError)

def State.empty : State := ⟨.empty, []⟩

/-- A visit of one expression. -/
abbrev Visit (m : Type → Type) := Expr → m Expr

/-- The result of an earlier visit of `e`, or that of `compute`, which is then kept. -/
def memoized (compute : Visit (StateM State)) (e : Expr) : StateM State Expr := do
  match (← get).memo.find? e with
  | some (.done result) => return result
  | some .inFlight => return e
  | none =>
    modify fun s => { s with memo := s.memo.start e }
    let result ← compute e
    modify fun s => { s with memo := s.memo.finish e result }
    return result

/-- `result`, or `e` when the two are equal. -/
def keepIfEqual (e result : Expr) : Expr :=
  if result == e then e else result

variable {m : Type → Type} [Monad m]

/-- Visits items in order. -/
def visitList (visit : Visit m) : List Expr → m (List Expr)
  | [] => return []
  | t :: ts => do
    let visited ← visit t
    return visited :: (← visitList visit ts)

/-! ### Powers -/

/-- A power of evaluated operands where the base is no power: powers of `0` and `1`, exponents `0`
and `1`, and powers of constants that have a value. -/
def simplePower (base exponent : Expr) : Expr :=
  if base.isZero then .zero
  else if base.isOne then .one
  else if exponent.isZero then .one
  else if exponent.isOne then base
  else
    match base, exponent with
    | .const b, .const x =>
      match Rational.pow? b x with
      | some value => .const value
      | none => .power base exponent
    | _, _ => .power base exponent

/-- A power of evaluated operands; the exponents of a power of a power are multiplied. -/
def raise (visit : Visit m) (base exponent : Expr) : m Expr := do
  match base with
  | .binary .power b x => return simplePower b (← visit (Expr.productOf [exponent, x]))
  | _ => return simplePower base exponent

/-- A product to a power is the product of the powers of its factors. -/
def visitPower (visit : Visit m) (base exponent : Expr) : m Expr := do
  let l ← visit base
  match l with
  | .product fs => visit (Expr.productOf (fs.map fun f => Expr.power f exponent))
  | _ => raise visit l (← visit exponent)

/-! ### Sums and products -/

/-- `x * t` for a term `t`, with the product distributed over the terms of `x`. -/
def distributeTerm (visit : Visit m) (x t : Expr) : m Expr := do
  match x with
  | .sum us => return Expr.collect ((← visitList visit (us.map fun u => Expr.productOf [t, u])).flatMap Expr.terms)
  | _ => visit (Expr.productOf [x, t])

/-- Distributes `x` over each of a list of terms. -/
def distributeOver (visit : Visit m) (x : Expr) : List Expr → m (List Expr)
  | [] => return []
  | t :: ts => do
    let first ← distributeTerm visit x t
    return first.terms ++ (← distributeOver visit x ts)

/-- `x * a`, multiplied out over the terms of both. -/
def distribute (visit : Visit m) (x a : Expr) : m Expr := do
  if a.isSum || x.isSum then return Expr.collect (← distributeOver visit x a.terms)
  else visit (Expr.productOf [a, x])

def visitSum (visit : Visit m) (ts : List Expr) : m Expr := do
  return Expr.collect ((← visitList visit ts).flatMap Expr.terms)

/-- A factor as base and constant exponent. -/
def splitExponent : Expr → Expr × Rat
  | .binary .power b (.const x) => (b, x)
  | e => (e, 1)

/-- A product as its constant factor and the exponents of its bases. -/
structure Bases where
  constant : Rat
  exponents : Tally

/-- The bases of a list of factors, equal ones combined. -/
def Bases.ofFactors (fs : List Expr) : Bases :=
  ⟨(fs.filterMap Expr.asConst?).foldl (· * ·) 1,
    (fs.filter fun f => !f.isConst).foldl
      (fun tally f => let (b, x) := splitExponent f; tally.add b x) Tally.empty⟩

/-- The product of the bases; exponents `0` vanish and exponents `1` are not written. -/
def Bases.product (b : Bases) : Expr :=
  let power : Expr × Rat → Expr := fun (base, x) => if x = 1 then base else .power base (.const x)
  Expr.productOf ((if b.constant = 1 then [] else [.const b.constant]) ++
    (b.exponents.entries.filter fun (_, x) => x != 0).map power)

/-- The first sum among the bases with exponent `1` or `-1`, with the factor by which its terms
absorb the constant. -/
def Bases.absorber? (b : Bases) : Option (Expr × Rat × Rat) :=
  match b.exponents.entries.find? fun (base, x) => (x == 1 || x == -1) && base.isSum with
  | some (base, x) =>
    if x < 0 then (Rational.inverse? b.constant).map fun scale => (base, x, scale)
    else some (base, x, b.constant)
  | none => none

/-- Multiplies the constant into a sum: `c * (a + b) = c*a + c*b` and `c / (a + b) = 1 / (a/c + b/c)`. -/
def Bases.absorbConstant (visit : Visit m) (b : Bases) : m Bases := do
  if b.constant = 1 then return b
  match b.absorber? with
  | none => return b
  | some (base, x, scale) =>
    let others := b.exponents.erase base
    let distributed ← distribute visit (.const scale) base
    match distributed with
    | .const r =>
      match Rational.pow? r x with
      | some value => return ⟨value, others⟩
      | none => return ⟨1, (others.erase distributed).add distributed x⟩
    | _ => return ⟨1, others.add distributed x⟩

def visitProduct (visit : Visit m) (fs : List Expr) : m Expr := do
  let bases := Bases.ofFactors ((← visitList visit fs).flatMap Expr.factors)
  if bases.constant = 0 then return .zero
  return (← bases.absorbConstant visit).product

/-! ### Relations and logic -/

/-- Constants that differ by less than this part of the larger one are approximately equal. -/
def approximationTolerance : Float := 1e-12

/-- Equality up to the relative tolerance. -/
def approximatelyEqual (a b : Rat) : Bool :=
  let scale := if a.abs > b.abs then a.abs else b.abs
  a == b ||
    Binary64.nearest (a - b).abs < approximationTolerance * Binary64.nearest scale

/-- The truth of a relation between constants; `none` for the other operators. -/
def holds? (op : BinaryOp) (a b : Rat) : Option Bool :=
  match op with
  | .equal => some (a == b)
  | .notEqual => some (a != b)
  | .less => some (decide (a < b))
  | .greater => some (decide (b < a))
  | .lessEqual => some (decide (a ≤ b))
  | .greaterEqual => some (decide (b ≤ a))
  | .approxEqual => some (approximatelyEqual a b)
  | _ => none

/-- The truth of evaluated operands under a connective or relation, as far as it is known without
comparing constants. -/
def connect? (op : BinaryOp) (l r : Expr) : Option Bool :=
  match op with
  | .conj =>
    if l.isZero || r.isZero then some false
    else if l.isTrue && r.isTrue then some true
    else none
  | .disj =>
    if l.isTrue || r.isTrue then some true
    else if l.isZero && r.isZero then some false
    else none
  | .equal | .approxEqual => if l == r then some true else none
  | .notEqual => if l == r then some false else none
  | _ => none

/-- The truth of evaluated operands, as far as it is known. -/
def decide? (op : BinaryOp) (l r : Expr) : Option Bool :=
  match l, r with
  | .const a, .const b => (holds? op a b).or (connect? op l r)
  | _, _ => connect? op l r

/-- A binary operator on operands that are evaluated first. -/
def visitBinary (visit : Visit m) (op : BinaryOp) (left right : Expr) : m Expr := do
  let l ← visit left
  let r ← visit right
  if op = .substitute then visit (l.substitute (.ofArrows r.members))
  else
    match decide? op l r with
    | some truth => return .boolean truth
    | none => return .binary op l r

def visitNot (visit : Visit m) (operand : Expr) : m Expr := do
  let o ← visit operand
  return if o.isTrue then .boolean false else if o.isZero then .boolean true else .not o

/-! ### Calls -/

/-- Applies the function to the evaluated arguments, unless the call is held. -/
def visitCall (settings : Settings) (visit : Visit (StateM State)) (e : Expr) (f : Function) (args : List Expr) :
    StateM State Expr := do
  let args ← visitList visit args
  let call := Expr.call f args
  if settings.held.contains e || settings.held.contains call || !f.canCall args.length then
    return call
  match settings.context.apply f args with
  | .ok (some result) => return keepIfEqual call result
  | .ok none => return call
  | .error cause =>
    modify fun s => { s with failures := s.failures ++ [(call, cause)] }
    return call

/-! ### The visit -/

/-- Evaluates one node; `apply` says what becomes of a call. -/
def step (visit : Visit m) (apply : Expr → Function → List Expr → m Expr) (e : Expr) : m Expr := do
  match e with
  | .const _ | .var .. => return e
  | .sum ts => return keepIfEqual e (← visitSum visit ts)
  | .product fs => return keepIfEqual e (← visitProduct visit fs)
  | .binary .power b x => return keepIfEqual e (← visitPower visit b x)
  | .binary op l r => return keepIfEqual e (← visitBinary visit op l r)
  | .not a => return keepIfEqual e (← visitNot visit a)
  | .call f args => apply e f args
  | .set ms => return Expr.setOf (← visitList visit ms)

/-- Evaluation down to a depth. -/
def visitTo (settings : Settings) : Nat → Visit (StateM State)
  | 0, e => return e
  | depth + 1, e =>
    let visit := visitTo settings depth
    memoized (step visit (visitCall settings visit)) e

/-- The depth set aside for an expression: far more than its nesting, since evaluation also visits
products and substituted expressions that it builds on the way. -/
def depthFor (e : Expr) : Nat :=
  Nat.pow (e.size + 1000) 3

end Evaluator

open Evaluator

/-- An evaluator with all it has found so far. -/
structure Evaluator where
  settings : Settings
  state : State

namespace Evaluator

/-- An evaluator that has not seen anything. -/
def new (ctx : Context) : Evaluator := ⟨⟨ctx, []⟩, .empty⟩

/-- An evaluator that evaluates the arguments of the held calls but never applies their functions. -/
def holding (ctx : Context) (held : List Expr) : Evaluator := ⟨⟨ctx, held⟩, .empty⟩

/-- Runs a visit and keeps what it finds. -/
def run {α : Type} (v : Evaluator) (action : StateM State α) : α × Evaluator :=
  let (a, state) := action.run v.state
  (a, { v with state := state })

/-- Evaluates an expression. -/
def visit (v : Evaluator) (e : Expr) : Expr × Evaluator :=
  v.run (visitTo v.settings (depthFor e) e)

/-- Evaluates `x * a`, multiplied out. -/
def multiplyOut (v : Evaluator) (x a : Expr) : Expr × Evaluator :=
  v.run (distribute (visitTo v.settings (depthFor (Expr.productOf [x, a]))) x a)

/-- Evaluates expressions one after the other. -/
def visitAll (v : Evaluator) (es : List Expr) : List Expr × Evaluator :=
  v.run (visitList (fun e => visitTo v.settings (depthFor e) e) es)

/-- The calls that failed so far, with the causes. -/
def failures (v : Evaluator) : List (Expr × AlgebraError) := v.state.failures

end Evaluator

/-! ### Evaluation of single expressions -/

namespace Expr

/-- The evaluated form. -/
def evaluate (f : Expr) (ctx : Context) : Expr :=
  ((Evaluator.new ctx).visit f).1

/-- The evaluated form, with the held calls kept as calls. -/
def evaluateHolding (f : Expr) (held : List Expr) (ctx : Context) : Expr :=
  ((Evaluator.holding ctx held).visit f).1

/-- The evaluated form after the substitution of the arrows. -/
def evaluateAt (f : Expr) (arrows : List Expr) (ctx : Context) : Expr :=
  (f.substitute (.ofArrows arrows)).evaluate ctx

/-- The evaluated forms after a substitution, from one evaluator. -/
def evaluateAll (fs : List Expr) (b : Bindings) (ctx : Context) : List Expr :=
  ((Evaluator.new ctx).visitAll (fs.map fun f => f.substitute b)).1

/-- `x * a`, multiplied out and evaluated. -/
def distribute (x a : Expr) (ctx : Context) : Expr :=
  ((Evaluator.new ctx).multiplyOut x a).1

end Expr

end SymbolicAlgebra
