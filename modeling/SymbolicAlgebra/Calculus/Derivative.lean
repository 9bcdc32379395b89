import SymbolicAlgebra.Calculus.Leftover
import SymbolicAlgebra.Reduction.RuleSet

/-!
# Differentiation

Sums, products and powers are differentiated by their rules; calls by a table of chain rules on
`D[f[u], x]`, whose results contain `D[u, x]` and are differentiated further by their evaluation. A
derivative that no rule covers stays as a call of `D`.
-/

namespace SymbolicAlgebra

namespace Derivative

/-- The chain rules of the built-in functions, as rules on `D[f[u], x]`. -/
def rules (ctx : Context) : Result RuleSet := do
  let u := Expr.symbol "u"
  let x := Expr.symbol "x"
  let f (name : String) (arg : Expr) : Result Expr := ctx.call name [arg]
  let d (e : Expr) : Result Expr := ctx.call "D" [e, x]
  let sqrt (e : Expr) : Result Expr := ctx.call "Sqrt" [e]
  let du ← d u
  let oneMinusSquare := Expr.sumOf [1, -(u.pow 2)]
  let squareMinusOne := u.pow 2 - 1
  let squarePlusOne := u.pow 2 + 1
  let absU ← f "Abs" u
  let table : List (String × Expr) := [
    ("Sin", (← f "Cos" u) * du),
    ("Cos", -(← f "Sin" u) * du),
    ("Tan", (← f "Sec" u).pow 2 * du),
    ("Sec", (← f "Sec" u) * (← f "Tan" u) * du),
    ("Csc", -(← f "Csc" u) * (← f "Cot" u) * du),
    ("Cot", -((← f "Csc" u).pow 2) * du),
    ("ArcSin", du / (← sqrt oneMinusSquare)),
    ("ArcCos", -du / (← sqrt oneMinusSquare)),
    ("ArcTan", du / squarePlusOne),
    ("ArcSec", du / (absU * (← sqrt squareMinusOne))),
    ("ArcCsc", -du / (absU * (← sqrt squareMinusOne))),
    ("ArcCot", -du / squarePlusOne),
    ("Sinh", (← f "Cosh" u) * du),
    ("Cosh", (← f "Sinh" u) * du),
    ("Tanh", (← f "Sech" u).pow 2 * du),
    ("Sech", -(← f "Sech" u) * (← f "Tanh" u) * du),
    ("Csch", -(← f "Csch" u) * (← f "Coth" u) * du),
    ("Coth", -((← f "Csch" u).pow 2) * du),
    ("ArcSinh", du / (← sqrt squarePlusOne)),
    ("ArcCosh", du / (← sqrt squareMinusOne)),
    ("ArcTanh", du / oneMinusSquare),
    ("ArcSech", -du / (u * (← sqrt oneMinusSquare))),
    ("ArcCsch", -du / (absU * (← sqrt squarePlusOne))),
    ("ArcCoth", -du / oneMinusSquare),
    ("Abs", (← f "Sign" u) * du),
    ("Sign", 0),
    ("Exp", (← f "Exp" u) * du),
    ("Ln", du / u)]
  let chain ← table.mapM fun (name, result) => return Rule.plain (← d (← f name u)) result
  let antiderivative := Rule.plain (← d (← ctx.call "I" [u, x])) u
  let a := Expr.symbol "a"
  let b := Expr.symbol "b"
  let c := Expr.symbol "c"
  let t := Expr.symbol "t"
  let e := Expr.symbol "f"
  let branch (condition l r : Expr) : Result Expr := do
    ctx.call "If" [condition, ← d l, ← d r]
  let conditional := Rule.plain (← d (← ctx.call "If" [c, t, e])) (← branch c t e)
  let maximum ← ctx.call "Max" [a, b]
  let larger := Rule.plain (← d maximum) (← branch (.binary .greater a b) a b)
  let minimum ← ctx.call "Min" [a, b]
  let smaller := Rule.plain (← d minimum) (← branch (.binary .less a b) a b)
  return RuleSet.ofRules (chain ++ [antiderivative, conditional, larger, smaller]) ctx

/-- What a differentiation does not change. -/
structure Settings where
  context : Context
  /-- The variable. -/
  x : Expr
  /-- The chain rules, which are only built when a call is met. -/
  rules : Thunk (Result RuleSet)

/-- Evaluates an intermediate result without the calls left over so far. -/
def settle (s : Settings) (e : Expr) : WithLeftovers Expr := do
  return e.evaluateHolding (← get) s.context

/-- The derivative by a rule of the table, or the call of `D`. -/
def byRule (s : Settings) (e : Expr) : WithLeftovers Expr := do
  let call ← s.context.call "D" [e, s.x]
  let rules ← s.rules.get
  match rules.reduct? call s.context with
  | some result => return result
  | none => leaveOver call

/-- `d(f^g) = g * f^(g - 1) * df` for a constant exponent. -/
def constantPower (f g df : Expr) : Expr :=
  .productOf [g, .power f (g - 1), df]

/-- `d(f^g) = f^g * (df * g / f + dg * Ln[f])`. -/
def generalPower (f g df dg ln : Expr) : Expr :=
  .productOf [.power f g, .sumOf [.productOf [df, .divide g f], .productOf [dg, ln]]]

mutual

/-- The derivative, not yet evaluated as a whole. -/
def visit (s : Settings) (e : Expr) : WithLeftovers Expr := do
  if e == s.x then return .one
  else if !e.dependsOn s.x then return .zero
  else
    match e with
    | .sum ts => return .sumOf (← visitTerms s ts)
    | .product fs => visitProduct s fs
    | .binary .power f g =>
      let df ← visit s f
      if g.dependsOn s.x then
        let dg ← visit s g
        let ln ← s.context.call "Ln" [f]
        settle s (generalPower f g df dg ln)
      else settle s (constantPower f g df)
    | e => byRule s e

/-- The derivatives of the terms of a sum that are not zero. -/
def visitTerms (s : Settings) : List Expr → WithLeftovers (List Expr)
  | [] => return []
  | t :: ts => do
    let dt ← visit s t
    let rest ← visitTerms s ts
    return if dt.isZero then rest else dt :: rest

/-- The product rule, from the last factor to the first. -/
def visitProduct (s : Settings) : List Expr → WithLeftovers Expr
  | [] => return .zero
  | [l] => visit s l
  | l :: r :: rs => do
    let rest := r :: rs
    let dr ← visitProduct s rest
    if l.dependsOn s.x then
      let dl ← visit s l
      settle s (.sumOf [.productOf (dl :: rest), .productOf [l, dr]])
    else settle s (.productOf [l, dr])

end

end Derivative

/-- The derivative of `f` by `x`; parts that no rule covers stay as calls of `D`. -/
def differentiate (f x : Expr) (ctx : Context) : Result Expr := do
  let settings : Derivative.Settings := ⟨ctx, x, .mk fun _ => Derivative.rules ctx⟩
  let (df, leftovers) ← (Derivative.visit settings f).run []
  return df.evaluateHolding leftovers ctx

/-- The matrix of derivatives of each function by each variable. -/
def jacobian (functions unknowns : List Expr) (ctx : Context) : Result (List (List Expr)) :=
  functions.mapM fun f => unknowns.mapM fun x => differentiate f x ctx

end SymbolicAlgebra
