import SymbolicAlgebra.Reduction.Rule

/-!
# Equivalent forms

The identities between elementary functions as reduction rules, and the enumeration of all forms that
a bounded number of their steps reaches.
-/

namespace SymbolicAlgebra.Equivalence

/-- A factor of a pattern that does not stand for `1`. -/
def properFactor (name : String) : Expr := .pattern name .notOne

/-- The functions that form a trigonometric family, by name. -/
structure Family where
  sin : String
  cos : String
  tan : String
  csc : String
  sec : String
  cot : String

def hyperbolic : Family := ⟨"Sinh", "Cosh", "Tanh", "Csch", "Sech", "Coth"⟩

def circular : Family := ⟨"Sin", "Cos", "Tan", "Csc", "Sec", "Cot"⟩

/-- A function at a negated argument: odd functions change their sign, even ones do not. -/
def parityRule (call : String → Expr → Result Expr) (x : Expr) (name : String) (isOdd : Bool) :
    Result (Expr × Expr) := do
  let value ← call name x
  let result := if isOdd then -value else value
  return (← call name (-x), result)

/-- Parity of the functions of a family: sine, tangent, cosecant and cotangent are odd. -/
def parityRules (call : String → Expr → Result Expr) (x : Expr) (fam : Family) :
    Result (List (Expr × Expr)) :=
  [(fam.sin, true), (fam.cos, false), (fam.tan, true), (fam.csc, true), (fam.sec, false),
    (fam.cot, true)].mapM fun (name, isOdd) => parityRule call x name isOdd

/-- Reciprocals and quotients in a family. -/
def quotientRules (call : String → Expr → Result Expr) (x : Expr) (fam : Family) :
    Result (List (Expr × Expr)) := do
  let s ← call fam.sin x
  let c ← call fam.cos x
  let t ← call fam.tan x
  return [
    (.inverse c, ← call fam.sec x),
    (.inverse s, ← call fam.csc x),
    (.inverse t, ← call fam.cot x),
    (s / c, t),
    (s * (← call fam.sec x), t),
    (c * (← call fam.csc x), ← call fam.cot x)]

/-- The identities explored by simplification. -/
def rules (ctx : Context) : Result (List Rule) := do
  let x := Expr.symbol "x"
  let y := Expr.symbol "y"
  let b := Expr.symbol "b"
  let f (name : String) (a : Expr) : Result Expr := ctx.call name [a]
  let log (a base : Expr) : Result Expr := ctx.call "Log" [a, base]
  let factors := properFactor "x" * properFactor "y"
  let root := (← f "Sqrt" x, Expr.power x (.inverse 2))
  let logOne := (← log 1 x, (0 : Expr))
  let logBase := (← log x x, (1 : Expr))
  let logPower := (← log (.power x y) b, y * (← log x b))
  let logProduct := (← log factors b, (← log x b) + (← log y b))
  let naturalLog ← match ctx.names.resolveValue "e" with
    | .ok e => do pure [(← log x e, ← f "Ln" x)]
    | .error _ => pure []
  let hyperbolicParity ← parityRules f x hyperbolic
  let circularParity ← parityRules f x circular
  let hyperbolicQuotients ← quotientRules f x hyperbolic
  let circularQuotients ← quotientRules f x circular
  let sinh ← f "Sinh" x
  let cosh ← f "Cosh" x
  let tanh ← f "Tanh" x
  let hyperbolicIdentities := [
    (cosh.pow 2 - sinh.pow 2, (1 : Expr)),
    ((← f "Sech" x).pow 2, 1 - tanh.pow 2),
    ((← f "Coth" x).pow 2, 1 + (← f "Csch" x).pow 2),
    ((← f "Exp" x) - (← f "Exp" (-x)), 2 * sinh),
    ((← f "Exp" x) + (← f "Exp" (-x)), 2 * cosh),
    (cosh + sinh, ← f "Exp" x),
    (cosh - sinh, ← f "Exp" (-x))]
  let sin ← f "Sin" x
  let cos ← f "Cos" x
  let tan ← f "Tan" x
  let circularIdentities := [
    (sin.pow 2 + cos.pow 2, (1 : Expr)),
    (1 + tan.pow 2, (← f "Sec" x).pow 2),
    (1 + (← f "Cot" x).pow 2, (← f "Csc" x).pow 2)]
  let logarithms := [
    (← f "Ln" factors, (← f "Ln" x) + (← f "Ln" y)),
    (← f "Ln" (.power x y), y * (← f "Ln" x))]
  let all := [root] ++ naturalLog ++ [logOne, logBase, logPower, logProduct] ++ hyperbolicParity ++
    circularParity ++ hyperbolicQuotients ++ circularQuotients ++ hyperbolicIdentities ++
    circularIdentities ++ logarithms
  return all.map fun (pattern, result) => Rule.plain pattern result

/-- Adds `x` and, depth first, the forms that the rules reach from it, unless they are found already. -/
def enumerate (rules : List Rule) (ctx : Context) : Nat → Expr → List Expr → List Expr
  | 0, x, found => if found.contains x then found else found ++ [x]
  | depth + 1, x, found =>
    if found.contains x then found
    else
      rules.foldl (fun found rule =>
        match rule.reduct? x ctx with
        | some y => if y == x then found else enumerate rules ctx depth y found
        | none => found) (found ++ [x])

end SymbolicAlgebra.Equivalence

namespace SymbolicAlgebra.Expr

/-- `x` and the forms found by at most `depth` steps, each once. -/
def equivalents (x : Expr) (rules : List Rule) (depth : Nat) (ctx : Context) : List Expr :=
  Equivalence.enumerate rules ctx depth x []

end SymbolicAlgebra.Expr
