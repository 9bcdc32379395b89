import SymbolicAlgebra.Expansion

/-!
# Linear combinations

An expression as `A₁*b₁ + ⋯ + Aₙ*bₙ + A₀` for a basis of unknowns: the row of a linear system. The
constant part belongs to the basis element `1`, which comes last.
-/

namespace SymbolicAlgebra

/-- Coefficients of basis elements, the constant part last. -/
structure LinearCombination where
  terms : List (Expr × Expr)

namespace LinearCombination

/-- All coefficients zero. -/
def zero (basis : List Expr) : LinearCombination :=
  ⟨basis.map (fun b => (b, .zero)) ++ [(.one, .zero)]⟩

/-- The coefficient of a basis element; `0` for anything else. -/
def coefficient (c : LinearCombination) (b : Expr) : Expr :=
  ((c.terms.find? fun (i, _) => i == b).map Prod.snd).getD .zero

/-- Sets the coefficient of the first element equal to `b` in a list of terms. -/
def setIn (b value : Expr) : List (Expr × Expr) → List (Expr × Expr)
  | [] => []
  | (i, a) :: rest => if i == b then (i, value) :: rest else (i, a) :: setIn b value rest

/-- Sets the coefficient of `b`, if it is in the basis. -/
def set (c : LinearCombination) (b value : Expr) : LinearCombination :=
  ⟨setIn b value c.terms⟩

/-- Adds to the coefficient of `b`. -/
def addTo (c : LinearCombination) (b amount : Expr) (ctx : Context) : LinearCombination :=
  c.set b ((Expr.sumOf [c.coefficient b, amount]).evaluate ctx)

/-- The first basis element by which `t` can be divided so that no basis element remains, with the
quotient. -/
def divideTerm? (basis : List Expr) (t : Expr) (ctx : Context) : Option (Expr × Expr) :=
  if t.dependsOnAny basis then
    basis.findSome? fun b =>
      let quotient := (Expr.divide t b).evaluate ctx
      if quotient.dependsOnAny basis then none else some (b, quotient)
  else none

/-- Adds a term to the coefficient of the basis element that divides it, or to the constant part. -/
def addTerm (basis : List Expr) (ctx : Context) (c : LinearCombination) (t : Expr) :
    LinearCombination :=
  match divideTerm? basis t ctx with
  | some (b, quotient) => c.addTo b quotient ctx
  | none => c.addTo .one t ctx

/-- The linear combination of an expression, read off its expanded terms. -/
def ofExpr (basis : List Expr) (e : Expr) (ctx : Context) : LinearCombination :=
  (e.expandPlain ctx).terms.foldl (addTerm basis ctx) (zero basis)

/-- The combination as a sum. -/
def toExpr (c : LinearCombination) : Expr :=
  .sumOf ((c.terms.filter fun (_, a) => !a.isZero).map fun (b, a) => .productOf [a, b])

/-- The first basis element other than `1` with a nonzero coefficient, with that coefficient. -/
def pivot? (c : LinearCombination) : Option (Expr × Expr) :=
  c.terms.find? fun (b, a) => !a.isZero && !b.isOne

def pivotVariable? (c : LinearCombination) : Option Expr :=
  c.pivot?.map Prod.fst

/-- Whether `x` is the pivot variable. -/
def hasPivot (c : LinearCombination) (x : Expr) : Bool :=
  c.pivotVariable? == some x

/-- Whether every coefficient is free of its own basis element. -/
def isLinear (c : LinearCombination) : Bool :=
  c.terms.all fun (b, a) => !a.dependsOn b

/-- The value of `v` for which the combination is zero. -/
def solveFor (c : LinearCombination) (v : Expr) (ctx : Context) : Expr :=
  let others := c.terms.filter fun (b, a) => b != v && !a.isZero
  let rest := Expr.sumOf (others.map fun (b, a) => .productOf [a, b])
  (Expr.divide rest (.negate (c.coefficient v))).evaluate ctx

/-- All coefficients multiplied by `r`. -/
def scale (c : LinearCombination) (r : Expr) (ctx : Context) : LinearCombination :=
  ⟨c.terms.map fun (b, a) => (b, (Expr.productOf [a, r]).evaluate ctx)⟩

/-- The sum with `m` times another combination. -/
def addScaled (c : LinearCombination) (m : Expr) (other : LinearCombination) (ctx : Context) :
    LinearCombination :=
  ⟨c.terms.map fun (b, a) =>
    (b, (Expr.sumOf [a, .productOf [other.coefficient b, m]]).evaluate ctx)⟩

end LinearCombination

end SymbolicAlgebra
