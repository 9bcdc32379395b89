import SymbolicAlgebra.Matching

/-!
# Polynomials in one variable

Coefficients by degree, where the coefficients are expressions free of the variable and degrees may
be negative. A sum is read as a polynomial term by term, by matching each term with `c * x^n`.
-/

namespace SymbolicAlgebra

/-- A polynomial: its nonzero coefficients by ascending degree. -/
structure Polynomial where
  coefficients : List (Int × Expr)
  indeterminate : Expr

namespace Polynomial

/-- A map from degrees in ascending order. -/
abbrev ByDegree (α : Type) := List (Int × α)

/-- Changes the value at a degree, which starts from `initial`. -/
def update {α : Type} (degree : Int) (initial : α) (change : α → α) : ByDegree α → ByDegree α
  | [] => [(degree, change initial)]
  | (d, a) :: rest =>
    if degree < d then (degree, change initial) :: (d, a) :: rest
    else if degree = d then (d, change a) :: rest
    else (d, a) :: update degree initial change rest

/-- The polynomial of coefficients by ascending degree, less those that are zero. -/
def ofCoefficients (coefficients : ByDegree Expr) (x : Expr) : Polynomial :=
  ⟨coefficients.filter fun (_, c) => !c.isZero, x⟩

/-- The polynomial of pairs of degree and coefficient; the last pair of a degree counts. -/
def ofPairs (pairs : List (Int × Expr)) (x : Expr) : Polynomial :=
  ofCoefficients (pairs.foldl (fun m (d, c) => update d c (fun _ => c) m) []) x

/-- The coefficient of a term. -/
def coefficientPattern (x : Expr) : Expr := .pattern "_c" (.free x)

/-- The degree of a term. -/
def degreePattern : Expr := .pattern "_n" .integer

/-- The pattern `c * x^n` of a term. -/
def termPattern (x : Expr) : Expr :=
  .productOf [coefficientPattern x, .power x degreePattern]

/-- A term of the polynomial `f` in `x` as degree and coefficient. -/
def readTerm (f x t : Expr) (ctx : Context) : Result (Int × Expr) := do
  match ← (termPattern x).matchWith t [.arrow x x] ctx with
  | none => refuse (.notPolynomial f x)
  | some b =>
    match ((b.get? degreePattern).bind Expr.asConst?).bind Rational.toInt64? with
    | some n => return (n, (b.get? (coefficientPattern x)).getD .one)
    | none => refuse (.degreeTooLarge t)

/-- Reads `f` as a polynomial in `x`. -/
def ofExpr (f x : Expr) (ctx : Context) : Result Polynomial := do
  let terms ← f.terms.mapM fun t => readTerm f x t ctx
  let sums := terms.foldl (fun m (n, c) => update n [] (fun cs => cs ++ [c]) m) []
  return ofCoefficients (sums.map fun (n, cs) => (n, (Expr.sumOf cs).evaluate ctx)) x

/-- The coefficient of a degree; `0` if there is no such term. -/
def coefficient (p : Polynomial) (degree : Int) : Expr :=
  ((p.coefficients.find? fun (d, _) => d == degree).map Prod.snd).getD .zero

/-- The largest degree, but at least `0`. -/
def degree (p : Polynomial) : Int :=
  max 0 ((p.coefficients.getLast?.map Prod.fst).getD 0)

def isZero (p : Polynomial) : Bool := p.coefficients.isEmpty

/-- The term of a degree. -/
def term (x : Expr) (degree : Int) (c : Expr) : Expr :=
  if degree = 0 then c
  else if degree = 1 then .productOf [c, x]
  else .productOf [c, .power x (.int degree)]

/-- The polynomial as a sum of its terms. -/
def toExpr (p : Polynomial) : Expr :=
  .sumOf (p.coefficients.map fun (d, c) => term p.indeterminate d c)

/-- The powers of the variable that all terms share, times the rest. -/
def factored (p : Polynomial) : Expr :=
  match p.coefficients with
  | [] => .zero
  | (lowest, _) :: _ =>
    if lowest ≤ 0 then p.toExpr
    else
      let rest : Polynomial := ⟨p.coefficients.map fun (d, c) => (d - lowest, c), p.indeterminate⟩
      .productOf [if lowest = 1 then p.indeterminate else .power p.indeterminate (.int lowest), rest.toExpr]

/-- Quotient and remainder while a division goes on. -/
structure Division where
  quotient : ByDegree Expr
  remainder : ByDegree Expr

/-- Subtracts the multiple of the divisor that cancels the leading term `c * x^top` of the
remainder. The leading term is removed even if its coefficient does not evaluate to zero. -/
def Division.cancelLeading (d : Polynomial) (ctx : Context) (top : Int) (c : Expr)
    (state : Division) : Division :=
  let t := (Expr.divide c (d.coefficient d.degree)).evaluate ctx
  let shift := top - d.degree
  let subtracted := d.coefficients.foldl (fun r (i, di) =>
    update (i + shift) .zero
      (fun old => (Expr.subtract old (.productOf [di, t])).evaluate ctx) r) state.remainder
  ⟨update shift t (fun _ => t) state.quotient,
    (subtracted.filter fun (i, _) => i != top).filter fun (_, c) => !c.isZero⟩

/-- Cancels leading terms until the remainder is of lower degree than the divisor. -/
def Division.run (d : Polynomial) (ctx : Context) : Nat → Division → Division
  | 0, state => state
  | steps + 1, state =>
    match state.remainder.getLast? with
    | none => state
    | some (top, c) =>
      if top < d.degree then state
      else Division.run d ctx steps (state.cancelLeading d ctx top c)

/-- Quotient and remainder of `n` by `d`. Every step lowers the degree of the remainder, so the
difference of the degrees bounds the number of steps. -/
def divide (n d : Polynomial) (ctx : Context) : Result (Polynomial × Polynomial) :=
  if n.indeterminate != d.indeterminate then refuse (.mixedPolynomials n.indeterminate d.indeterminate)
  else if d.isZero then refuse .zeroDivisor
  else
    let steps := (n.degree - d.degree + 1).toNat
    let final := Division.run d ctx steps ⟨[], n.coefficients⟩
    .ok (ofCoefficients final.quotient n.indeterminate, ofCoefficients final.remainder n.indeterminate)

/-- The text of a polynomial, in parentheses. -/
def text (p : Polynomial) : String := "(" ++ p.toExpr.text ++ ")"

end Polynomial

end SymbolicAlgebra
