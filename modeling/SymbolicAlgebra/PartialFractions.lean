import SymbolicAlgebra.Factorization
import SymbolicAlgebra.LinearSystem

/-!
# Partial fractions

A quotient `n / d` as a sum of a polynomial and of terms `p(x) / e(x)^j`, one group for each factor
`e^m` of the denominator. The factors are made monic, the numerators are set up with unknown
coefficients, and these are found by comparing the coefficients of the two sides.
-/

namespace SymbolicAlgebra

namespace PartialFractions

/-- A fraction with an unknown numerator. -/
structure Piece where
  numerator : Expr
  /-- The reciprocal of a power of a monic factor. -/
  reciprocal : Expr

/-- What the factors of a denominator contribute. -/
structure Setup where
  unknowns : List Expr
  pieces : List Piece
  /-- Powers of the leading coefficients. -/
  leads : List Expr
  /-- The powers of the monic factors that depend on the variable. -/
  monicFactors : List Expr

/-- Adds one piece whose numerator is of a degree below `degree`, with new unknowns. -/
def Setup.addPiece (x monic : Expr) (degree : Nat) (s : Setup) (j : Nat) : Setup :=
  let fresh := (List.range degree).map fun k => Expr.symbol ("_A" ++ toString (s.unknowns.length + k))
  let numerator := Expr.sumOf (fresh.zipIdx.map fun (a, k) => Polynomial.term x (k : Int) a)
  { s with
    unknowns := s.unknowns ++ fresh
    pieces := s.pieces ++ [⟨numerator, .power monic (.int (-(j + 1 : Nat)))⟩] }

/-- Adds the pieces of one factor of the denominator. -/
def Setup.addFactor (x : Expr) (ctx : Context) (s : Setup) (factor : Expr) : Result Setup := do
  let multiplicity := factor.integralExponent
  let e := if multiplicity = 1 then factor else factor.base
  if multiplicity < 1 then refuse (.notDenominatorFactor factor)
  else
    let p ← Polynomial.ofExpr e x ctx
    let lead := p.coefficient p.degree
    let s := { s with leads := s.leads ++ [.power lead (.int multiplicity)] }
    if p.degree = 0 then return s
    let monic := Expr.distribute (.inverse lead) e ctx
    let s := (List.range multiplicity.toNat).foldl (Setup.addPiece x monic p.degree.toNat) s
    return { s with monicFactors := s.monicFactors ++ [.power monic (.int multiplicity)] }

/-- The polynomial in `x` of an expression, after evaluation and expansion. -/
def expandedPolynomial (e x : Expr) (ctx : Context) : Result Polynomial :=
  Polynomial.ofExpr ((e.evaluate ctx).expandPlain ctx) x ctx

/-- The terms of the pieces multiplied by the denominator. -/
def Setup.multipliedOut (s : Setup) (denominator : Expr) (ctx : Context) : Expr :=
  Expr.collect (s.pieces.flatMap fun piece =>
    let product := Expr.productOf [denominator, piece.numerator, piece.reciprocal]
    ((product.evaluate ctx).expandPlain ctx).terms)

/-- The values of the unknown coefficients, from `remainder = right` degree by degree. -/
def Setup.coefficients (s : Setup) (remainder right : Polynomial) (ctx : Context) : Bindings :=
  let degree := (max remainder.degree right.degree).toNat
  let equations := (List.range (degree + 1)).map fun (i : Nat) =>
    Expr.equal (remainder.coefficient i) (right.coefficient i)
  .ofArrows (solve equations s.unknowns ctx)

/-- The pieces with their numerators filled in; those that vanish are left out. -/
def Setup.filled (s : Setup) (values : Bindings) (ctx : Context) : List Expr :=
  s.pieces.filterMap fun piece =>
    let numerator := (piece.numerator.substitute values).evaluate ctx
    if numerator.isZero then none else some (.productOf [numerator, piece.reciprocal])

end PartialFractions

open PartialFractions

/-- `n / d` in partial fractions of `x`, where `d` is taken as a product of powers of polynomials. -/
def partialFractions (n d x : Expr) (ctx : Context) : Result Expr := do
  let s ← d.factors.foldlM (Setup.addFactor x ctx) ⟨[], [], [], []⟩
  if s.pieces.isEmpty then refuse (.freeDenominator d x)
  else
    let numerator ← expandedPolynomial (.productOf [n, .inverse (.productOf s.leads)]) x ctx
    let monic := Expr.productOf s.monicFactors
    let denominator ← expandedPolynomial monic x ctx
    let (quotient, remainder) ←
      if denominator.degree ≤ numerator.degree then numerator.divide denominator ctx
      else .ok (⟨[], x⟩, numerator)
    let right ← Polynomial.ofExpr (s.multipliedOut monic ctx) x ctx
    let values := s.coefficients remainder right ctx
    let whole := if quotient.isZero then [] else quotient.toExpr.terms
    return .sumOf (whole ++ s.filled values ctx)

namespace Expr

/-- The partial fractions, or `none` when `n / d` is no rational function of `x`. -/
def partialFractions? (n d x : Expr) (ctx : Context) : Result (Option Expr) :=
  match partialFractions n d x ctx with
  | .ok e => .ok (some e)
  | .error (.invalidArgument _) => .ok none
  | .error cause => .error cause

/-- The reciprocal factors of a base for a negative exponent. -/
def reciprocalFactor (n : Int) (factor : Expr) : Expr :=
  if n = -1 then factor else power factor (int (-n))

mutual

/-- Distributes products and powers over sums, and splits quotients in `x` into partial fractions. -/
def expandIn (x : Expr) (ctx : Context) : Expr → Result Expr
  | sum ts => do return collect ((← expandInList x ctx ts).flatMap terms)
  | product fs => do
    let f := product fs
    let d := (denominator f).factor (some x) ctx
    let split ← if d.isProduct then partialFractions? (numerator f) d x ctx else pure none
    match split with
    | some e => return e
    | none => return multiplyOut f (← expandInList x ctx fs) ctx
  | binary .power base exponent => do
    let f := power base exponent
    let n := f.integralExponent
    if n < 0 then
      let d := productOf ((base.factor (some x) ctx).factors.map (reciprocalFactor n))
      return (← partialFractions? one d x ctx).getD f
    else return expandPower f base ctx
  | binary op l r => return binary op (l.expandPlain ctx) (r.expandPlain ctx)
  | not a => return not (a.expandPlain ctx)
  | const q => return const q
  | var n c => return var n c
  | call f args => return call f args
  | set ms => return set ms

/-- Expands each item. -/
def expandInList (x : Expr) (ctx : Context) : List Expr → Result (List Expr)
  | [] => return []
  | t :: ts => return (← expandIn x ctx t) :: (← expandInList x ctx ts)

end

/-- The expanded form; with a variable given, quotients in it are split into partial fractions. -/
def expand (f : Expr) (x : Option Expr) (ctx : Context) : Result Expr :=
  match x with
  | none => .ok (f.expandPlain ctx)
  | some x => expandIn x ctx f

end Expr

end SymbolicAlgebra
