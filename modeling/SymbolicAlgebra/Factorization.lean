import SymbolicAlgebra.Polynomial

/-!
# Common factors

`factor` pulls common factors out of sums, the one shared by most terms first; with a variable given,
a sum that is a polynomial in it is factored as a polynomial. Powers are distributed over the
factors of their base. What has no factors stays as it is.
-/

namespace SymbolicAlgebra.Factorization

/-- The number of terms that have `x` among their factors. -/
def countWith (terms : List Expr) (x : Expr) : Nat :=
  (terms.filter fun t => t.factors.contains x).length

/-- The distinct factors of the terms, other than constants, in order. -/
def candidates (terms : List Expr) : List Expr :=
  (terms.flatMap Expr.factors).foldl (fun found f =>
    if f.isConst || found.contains f then found else found ++ [f]) []

/-- The factor of the largest number of terms, the first one of several, with that number. -/
def mostShared? (terms : List Expr) : Option (Expr × Nat) :=
  (candidates terms).foldl (fun best f =>
    let n := countWith terms f
    match best with
    | some (_, m) => if n ≤ m then best else some (f, n)
    | none => some (f, n)) none

/-- The product of the factors of a term without the first occurrence of `x`. -/
def cofactor (x t : Expr) : Expr :=
  .productOf (t.factors.eraseP fun f => f == x)

/-- The sum of the terms with a factor that several of them share pulled out; `none` when no factor
is shared. -/
def pullOut? (terms : List Expr) : Option Expr :=
  match mostShared? terms with
  | none => none
  | some (common, count) =>
    if count < 2 then none
    else
      let (having, rest) := terms.partition fun t => t.factors.contains common
      let pulled := Expr.productOf [common, .sumOf (having.map (cofactor common))]
      some (.sumOf (pulled :: rest))

/-- The powers of the factors of the base. -/
def distributePower (base exponent : Expr) : Expr :=
  .productOf (base.factors.map fun f => .power f exponent)

/-- Factors down to a depth. -/
def factorTo (ctx : Context) : Nat → Option Expr → Expr → Expr
  | 0, _, f => f
  | depth + 1, x, f =>
    match f with
    | .product fs => .productOf (fs.map (factorTo ctx depth x))
    | .binary .power base exponent => distributePower (factorTo ctx depth x base) exponent
    | .sum ts =>
      let byTerms (_ : Unit) : Expr :=
        match pullOut? (ts.map (factorTo ctx depth none)) with
        | none => f
        | some combined => if combined.isSum then factorTo ctx depth none combined else combined
      match x with
      | none => byTerms ()
      | some x =>
        match Polynomial.ofExpr f x ctx with
        | .ok p => p.factored
        | .error _ => byTerms ()
    | _ => f

end SymbolicAlgebra.Factorization

namespace SymbolicAlgebra.Expr

/-- The factors of `f`, with sums factored as polynomials in `x` where they are. -/
def factor (f : Expr) (x : Option Expr) (ctx : Context) : Expr :=
  Factorization.factorTo ctx (Nat.pow (f.size + 10) 2) x f

end SymbolicAlgebra.Expr
