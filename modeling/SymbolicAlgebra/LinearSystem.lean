import SymbolicAlgebra.LinearCombination

/-!
# Linear systems

Systems of linear equations, solved by Gaussian elimination over rows that are never reordered. For
each unknown the pivot is sought among the rows that start with it; a row with a larger constant
pivot is preferred, and one whose coefficients depend on the unknowns is a last resort.
-/

namespace SymbolicAlgebra

/-- The rows of a system, each of which is to be zero. -/
abbrev LinearSystem := List LinearCombination

namespace LinearSystem

/-- The two sides' difference for an equation; anything else is to be zero itself. -/
def equalToZero (equation : Expr) : Expr :=
  match equation.asEqual? with
  | some (l, r) => .subtract l r
  | none => equation

/-- The rows of the equations in the unknowns. -/
def ofEquations (equations unknowns : List Expr) (ctx : Context) : LinearSystem :=
  equations.map fun e => .ofExpr unknowns (equalToZero e) ctx

/-- How good a pivot a row offers: the magnitude of a constant pivot as a double, and less than any
magnitude when the pivot is not constant or the row not linear. -/
def score (row : LinearCombination) : Int :=
  match row.pivot? with
  | some (_, .const q) =>
    if row.isLinear then
      if q = 0 then 0 else (Binary64.magnitudeBits q.num.natAbs q.den : Nat)
    else -1
  | _ => -1

/-- The better one of the best row so far and another row that starts with the unknown. -/
def better (best : Option (Nat × Int)) (i : Nat) (row : LinearCombination) : Option (Nat × Int) :=
  match best with
  | some (_, s) => if score row > s then some (i, score row) else best
  | none => some (i, score row)

/-- The best pivot row for `x`: the first with the highest score of those that start with `x`. -/
def findPivot? (system : LinearSystem) (x : Expr) : Option Nat :=
  (system.zipIdx.foldl (fun best (row, i) => if row.hasPivot x then better best i row else best)
    none).map Prod.fst

/-- Adds the multiple of the pivot row that cancels `x` from a row. -/
def cancel (pivotRow : LinearCombination) (x : Expr) (ctx : Context) (row : LinearCombination) :
    LinearCombination :=
  row.addScaled (.divide (row.coefficient x) (.negate (pivotRow.coefficient x))) pivotRow ctx

/-- Cancels `x` from all rows that start with it, other than the pivot row at `p`. The cancelled
coefficient is set to zero even if it does not evaluate to it. -/
def eliminateAt (system : LinearSystem) (p : Nat) (pivotRow : LinearCombination) (x : Expr)
    (ctx : Context) : LinearSystem :=
  system.zipIdx.map fun (row, i) =>
    if i = p || !row.hasPivot x then row else (cancel pivotRow x ctx row).set x .zero

/-- A search for the row of a system that serves as the pivot row for an unknown. -/
abbrev PivotSearch := LinearSystem → Expr → Option Nat

/-- Cancels `x` from all rows that start with it but the one that the search finds. -/
def eliminateBy (search : PivotSearch) (ctx : Context) (system : LinearSystem) (x : Expr) :
    LinearSystem :=
  match search system x with
  | none => system
  | some p =>
    match system[p]? with
    | none => system
    | some pivotRow => eliminateAt system p pivotRow x ctx

/-- The row echelon form in the order of the unknowns, with the pivot rows that the search finds. -/
def rowReduceBy (search : PivotSearch) (system : LinearSystem) (unknowns : List Expr)
    (ctx : Context) : LinearSystem :=
  unknowns.foldl (eliminateBy search ctx) system

/-- The row echelon form in the order of the unknowns. -/
def rowReduce (system : LinearSystem) (unknowns : List Expr) (ctx : Context) : LinearSystem :=
  rowReduceBy findPivot? system unknowns ctx

/-- Cancels the pivot variable of the row at `p` from the other rows. -/
def substituteBackFrom (unknowns : List Expr) (ctx : Context) (system : LinearSystem) (p : Nat) :
    LinearSystem :=
  match system[p]? with
  | none => system
  | some pivotRow =>
    match pivotRow.pivotVariable? with
    | none => system
    | some x =>
      if unknowns.contains x then
        system.zipIdx.map fun (row, i) =>
          if i = p || (row.coefficient x).isZero then row else cancel pivotRow x ctx row
      else system

/-- Cancels every pivot variable from all rows but its own, in the order of the rows. -/
def backSubstitute (system : LinearSystem) (unknowns : List Expr) (ctx : Context) : LinearSystem :=
  (List.range system.length).foldl (substituteBackFrom unknowns ctx) system

/-- The row that determines `x`: the pivot row that the search finds, or else the first row with `x`
in it. -/
def rowForBy? (search : PivotSearch) (system : LinearSystem) (x : Expr) :
    Option LinearCombination :=
  match (search system x).bind fun p => system[p]? with
  | some row => some row
  | none => system.find? fun row => !(row.coefficient x).isZero

/-- An arrow for each unknown that some row determines, from the last unknown to the first. -/
def solutionsBy (search : PivotSearch) (system : LinearSystem) (unknowns : List Expr)
    (ctx : Context) : List Expr :=
  unknowns.reverse.filterMap fun x =>
    (system.rowForBy? search x).map fun row => Expr.arrow x (row.solveFor x ctx)

end LinearSystem

open LinearSystem

/-- Solves linear equations with a given search for pivot rows: row echelon form, back substitution,
and an arrow `x -> value` from the last unknown to the first; unknowns that no equation determines are
left out. -/
def solveBy (search : PivotSearch) (equations unknowns : List Expr) (ctx : Context) : List Expr :=
  let system := rowReduceBy search (.ofEquations equations unknowns ctx) unknowns ctx
  solutionsBy search (system.backSubstitute unknowns ctx) unknowns ctx

/-- Solves linear equations with the best pivot rows. -/
def solve (equations unknowns : List Expr) (ctx : Context) : List Expr :=
  solveBy findPivot? equations unknowns ctx

/-- Solves linear equations without back substitution: solutions may contain later unknowns. -/
def partialSolve (equations unknowns : List Expr) (ctx : Context) : List Expr :=
  solutionsBy findPivot? (rowReduce (.ofEquations equations unknowns ctx) unknowns ctx) unknowns ctx

end SymbolicAlgebra
