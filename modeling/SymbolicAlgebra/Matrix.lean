import SymbolicAlgebra.Calculus.Derivative

/-!
# Matrices of expressions

Sums, products and scalar operations build canonical entries without evaluating them; the inverse and
powers evaluate every intermediate entry. Operations on matrices whose dimensions do not fit, and
indices outside a matrix, give `none`.
-/

namespace SymbolicAlgebra

/-- A matrix by rows, with its dimensions. -/
structure ExprMatrix where
  rows : List (List Expr)
  rowCount : Nat
  columnCount : Nat

namespace ExprMatrix

/-- The matrix of rows as long as the first one. -/
def ofRows (rows : List (List Expr)) : ExprMatrix :=
  ⟨rows, rows.length, (rows.head?.map List.length).getD 0⟩

/-- The matrix of rows of equal length. -/
def ofRows? (rows : List (List Expr)) : Option ExprMatrix :=
  let m := ofRows rows
  if rows.all fun row => row.length == m.columnCount then some m else none

def zeros (m n : Nat) : ExprMatrix :=
  ⟨List.replicate m (List.replicate n .zero), m, n⟩

def identity (n : Nat) : ExprMatrix :=
  ⟨(List.range n).map fun i => (List.range n).map fun j => if i = j then .one else .zero, n, n⟩

/-- The derivatives of each function by each variable. -/
def ofJacobian (functions unknowns : List Expr) (ctx : Context) : Result ExprMatrix := do
  return ofRows (← jacobian functions unknowns ctx)

def shape (m : ExprMatrix) : Nat × Nat := (m.rowCount, m.columnCount)

def isSquare (m : ExprMatrix) : Bool := m.rowCount == m.columnCount

def get? (m : ExprMatrix) (i j : Nat) : Option Expr :=
  (m.rows[i]?).bind fun row => row[j]?

/-- Replaces an entry. -/
def set? (m : ExprMatrix) (i j : Nat) (value : Expr) : Option ExprMatrix := do
  let row ← m.rows[i]?
  if j < row.length then some { m with rows := m.rows.set i (row.set j value) } else none

/-- A row as a matrix of one row. -/
def row? (m : ExprMatrix) (i : Nat) : Option ExprMatrix :=
  (m.rows[i]?).map fun row => ofRows [row]

/-- A column as a matrix of one column. -/
def column? (m : ExprMatrix) (j : Nat) : Option ExprMatrix :=
  if j < m.columnCount then some (ofRows (m.rows.map fun row => [row.getD j .zero])) else none

/-- All rows. -/
def rowMatrices (m : ExprMatrix) : List ExprMatrix :=
  (List.range m.rowCount).filterMap m.row?

/-- All columns. -/
def columnMatrices (m : ExprMatrix) : List ExprMatrix :=
  (List.range m.columnCount).filterMap m.column?

/-- An entry of a matrix of one row or one column. -/
def element (m : ExprMatrix) (i : Nat) : Result Expr :=
  let found : Result (Option Expr) :=
    if m.rowCount = 1 then .ok (m.get? 0 i)
    else if m.columnCount = 1 then .ok (m.get? i 0)
    else refuse (.notVector m.rowCount m.columnCount)
  match found with
  | .ok (some e) => .ok e
  | .ok none => refuse (.vectorIndex i)
  | .error cause => .error cause

/-- Changes every entry. -/
def map (f : Expr → Expr) (m : ExprMatrix) : ExprMatrix :=
  ofRows (m.rows.map fun row => row.map f)

/-- Combines the entries of two matrices of the same shape. -/
def zipWith? (f : Expr → Expr → Expr) (a b : ExprMatrix) : Option ExprMatrix :=
  if a.shape = b.shape then
    some (ofRows ((a.rows.zip b.rows).map fun (r, s) => (r.zip s).map fun (x, y) => f x y))
  else none

def add? (a b : ExprMatrix) : Option ExprMatrix := zipWith? (· + ·) a b

def subtract? (a b : ExprMatrix) : Option ExprMatrix := zipWith? (· - ·) a b

/-- The entry of a product for a row and the column at `j` of the right matrix. -/
def productEntry (row : List Expr) (right : List (List Expr)) (j : Nat) : Expr :=
  .sumOf ((row.zip right).map fun (x, r) => x * r.getD j .zero)

/-- The product of matrices whose inner dimensions agree. -/
def product (a b : ExprMatrix) : ExprMatrix :=
  ofRows (a.rows.map fun row => (List.range b.columnCount).map fun j => productEntry row b.rows j)

/-- The product, if the inner dimensions agree. -/
def multiply? (a b : ExprMatrix) : Option ExprMatrix :=
  if a.columnCount = b.rowCount then some (product a b) else none

def negate (m : ExprMatrix) : ExprMatrix := m.map fun e => -e

/-- A scalar on the right of every entry. -/
instance : HAdd ExprMatrix Expr ExprMatrix := ⟨fun m s => m.map (· + s)⟩
instance : HSub ExprMatrix Expr ExprMatrix := ⟨fun m s => m.map (· - s)⟩
instance : HMul ExprMatrix Expr ExprMatrix := ⟨fun m s => m.map (· * s)⟩

/-- A scalar on the left of every entry. -/
instance : HAdd Expr ExprMatrix ExprMatrix := ⟨fun s m => m.map (s + ·)⟩
instance : HSub Expr ExprMatrix ExprMatrix := ⟨fun s m => m.map (s - ·)⟩
instance : HMul Expr ExprMatrix ExprMatrix := ⟨fun s m => m.map (s * ·)⟩

/-- Every entry evaluated after a substitution. -/
def evaluateWith (m : ExprMatrix) (b : Bindings) (ctx : Context) : ExprMatrix :=
  ofRows (m.rows.map fun row => Expr.evaluateAll row b ctx)

/-- Every entry evaluated. -/
def evaluate (m : ExprMatrix) (ctx : Context) : ExprMatrix := m.evaluateWith .empty ctx

/-- Every entry evaluated after the substitution of the arrows. -/
def evaluateAt (m : ExprMatrix) (arrows : List Expr) (ctx : Context) : ExprMatrix :=
  m.evaluateWith (.ofArrows arrows) ctx

/-! ### Elimination -/

/-- The entry of a list of rows; `0` outside. -/
def entry (rows : List (List Expr)) (i j : Nat) : Expr :=
  ((rows[i]?).bind fun row => row[j]?).getD .zero

/-- Exchanges two rows. -/
def swapRows (rows : List (List Expr)) (i j : Nat) : List (List Expr) :=
  (rows.set i (rows.getD j [])).set j (rows.getD i [])

/-- Multiplies a row. -/
def scaleRow (ctx : Context) (s : Expr) (row : List Expr) : List Expr :=
  row.map fun e => (e * s).evaluate ctx

/-- Adds the multiple `s` of one row to another. -/
def addRow (ctx : Context) (s : Expr) (source target : List Expr) : List Expr :=
  (target.zip source).map fun (t, e) => (t + e * s).evaluate ctx

/-- A matrix under elimination beside what becomes its inverse. -/
structure Elimination where
  left : List (List Expr)
  right : List (List Expr)

/-- The first row from `i` on whose entry in column `i` is not the constant zero. -/
def pivotRow? (left : List (List Expr)) (n i : Nat) : Option Nat :=
  (List.range' i (n - i)).find? fun p => !(entry left p i).isZero

/-- Clears column `i` from the row at `p`. -/
def Elimination.clearRow (ctx : Context) (i : Nat) (e : Elimination) (p : Nat) : Elimination :=
  if p = i then e
  else
    let f := (-(entry e.left p i)).evaluate ctx
    ⟨e.left.set p (addRow ctx f (e.left.getD i []) (e.left.getD p [])),
      e.right.set p (addRow ctx f (e.right.getD i []) (e.right.getD p []))⟩

/-- Makes column `i` that of the identity. -/
def Elimination.column (ctx : Context) (n : Nat) (e : Elimination) (i : Nat) : Result Elimination :=
  match pivotRow? e.left n i with
  | none => refuse .singularMatrix
  | some p =>
    let left := swapRows e.left i p
    let right := swapRows e.right i p
    let s := (Expr.inverse (entry left i i)).evaluate ctx
    let scaled : Elimination := ⟨left.set i (scaleRow ctx s (left.getD i [])),
      right.set i (scaleRow ctx s (right.getD i []))⟩
    .ok ((List.range n).foldl (Elimination.clearRow ctx i) scaled)

/-- The inverse by elimination, where every pivot that does not evaluate to the constant `0` counts as
nonzero. -/
def inverse (m : ExprMatrix) (ctx : Context) : Result ExprMatrix := do
  if !m.isSquare then refuse (.notInvertible m.rowCount m.columnCount)
  else
    let n := m.rowCount
    let start : Elimination := ⟨(m.evaluate ctx).rows, (identity n).rows⟩
    let final ← (List.range n).foldlM (Elimination.column ctx n) start
    return ⟨final.right, n, n⟩

/-- Multiplies by `base` and evaluates, `count` times. -/
def multiplyRepeatedly (base : ExprMatrix) (ctx : Context) : Nat → ExprMatrix → ExprMatrix
  | 0, m => m
  | count + 1, m => multiplyRepeatedly base ctx count ((product m base).evaluate ctx)

/-- An integer power; negative exponents give powers of the inverse. -/
def power (m : ExprMatrix) (n : Int) (ctx : Context) : Result ExprMatrix := do
  if !m.isSquare then refuse (.powerOfNonSquare m.rowCount m.columnCount)
  else
    let base ← if n < 0 then m.inverse ctx else pure (m.evaluate ctx)
    return multiplyRepeatedly base ctx n.natAbs (identity m.rowCount)

/-- The rows in brackets. -/
def text (m : ExprMatrix) : String :=
  let row (r : List Expr) : String := "[" ++ String.intercalate ", " (r.map Expr.text) ++ "]"
  "[" ++ String.join (m.rows.map row) ++ "]"

end ExprMatrix

end SymbolicAlgebra
