import SymbolicAlgebra.Numeric.Routine

/-!
# Linear equations in floating point

Vectors and matrices of doubles, and the solution of square systems `A * x = b` by elimination with row
exchanges. The order of all operations is fixed, since for a matrix that is singular or nearly so the
rounding errors decide about the solution. Matrices are arrays of rows.
-/

namespace SymbolicAlgebra.Numeric

/-- A matrix by rows. -/
abbrev Rows := Array (Array Float)

/-- The entry at a row and column; `0` outside the matrix. -/
def entry (a : Rows) (i j : Nat) : Float := (a.getD i #[]).getD j 0

/-- The products of the entries of two vectors. -/
def products (u v : Array Float) : List Float := List.zipWith (· * ·) u.toList v.toList

/-- The sum of products of two vectors from left to right. -/
def dotInOrder (u v : Array Float) : Float := sum (products u v)

/-- The number of partial sums that `dot` keeps. -/
def lanes : Nat := 8

/-- The sum of every eighth of some blocks of eight numbers, from an offset on. -/
def laneSum (xs : Array Float) (blocks offset : Nat) : Float :=
  (List.range blocks).foldl (fun acc block => acc + xs.getD (lanes * block + offset) 0) 0

/-- The sum of products of two vectors: in eight interleaved partial sums, of which those that are four
apart are added first, and then the products that fill no block of eight. -/
def dot (u v : Array Float) : Float :=
  let ps := products u v
  let blocks := ps.length / lanes
  let total := (List.range (lanes / 2)).foldl (fun acc i =>
    acc + (laneSum ps.toArray blocks i + laneSum ps.toArray blocks (i + lanes / 2))) 0
  (ps.drop (lanes * blocks)).foldl (· + ·) total

/-- The columns of a matrix with `n` columns. -/
def columns (a : Rows) (n : Nat) : Rows :=
  (Array.range n).map fun j => a.map fun row => row.getD j 0

/-- Adds `m * v` to a vector. -/
def addMultiple (x : Array Float) (m : Float) (v : Array Float) : Array Float :=
  x.mapIdx fun i y => y + m * v.getD i 0

/-! ### Elimination -/

/-- The first row from `k` on with the entry of largest magnitude in column `k`. -/
def pivotRow (a : Rows) (k : Nat) : Nat :=
  (List.range' (k + 1) (a.size - (k + 1))).foldl (fun best i =>
    if (entry a i k).abs > (entry a best k).abs then i else best) k

/-- Subtracts the multiple of row `k` from row `i` that cancels the entry in column `k`, given the
reciprocal of the pivot; the right-hand side is the last entry of a row. -/
def cancelRow (k : Nat) (reciprocal : Float) (a : Rows) (i : Nat) : Rows :=
  let m := entry a i k * reciprocal
  let source := a.getD k #[]
  a.setIfInBounds i ((a.getD i #[]).mapIdx fun j x => if j ≤ k then 0 else x - m * source.getD j 0)

/-- Cancels column `k` below the diagonal, after the exchange that puts the pivot there. -/
def eliminateColumn (n : Nat) (a : Rows) (k : Nat) : Rows :=
  let p := pivotRow a k
  let a := (a.setIfInBounds k (a.getD p #[])).setIfInBounds p (a.getD k #[])
  let pivot := entry a k k
  if pivot == 0 then a
  else (List.range' (k + 1) (n - (k + 1))).foldl (cancelRow k (1 / pivot)) a

/-- Determines the unknowns before `k` from the last one on, for an upper triangular matrix and a
right-hand side that the later unknowns have taken the place of; each one is subtracted from all rows
above at once. There is no solution with a zero on the diagonal. -/
def substituteUp (a : Rows) : Nat → Array Float → Option (Array Float)
  | 0, b => some b
  | k + 1, b =>
    let pivot := entry a k k
    if pivot == 0 then none
    else
      let x := b.getD k 0 / pivot
      substituteUp a k (b.mapIdx fun i y => if i < k then y - x * entry a i k else if i = k then x else y)

/-- The solution of a square system; `none` when a pivot vanishes. -/
def solveSquare (a : Rows) (b : Array Float) : Option (Array Float) :=
  let n := a.size
  let augmented := a.mapIdx fun i row => row.push (b.getD i 0)
  let reduced := (List.range n).foldl (eliminateColumn n) augmented
  substituteUp reduced n (reduced.map fun row => row.getD n 0)

end SymbolicAlgebra.Numeric
