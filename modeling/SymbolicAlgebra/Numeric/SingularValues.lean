import SymbolicAlgebra.Numeric.Hypotenuse
import SymbolicAlgebra.Numeric.LinearAlgebra

/-!
# Singular values and least squares

A matrix is written as `U * S * Vᵀ` with orthonormal columns in `U` and `V` and a diagonal `S`.
Reflections from both sides make it bidiagonal; then plane rotations make the entries beside the
diagonal vanish, in sweeps of the implicit QR method. `solveLeastSquares` divides by the singular values
that are not negligible.

A wide matrix is decomposed as its transpose, so everything here is about matrices with at least as many
rows as columns; they are given by their columns.
-/

namespace SymbolicAlgebra.Numeric

/-- `-1` for negative numbers and `1` for all others. -/
def signOf (x : Float) : Float := if x ≥ 0 then 1 else -1

/-! ### Reflections -/

/-- The reflection in the plane with a unit normal, which maps a vector to the axis of its first entry.
The image is `image` there and zero elsewhere. -/
structure Reflection where
  normal : Array Float
  image : Float
  /-- The vector is zero already, and nothing is reflected. -/
  isTrivial : Bool

/-- All entries divided by a number. -/
def divideBy (v : Array Float) (x : Float) : Array Float := v.map (· / x)

/-- The reflection that maps a vector to its first axis. The normal is normalized twice, for the first
time only roughly. -/
def Reflection.of (v : Array Float) : Reflection :=
  let square := dot v v
  let length := square.sqrt
  let first := v.getD 0 0
  let signed := signOf first * length
  let factor := (square + first.abs * length) * 2
  let normal := v.setIfInBounds 0 (first + signed)
  if factor == 0 then ⟨normal, signed, true⟩
  else
    let rough := divideBy normal factor.sqrt
    ⟨divideBy rough (dot rough rough).sqrt, -signed, false⟩

/-- Reflects the entries of a vector from an index on, and turns their signs where the image is
negative. `add` sums up the products of two vectors. -/
def reflectFrom (add : Array Float → Array Float → Float) (normal : Array Float) (sign : Float)
    (start : Nat) (v : Array Float) : Array Float :=
  let factor := add normal (v.extract start v.size) * (-2 * sign)
  v.mapIdx fun i x => if i < start then x else factor * normal.getD (i - start) 0 + sign * x

/-! ### Bidiagonal form -/

/-- A matrix under reduction, by columns. The normals of the reflections take the place of the entries
that they cancel. -/
structure Bidiagonal where
  columns : Rows
  diagonal : Array Float
  /-- The entries to the right of the diagonal. -/
  beside : Array Float

/-- How products are summed up on the side of the columns and on that of the rows. -/
structure Summation where
  column : Array Float → Array Float → Float
  row : Array Float → Array Float → Float

namespace Bidiagonal

/-- The entries of column `i` from the diagonal on. -/
def columnPart (b : Bidiagonal) (i : Nat) : Array Float :=
  let c := b.columns.getD i #[]
  c.extract i c.size

/-- The entries of row `i` beyond the diagonal. -/
def rowPart (b : Bidiagonal) (i : Nat) : Array Float :=
  (b.columns.extract (i + 1) b.columns.size).map fun c => c.getD i 0

/-- Cancels column `i` below the diagonal. -/
def clearColumn (add : Summation) (b : Bidiagonal) (i : Nat) : Bidiagonal :=
  let r := Reflection.of (b.columnPart i)
  let changed := b.columns.mapIdx fun j c =>
    if j < i then c
    else if j = i then c.extract 0 i ++ r.normal
    else if r.isTrivial then c else reflectFrom add.column r.normal (signOf r.image) i c
  { b with columns := changed, diagonal := b.diagonal.push r.image }

/-- Reflects the entries beyond column `i` of all rows below row `i`. -/
def reflectRows (add : Summation) (r : Reflection) (i : Nat) (a : Rows) : Rows :=
  let m := (a.getD 0 #[]).size
  let factors := (Array.range m).map fun k =>
    let row := (a.extract (i + 1) a.size).map fun c => c.getD k 0
    if k ≤ i then row else reflectFrom add.row r.normal (signOf r.image) 0 row
  a.mapIdx fun j c =>
    if j ≤ i then c else c.mapIdx fun k x => if k ≤ i then x else entry factors k (j - (i + 1))

/-- Cancels row `i` behind the entry beside the diagonal. -/
def clearRow (add : Summation) (b : Bidiagonal) (i : Nat) : Bidiagonal :=
  let r := Reflection.of (b.rowPart i)
  let reflected := if r.isTrivial then b.columns else reflectRows add r i b.columns
  let changed := reflected.mapIdx fun j c =>
    if j ≤ i then c else c.setIfInBounds i (r.normal.getD (j - (i + 1)) 0)
  { b with columns := changed, beside := b.beside.push r.image }

/-- The bidiagonal form of a matrix by columns. -/
def of (add : Summation) (a : Rows) : Bidiagonal :=
  (List.range a.size).foldl (fun b i =>
    let b := b.clearColumn add i
    if i + 1 < a.size then b.clearRow add i else b) ⟨a, #[], #[]⟩

/-- Unit vectors of a length, the first `count` ones. -/
def unitVectors (length count : Nat) : Rows :=
  (Array.range count).map fun i => (Array.range length).map fun j => if i = j then 1 else 0

/-- Undoes the reflections on unit vectors, from the last one on. Reflection `i` acts on the entries
from `i + shift` on. -/
def accumulate (add : Array Float → Array Float → Float) (normals : Array (Array Float))
    (images : Array Float) (shift : Nat) (start : Rows) : Rows :=
  (List.range normals.size).reverse.foldl (fun basis i =>
    let normal := normals.getD i #[]
    if dot normal normal == 0 then basis
    else
      let sign := signOf (images.getD i 0)
      basis.mapIdx fun j v => if j < i then v else reflectFrom add normal sign (i + shift) v) start

/-- The basis on the side of the columns. -/
def left (add : Summation) (b : Bidiagonal) : Rows :=
  let n := b.columns.size
  accumulate add.column ((Array.range n).map b.columnPart) b.diagonal 0
    (unitVectors (b.columns.getD 0 #[]).size n)

/-- The basis on the side of the rows. -/
def right (add : Summation) (b : Bidiagonal) : Rows :=
  let n := b.columns.size
  accumulate add.row ((Array.range (n - 1)).map b.rowPart) b.beside 1 (unitVectors n n)

end Bidiagonal

/-! ### Rotations -/

/-- A rotation of the plane, by its cosine and sine. -/
structure Rotation where
  cos : Float
  sin : Float

namespace Rotation

def inverse (r : Rotation) : Rotation := ⟨r.cos, -r.sin⟩

/-- The rotation along a vector, and the sign of the vector's first entry, which is left out; a zero
vector gives no rotation. -/
def along (x y : Float) : Rotation × Float :=
  let length := (x.abs * x.abs + y * y).sqrt
  if length > 0 then
    let sign := signOf x
    (⟨x.abs / length, y / (sign * length)⟩, sign)
  else (⟨1, 0⟩, 0)

/-- The rotation that cancels the second entry of a vector, and the first entry afterwards; `none` if
it is zero already. -/
def cancelSecond? (x y : Float) : Option (Rotation × Float) :=
  if y == 0 then none
  else
    let length := (x.abs * x.abs + y * y).sqrt
    let signed := signOf x * length
    some (⟨x.abs / length, -y / signed⟩, signed)

/-- The rotation that cancels the first entry of a vector, and the second entry afterwards; `none` if
it is zero already. -/
def cancelFirst? (x y : Float) : Option (Rotation × Float) :=
  if x == 0 then none
  else
    let length := (y.abs * y.abs + x * x).sqrt
    some (⟨y.abs / length, x * signOf y / length⟩, signOf y * length)

/-- The first of two rotated entries. -/
def first (r : Rotation) (x y : Float) : Float := x * r.cos - r.sin * y

/-- The second of two rotated entries. -/
def second (r : Rotation) (x y : Float) : Float := r.sin * x + y * r.cos

/-- Rotates two vectors of a basis against each other. -/
def turn (r : Rotation) (basis : Rows) (p q : Nat) : Rows :=
  let u := basis.getD p #[]
  let v := basis.getD q #[]
  (basis.setIfInBounds p (u.mapIdx fun i x => r.first x (v.getD i 0))).setIfInBounds q
    (u.mapIdx fun i x => r.second x (v.getD i 0))

end Rotation

/-! ### Sweeps -/

/-- A bidiagonal matrix between the two bases that its decomposition has reached. -/
structure Sweep where
  diagonal : Array Float
  beside : Array Float
  left : Rows
  right : Rows

namespace Sweep

/-- The relative size from which on an entry beside the diagonal counts. -/
def negligible : Float := 5 * 2.220446049250313e-16

def diag (s : Sweep) (i : Nat) : Float := s.diagonal.getD i 0

def side (s : Sweep) (i : Nat) : Float := s.beside.getD i 0

def setDiag (s : Sweep) (i : Nat) (x : Float) : Sweep :=
  { s with diagonal := s.diagonal.setIfInBounds i x }

def setSide (s : Sweep) (i : Nat) (x : Float) : Sweep :=
  { s with beside := s.beside.setIfInBounds i x }

/-- Rotates two vectors of the left basis. -/
def turnLeft (s : Sweep) (r : Rotation) (p q : Nat) : Sweep := { s with left := r.turn s.left p q }

/-- Rotates two vectors of the right basis. -/
def turnRight (s : Sweep) (r : Rotation) (p q : Nat) : Sweep := { s with right := r.turn s.right p q }

/-- Moves an entry `x` of row `i`, which has a zero on the diagonal, out of the matrix: from column
`k + 1` on, whose diagonal entry is `y`, through `count` columns. -/
def chaseRight (i : Nat) : Nat → Nat → Float → Float → Sweep → Sweep
  | 0, _, _, _, s => s
  | count + 1, k, x, y, s =>
    match Rotation.cancelFirst? x y with
    | none => s
    | some (r, image) =>
      let s := (s.setDiag (k + 1) image).turnLeft r i (k + 1)
      if count = 0 then s
      else
        let next := -r.sin * s.side (k + 1)
        chaseRight i count (k + 1) next (s.diag (k + 2))
          (s.setSide (k + 1) (s.side (k + 1) * r.cos))

/-- Cancels the entry beside a zero at `i` on the diagonal, up to the column `last`. -/
def clearRight (s : Sweep) (i last : Nat) : Sweep :=
  chaseRight i (last - i) i (s.side i) (s.diag (i + 1)) (s.setSide i 0)

/-- Moves an entry `y` of column `i + 1`, which has a zero on the diagonal, out of the matrix: from row
`k` on, whose diagonal entry is `x`, upwards. -/
def chaseUp (i : Nat) : Nat → Float → Float → Sweep → Sweep
  | 0, x, y, s =>
    match Rotation.cancelSecond? x y with
    | none => s
    | some (r, image) => (s.setDiag 0 image).turnRight r 0 (i + 1)
  | k + 1, x, y, s =>
    match Rotation.cancelSecond? x y with
    | none => s
    | some (r, image) =>
      let s := (s.setDiag (k + 1) image).turnRight r (k + 1) (i + 1)
      chaseUp i k (s.diag k) (r.sin * s.side k) (s.setSide k (s.side k * r.cos))

/-- Cancels the entry beside the diagonal in row `i`, above a zero on the diagonal. -/
def clearUp (s : Sweep) (i : Nat) : Sweep :=
  chaseUp i i (s.diag i) (s.side i) (s.setSide i 0)

/-- Whether the entry beside the diagonal in row `m` is negligible against its neighbours. -/
def isNegligible (s : Sweep) (m : Nat) : Bool :=
  (s.side m).abs ≤ negligible * ((s.diag (m + 1)).abs + (s.diag m).abs)

/-- Cancels what can be cancelled beside a negligible diagonal entry at `m`, up to the column
`last`. -/
def clearAround (s : Sweep) (m last : Nat) : Sweep :=
  let s := (s.setDiag m 0).clearRight m last
  if m = 0 then s else s.clearUp (m - 1)

/-- The last index of the part that is still to be made diagonal; `0` when there is none. -/
def trimEnd : Nat → Sweep → Nat × Sweep
  | 0, s => (0, s)
  | m + 1, s =>
    if s.side m == 0 || s.isNegligible m then trimEnd m (s.setSide m 0)
    else if (s.diag m).abs ≤ negligible then trimEnd m (s.clearAround m (m + 1))
    else if (s.diag (m + 1)).abs ≤ negligible then trimEnd m ((s.setDiag (m + 1) 0).clearUp m)
    else (m + 1, s)

/-- The first index of the part that ends at `last`, at most the given one. -/
def trimStart (last : Nat) : Nat → Sweep → Nat × Sweep
  | 0, s => (0, s)
  | m + 1, s =>
    if s.isNegligible m then (m + 1, s.setSide m 0)
    else if (s.diag m).abs ≤ negligible then (m + 1, s.clearAround m last)
    else trimStart last m s

/-- The part that is still to be made diagonal, up to `last`. -/
def delimit (last : Nat) (s : Sweep) : Nat × Nat × Sweep :=
  match trimEnd last s with
  | (0, s) => (0, 0, s)
  | (m + 1, s) =>
    let (start, s) := trimStart (m + 1) m s
    (start, m + 1, s)

/-- The eigenvalue of a symmetric matrix of order two that is closer to its last entry. -/
def shiftFor (first last beside : Float) : Float :=
  let square := beside * beside
  if square == 0 then last
  else
    let d := (first - last) * 0.5
    last - square / (d + signOf d * (d * d + square).sqrt)

/-- One rotation from each side at rows `k` and `k + 1` of a part that goes from `start` to `last`.
The vector `x, y` says which rotation comes from the right; the next one is returned, or `none` when
nothing is left to be cancelled. -/
def rotateAt (start last k : Nat) (vector : Option (Float × Float)) (s : Sweep) :
    Option (Float × Float) × Sweep :=
  match vector.bind fun (x, y) => Rotation.cancelSecond? x y with
  | none => (none, s)
  | some (r, image) =>
    let beyond := if k + 1 = last then 0 else s.side (k + 1)
    let s := if start < k then s.setSide (k - 1) image else s
    let upper := r.first (s.diag k) (s.side k)
    let upperSide := r.second (s.diag k) (s.side k)
    let lower := r.first 0 (s.diag (k + 1))
    let lowerDiag := r.second 0 (s.diag (k + 1))
    let (l, corner) := (Rotation.cancelSecond? upper lower).getD (⟨1, 0⟩, upper)
    let side := l.first upperSide lowerDiag
    let bulge := l.first 0 beyond
    let turned := (s.turnRight r k (k + 1)).turnLeft l k (k + 1)
    let turned := ((turned.setDiag k corner).setDiag (k + 1) (l.second upperSide lowerDiag)).setSide k side
    (some (side, bulge), if k + 1 = last then turned else turned.setSide (k + 1) (l.second 0 beyond))

/-- One sweep over a part of at least three rows. -/
def sweep (start last : Nat) (s : Sweep) : Sweep :=
  let m := last - 1
  let shift := shiftFor (s.diag m * s.diag m + s.side (m - 1) * s.side (m - 1))
    (s.diag last * s.diag last + s.side m * s.side m) (s.diag m * s.side m)
  let d := s.diag start
  ((List.range' start (last - start)).foldl (fun (vector, s) k => rotateAt start last k vector s)
    (some (d * d - shift, d * s.side start), s)).2

/-- The decomposition of an upper triangular matrix of order two: the rotations of the left and the
right basis and the singular values, which may be negative. -/
def decomposeTwo (a b c : Float) : Rotation × (Float × Float) × Rotation :=
  let total := hypotenuse (a + c) b + hypotenuse (a - c) b
  let near := a * c * 2 / total
  let far := 0.5 * total
  let (right, sign) := Rotation.along (a * b) (near * near - a * a)
  let near := near * sign
  let far := far * sign
  let (left, sign) := Rotation.along ((a * right.cos + b * right.sin) / near) (c * right.sin / near)
  (left, (near * sign, far * sign), right)

/-- Makes the part of rows `k` and `k + 1` diagonal. -/
def finishTwo (k : Nat) (s : Sweep) : Sweep :=
  let (left, (first, second), right) := decomposeTwo (s.diag k) (s.side k) (s.diag (k + 1))
  ((((s.setDiag k first).setDiag (k + 1) second).setSide k 0).turnLeft left.inverse k (k + 1)).turnRight
    right.inverse k (k + 1)

/-- Sweeps over what is not diagonal yet, up to a number of times. -/
def run : Nat → Nat → Sweep → Sweep
  | 0, _, s => s
  | left + 1, last, s =>
    match s.delimit last with
    | (start, last, s) =>
      if start = last then s
      else if start + 1 = last then run left start (s.finishTwo start)
      else run left last (s.sweep start last)

/-- More sweeps than any matrix of that order takes. -/
def maxSweeps (order : Nat) : Nat := 1000 * (order + 1)

end Sweep

/-! ### Decomposition -/

/-- A singular value with its vectors on the left and on the right. -/
structure SingularTriple where
  value : Float
  left : Array Float
  right : Array Float

/-- The triple with a value that is not negative. -/
def SingularTriple.normalize (t : SingularTriple) : SingularTriple :=
  if t.value < 0 then ⟨-t.value, t.left.map (- ·), t.right⟩ else t

/-- The largest magnitude of an entry; a NaN does not count. -/
def largestEntry (a : Rows) : Float :=
  a.foldl (fun largest row => row.foldl (fun largest x => maximum largest x.abs) largest) 0

/-- Puts a triple in front of all triples with a smaller value. -/
def insertTriple (t : SingularTriple) : List SingularTriple → List SingularTriple
  | [] => [t]
  | u :: us => if u.value < t.value then t :: u :: us else u :: insertTriple t us

/-- The triples of a matrix with at least as many rows as columns, given by columns, by decreasing
value; `none` where values are not numbers and so have no order. -/
def singularTriples (add : Summation) (a : Rows) : Option (List SingularTriple) :=
  let scale := largestEntry a
  let scaled := if scale == 0 then a else a.map fun c => divideBy c scale
  let b := Bidiagonal.of add scaled
  let start : Sweep := ⟨b.diagonal.map Float.abs, b.beside.map Float.abs, b.left add, b.right add⟩
  let s := start.run (Sweep.maxSweeps a.size) (a.size - 1)
  let triples := (List.range a.size).map fun i =>
    SingularTriple.normalize ⟨s.diag i * scale, s.left.getD i #[], s.right.getD i #[]⟩
  if 1 < a.size && triples.any fun t => t.value.isNaN then none
  else some (triples.foldl (fun sorted t => insertTriple t sorted) [])

/-- Singular values up to this one count as zero. -/
def singularTolerance : Float := 1e-14

/-- The triples of a matrix by rows with `n` columns, with the left vectors on the side of its
columns. -/
def decompose (a : Rows) (n : Nat) : Option (List SingularTriple) :=
  if n ≤ a.size then singularTriples ⟨dot, dotInOrder⟩ (columns a n)
  else (singularTriples ⟨dotInOrder, dot⟩ a).map fun ts => ts.map fun t => ⟨t.value, t.right, t.left⟩

/-- The shortest vector that solves `A * x = b` in the sense of least squares, for a matrix of `n`
columns, if its singular values are numbers. -/
def solveLeastSquares (a : Rows) (n : Nat) (b : Array Float) : Option (Array Float) :=
  (decompose a n).map fun triples =>
    let scaled := (triples.map fun t =>
      if t.value > singularTolerance then dot t.left b / t.value else 0).toArray
    (Array.range n).map fun j => dot (triples.map fun t => t.right.getD j 0).toArray scaled

end SymbolicAlgebra.Numeric
