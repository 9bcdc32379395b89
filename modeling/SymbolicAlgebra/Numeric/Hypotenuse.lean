import SymbolicAlgebra.Number.Binary64
import SymbolicAlgebra.Number.Rational

/-!
# The length of a hypotenuse

The double nearest to the square root of a sum of two squares. The squares are added exactly, so that
they neither overflow nor vanish.
-/

namespace SymbolicAlgebra.Numeric

/-- The number of binary places by which a number is shifted, twice, before its integer square root is
taken, so that the root has about 64 binary digits. -/
def rootShift (q : Rat) : Nat :=
  (64 - ((q.num.natAbs.log2 : Int) - (q.den.log2 : Int)) / 2).toNat

/-- The double nearest to the square root of a number that is not negative. A root that is no integer
after the shift stands for the middle between its neighbours, which rounds the same way. -/
def nearestRoot (q : Rat) : Float :=
  let shift := rootShift q
  let shifted := q.num.natAbs <<< (2 * shift)
  let root := (shifted / q.den).sqrt
  let isExact := root * root * q.den == shifted
  Binary64.nearest (mkRat (if isExact then 2 * root else 2 * root + 1) (1 <<< (shift + 1)))

/-- The length of the hypotenuse of a right triangle with the given legs. -/
def hypotenuse (x y : Float) : Float :=
  match Binary64.value? x, Binary64.value? y with
  | some a, some b => nearestRoot (a * a + b * b)
  | _, _ => (x * x + y * y).sqrt

end SymbolicAlgebra.Numeric
