import SymbolicAlgebra.Number.Decimal

/-!
# Rational constants

The number type of the algebra is the exact rational. Sums, products and moderate integer powers
are exact; other powers and the transcendental functions go through the nearest double and count
as undefined (`none`) when they have no finite value. A square root is exact whenever the number
is the square of a rational (`exactSqrt?`).
-/

namespace SymbolicAlgebra.Rational

/-- Integer exponents up to this magnitude give exact powers. -/
def maxExactExponent : Nat := 4096

/-- The largest `n` whose factorial is computed. -/
def maxExactFactorial : Nat := 3000

/-- Fractions with a larger denominator are printed as decimals. -/
def maxPrintedDenominator : Nat := 1000000

/-- The order of the rationals as a comparison. -/
def order (a b : Rat) : Ordering :=
  if a < b then .lt else if a = b then .eq else .gt

/-- Whether `q` is an integer. -/
def isInteger (q : Rat) : Bool :=
  q.den == 1

/-- Whether `q` is one of `1, 2, 3, …`. -/
def isNatural (q : Rat) : Bool :=
  isInteger q && decide (0 < q)

/-- Whether `q` is an even integer. -/
def isEvenInteger (q : Rat) : Bool :=
  isInteger q && q.num % 2 == 0

/-- The integer value of `q` when it fits into 64 signed bits. -/
def toInt64? (q : Rat) : Option Int :=
  let bound : Nat := 1 <<< 63
  if isInteger q && decide (-(bound : Int) ≤ q.num) && decide (q.num < (bound : Int)) then some q.num
  else none

/-- `-1`, `0` or `1`. -/
def sign (q : Rat) : Int :=
  q.num.sign

/-- The reciprocal, undefined for zero. -/
def inverse? (q : Rat) : Option Rat :=
  if q = 0 then none else some q⁻¹

/-- The quotient, undefined for a zero divisor. -/
def divide? (a b : Rat) : Option Rat :=
  if b = 0 then none else some (a / b)

/-- An integer power; a negative exponent gives the power of the reciprocal. -/
def integerPower (q : Rat) (n : Int) : Rat :=
  if 0 ≤ n then q ^ n.toNat else q⁻¹ ^ (-n).toNat

/-- The nonnegative root of a number that is the square of a rational. A reduced fraction is a square
only if its numerator and denominator both are. -/
def exactSqrt? (q : Rat) : Option Rat :=
  if q.num < 0 then none
  else
    let n := q.num.natAbs.sqrt
    let d := q.den.sqrt
    if n * n = q.num.natAbs ∧ d * d = q.den then some (mkRat n d) else none

/-- The value of a floating point function at the double nearest to `q`, if it is finite. -/
def mapFloat? (f : Float → Float) (q : Rat) : Option Rat :=
  Binary64.value? (f (Binary64.nearest q))

/-- The square root: exact for squares of rationals, else that of the nearest double; undefined for
negative numbers. -/
def sqrt? (q : Rat) : Option Rat :=
  if q.num < 0 then none
  else (exactSqrt? q).or (mapFloat? Float.sqrt q)

/-- The power as a double, if it is finite. -/
def floatPower? (q exponent : Rat) : Option Rat :=
  Binary64.value? (Float.pow (Binary64.nearest q) (Binary64.nearest exponent))

/-- The exponent of an exactly computed power. -/
def exactExponent? (exponent : Rat) : Option Int :=
  if isInteger exponent && decide (exponent.num.natAbs ≤ maxExactExponent) then some exponent.num
  else none

/-- `q ^ exponent`: exact for moderate integer exponents and for roots of squares, else computed in
doubles. Undefined for zero to a negative integer power and where the double is not finite. -/
def pow? (q exponent : Rat) : Option Rat :=
  match exactExponent? exponent with
  | some n => if n < 0 ∧ q = 0 then none else some (integerPower q n)
  | none =>
    let root := if exponent = mkRat 1 2 then exactSqrt? q else none
    root.or (floatPower? q exponent)

/-- The nearest integer, a half away from zero. -/
def round (q : Rat) : Rat :=
  let magnitude : Int := (2 * q.num.natAbs + q.den : Nat) / (2 * q.den : Nat)
  if q.num < 0 then -(magnitude : Rat) else (magnitude : Rat)

/-- The product `1 * 2 * ⋯ * n`. -/
def factorialNat : Nat → Nat
  | 0 => 1
  | n + 1 => (n + 1) * factorialNat n

/-- The factorial of a natural number up to `maxExactFactorial`. -/
def factorial? (q : Rat) : Option Rat :=
  if isInteger q && decide (0 ≤ q.num) && decide (q.num.natAbs ≤ maxExactFactorial) then
    some (factorialNat q.num.natAbs : Rat)
  else none

/-- The text of a constant: an integer, a fraction with a moderate denominator, or the decimals of
the nearest double. -/
def text (q : Rat) : String :=
  if q.den = 1 then toString q.num
  else if q.den ≤ maxPrintedDenominator then toString q.num ++ "/" ++ toString q.den
  else Decimal.floatText (Binary64.nearest q)

/-- A constant with a moderate denominator and size, which rounding leaves as it is. -/
def isPlain (q : Rat) : Bool :=
  decide (q.den ≤ maxPrintedDenominator) && decide (q.num.natAbs < 1000000000000)

end SymbolicAlgebra.Rational
