/-!
# The logarithm next to one

`logOnePlus x` is the natural logarithm of `1 + x`, exact to about the last bit also where `1 + x`
itself would round the small `x` away. The argument is written as `2 ^ k * (1 + f)` with `1 + f` between
`√½` and `√2`, and the logarithm of `1 + f` is an odd function of `f / (2 + f)`, which a polynomial
approximates. `areaTangent` is the inverse hyperbolic tangent by this logarithm.
-/

namespace SymbolicAlgebra.Binary64

/-- The natural logarithm of two, rounded so that its products with exponents are exact. -/
def lnTwoHigh : Float := 6.93147180369123816490e-01

/-- What `lnTwoHigh` leaves of the logarithm of two. -/
def lnTwoLow : Float := 1.90821492927058770002e-10

/-- The double with the given upper half of its bit pattern; the lower half is zero. -/
def ofUpperBits (upper : UInt64) : Float := Float.ofBits (upper <<< 32)

/-- The remainder of the logarithm of `1 + f` behind `f - f² / 2`, relative to `f / (2 + f)`, without
the term `f² / 2`: a polynomial in `z`, the square of `f / (2 + f)`. -/
def logRemainder (z : Float) : Float :=
  let z2 := z * z
  let z4 := z2 * z2
  let z6 := z4 * z2
  let r1 := z * 6.666666666666735130e-01
  let r2 := 3.999999999940941908e-01 + z * 2.857142874366239149e-01
  let r3 := 2.222219843214978396e-01 + z * 1.818357216161805012e-01
  let r4 := 1.531383769920937332e-01 + z * 1.479819860511658591e-01
  r1 + z2 * r2 + z4 * r3 + z6 * r4

/-- An argument `1 + x` as `2 ^ exponent * (1 + fraction)`, up to a rounding error whose effect on the
logarithm is `correction`. -/
structure ReducedLog where
  exponent : Int
  fraction : Float
  correction : Float
  /-- The fraction is below about a millionth. -/
  isShort : Bool

/-- The reduction of a rounded `1 + x`. -/
def ReducedLog.of (u correction : Float) : ReducedLog :=
  let bits := u.toBits
  let k : Int := (bits >>> 52).toNat - 1023
  let digits := bits &&& 0xFFFFFFFFFFFFF
  let upper := (digits >>> 32).toNat
  if upper < 0x6A09E then
    ⟨k, Float.ofBits (0x3FF0000000000000 ||| digits) - 1, correction, upper == 0⟩
  else
    ⟨k + 1, Float.ofBits (0x3FE0000000000000 ||| digits) - 1, correction, decide (0xFFFFC < upper)⟩

/-- The reduction of `1 + x` for an `x` above `-1`. -/
def ReducedLog.ofOffset (x : Float) : ReducedLog :=
  if x < 9007199254740992 then
    let u := 1 + x
    .of u ((if u < 2 then x - (u - 1) else 1 - (u - x)) / u)
  else .of x 0

/-- The logarithm of a reduced argument. -/
def ReducedLog.value (r : ReducedLog) : Float :=
  let k := Float.ofInt r.exponent
  let f := r.fraction
  let half := 0.5 * f * f
  if r.isShort then
    if f == 0 then
      if r.exponent = 0 then 0 else k * lnTwoHigh + (r.correction + k * lnTwoLow)
    else
      let tail := half * (1 - 0.66666666666666666 * f)
      if r.exponent = 0 then f - tail
      else k * lnTwoHigh - ((tail - (k * lnTwoLow + r.correction)) - f)
  else
    let s := f / (2 + f)
    let tail := s * (half + logRemainder (s * s))
    if r.exponent = 0 then f - (half - tail)
    else k * lnTwoHigh - ((half - (tail + (k * lnTwoLow + r.correction))) - f)

/-- Whether `1 + x` lies between about `√½` and `√2`. -/
def isNearOne (x : Float) : Bool :=
  x < ofUpperBits 0x3FDA827A && -x < ofUpperBits 0x3FD2BEC4

/-- The natural logarithm of `1 + x`. -/
def logOnePlus (x : Float) : Float :=
  if x == -1 then -1.0 / 0.0
  else if x < -1 then 0.0 / 0.0
  else if x.abs < ofUpperBits 0x3C900000 then x
  else if x.abs < ofUpperBits 0x3E200000 then x - x * x * 0.5
  else if isNearOne x then ReducedLog.value ⟨0, x, 0, false⟩
  else if (x - x).isNaN then x + x
  else (ReducedLog.ofOffset x).value

/-- The inverse hyperbolic tangent as half the logarithm of `(1 + x) / (1 - x)`. -/
def areaTangent (x : Float) : Float :=
  0.5 * logOnePlus ((2 * x) / (1 - x))

end SymbolicAlgebra.Binary64
