/-!
# Binary floating point numbers as exact rationals

A finite double is an integer times a power of two, so it has an exact rational value
(`value?`), and every rational has a nearest double (`nearest`, ties to the even significand).
Everything here works on the bit pattern with integer arithmetic; no floating point operation
is used, so nothing is rounded twice.
-/

namespace SymbolicAlgebra.Binary64

/-- A finite double: its sign and the magnitude `significand * 2 ^ exponent`. -/
structure Parts where
  negative : Bool
  significand : Nat
  exponent : Int

/-- The parts of a finite double; `none` for an infinity or a NaN. -/
def parts? (x : Float) : Option Parts :=
  let bits : Nat := x.toBits.toNat
  let negative : Bool := bits >>> 63 == 1
  let biased : Nat := bits >>> 52 % 2048
  let fraction : Nat := bits % (1 <<< 52)
  if biased == 2047 then none
  else if biased == 0 then some ⟨negative, fraction, -1074⟩
  else some ⟨negative, fraction + 1 <<< 52, (biased : Int) - 1075⟩

/-- The magnitude as a fraction of natural numbers. -/
def Parts.fraction (p : Parts) : Nat × Nat :=
  (p.significand <<< p.exponent.toNat, 1 <<< (-p.exponent).toNat)

/-- The exact value of the parts. -/
def Parts.value (p : Parts) : Rat :=
  let (num, den) := p.fraction
  let magnitude := mkRat num den
  if p.negative then -magnitude else magnitude

/-- The exact value of a finite double. -/
def value? (x : Float) : Option Rat :=
  (parts? x).map Parts.value

/-- Rounds the quotient `num / den` to an integer, a half to the even neighbour. -/
def divideToEven (num den : Nat) : Nat :=
  let q := num / den
  let twice := 2 * (num % den)
  if twice > den || (twice == den && q % 2 == 1) then q + 1 else q

/-- The bit pattern of the double nearest to the positive fraction `num / den`; past the largest
finite double it is the pattern of infinity. A carry out of the significand moves on into the
exponent field by itself. -/
def magnitudeBits (num den : Nat) : Nat :=
  let guess : Int := (num.log2 : Int) - (den.log2 : Int) - 52
  let scaled (e : Int) : Nat × Nat := (num <<< (-e).toNat, den <<< e.toNat)
  let (n, d) := scaled guess
  let e := max (-1074) (if n < d <<< 52 then guess - 1 else guess)
  let (n, d) := scaled e
  min ((e + 1074).toNat <<< 52 + divideToEven n d) (2047 <<< 52)

/-- The double nearest to a rational. -/
def nearest (q : Rat) : Float :=
  if q.num = 0 then 0
  else
    let bits := magnitudeBits q.num.natAbs q.den
    Float.ofBits (UInt64.ofNat (if q.num < 0 then bits + 1 <<< 63 else bits))

/-- Neither an infinity nor a NaN. -/
def isFinite (x : Float) : Bool :=
  (parts? x).isSome

/-- The place of a double in the order of all bit patterns: negative before positive, `-0` just
before `0`, and each NaN beyond the infinity of its sign. -/
def rank (x : Float) : Int :=
  let bits := x.toBits.toNat
  let sign : Nat := 1 <<< 63
  if bits < sign then (bits : Int) else -((bits : Int) - (sign : Int)) - 1

end SymbolicAlgebra.Binary64
