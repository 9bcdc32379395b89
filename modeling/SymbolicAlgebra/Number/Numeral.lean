import SymbolicAlgebra.Number.Binary64

/-!
# Reading numbers

The texts of numbers: fractions of integers such as `-3/4`, read exactly, and decimals such as
`-1.5e-9`, read as the nearest double, with words for the infinities and for NaN.
-/

namespace SymbolicAlgebra.Numeral

/-- The value of a list of decimal digits, one at least. -/
def digits? (cs : List Char) : Option Nat :=
  if cs.isEmpty || !cs.all Char.isDigit then none
  else some (cs.foldl (fun n c => 10 * n + (c.toNat - '0'.toNat)) 0)

/-- Splits off a sign: whether the number is negative, and the rest of the text. -/
def splitSign : List Char → Bool × List Char
  | '-' :: cs => (true, cs)
  | '+' :: cs => (false, cs)
  | cs => (false, cs)

/-- An integer with an optional sign. -/
def integer? (cs : List Char) : Option Int :=
  let (negative, rest) := splitSign cs
  (digits? rest).map fun n => if negative then -(n : Int) else n

/-- A text at the first character of some kind: what stands before it and what stands after. -/
def splitAt (stop : Char → Bool) (cs : List Char) : List Char × Option (List Char) :=
  (cs.takeWhile fun c => !stop c, ((cs.dropWhile fun c => !stop c).tail?))

/-- A fraction `p/q` with a nonzero denominator, or an integer. -/
def rational? (s : String) : Option Rat := do
  let (top, bottom) := splitAt (· == '/') s.toList
  let p ← integer? top
  match bottom with
  | none => return p
  | some cs =>
    let q ← integer? cs
    if q = 0 then none else return (p : Rat) / q

/-- Decimal exponents beyond this are read as this one: the number is infinite or zero as a double
either way. -/
def maxExponent : Int := 10000

/-- The magnitude of a decimal without sign: digits, a point among them, an exponent. -/
def magnitude? (cs : List Char) : Option Rat := do
  let (mantissa, exponent) := splitAt (fun c => c == 'e' || c == 'E') cs
  let (whole, fraction) := splitAt (· == '.') mantissa
  let decimals := fraction.getD []
  let n ← digits? (whole ++ decimals)
  let e ← match exponent with
    | none => some 0
    | some ds => integer? ds
  let scale := max (-maxExponent) (min maxExponent (e - decimals.length))
  return (n : Rat) * (10 : Rat) ^ scale

/-- The double that a text stands for, rounded to nearest. -/
def float? (s : String) : Option Float :=
  let (negative, rest) := splitSign s.toList
  let signed (x : Float) : Float := if negative then -x else x
  match (String.ofList rest).toLower with
  | "inf" | "infinity" => some (signed (1.0 / 0.0))
  | "nan" => some (0.0 / 0.0)
  | _ => (magnitude? rest).map fun q => signed (Binary64.nearest q)

end SymbolicAlgebra.Numeral
