import SymbolicAlgebra.Number.Binary64

/-!
# Decimal texts of numbers

Two roundings to decimal digits and the texts made of them: the fewest digits that still read
back as a given double (`shortest`, printed without exponent), and a fixed number of significant
digits of a rational (`roundTo`, printed in scientific form). Both are computed exactly.
-/

namespace SymbolicAlgebra.Decimal

/-- The number of decimal digits of `n`; `0` has one. -/
def digitCount (n : Nat) : Nat :=
  (Nat.toDigits 10 n).length

/-- `10 ^ k` for an exponent of either sign, as a fraction. -/
def powerOfTen (k : Int) : Nat × Nat :=
  (Nat.pow 10 k.toNat, Nat.pow 10 (-k).toNat)

/-- The exponent `k` with `10 ^ k ≤ num / den < 10 ^ (k + 1)`, for a positive fraction. -/
def leadingExponent (num den : Nat) : Int :=
  let guess : Int := (digitCount num : Int) - (digitCount den : Int)
  let (p, q) := powerOfTen guess
  if num * q < den * p then guess - 1 else guess

/-- A positive decimal number `digits * 10 ^ scale`. -/
structure Digits where
  digits : Nat
  scale : Int

/-- The fraction of natural numbers that a decimal number stands for. -/
def Digits.fraction (d : Digits) : Nat × Nat :=
  let (p, q) := powerOfTen d.scale
  (d.digits * p, q)

/-- The distance of two fractions as a fraction over the product of their denominators. -/
def distance (a b : Nat × Nat) : Nat × Nat :=
  let x := a.1 * b.2
  let y := b.1 * a.2
  ((x - y) + (y - x), a.2 * b.2)

/-- Whether a decimal number rounds to the positive double `significand * 2 ^ exponent`: it lies
between the midpoints to the two neighbouring doubles, the midpoints included when the
significand is even. The gap below a power of two is half the gap above it. -/
def readsBack (p : Binary64.Parts) (d : Digits) : Bool :=
  let quarter := p.exponent - 2
  let m := 4 * p.significand
  let low := if p.significand = 1 <<< 52 ∧ -1074 < p.exponent then m - 1 else m - 2
  let high := m + 2
  let unit : Nat × Nat := (1 <<< quarter.toNat, 1 <<< (-quarter).toNat)
  let (num, den) := d.fraction
  let value := num * unit.2
  let lower := low * unit.1 * den
  let upper := high * unit.1 * den
  if p.significand % 2 == 0 then lower ≤ value && value ≤ upper
  else lower < value && value < upper

/-- Of the two neighbours of the double on the grid of `count` significant digits, the one that
reads back; of two such the nearer one, and the upper one when both are equally near. -/
def onGrid? (p : Binary64.Parts) (lead : Int) (count : Nat) : Option Digits :=
  let scale := lead - (count : Int) + 1
  let (num, den) := p.fraction
  let (s, t) := powerOfTen scale
  let below : Digits := ⟨num * t / (den * s), scale⟩
  let above : Digits := ⟨below.digits + 1, scale⟩
  match readsBack p below, readsBack p above with
  | true, true =>
    let (a, b) := distance (num, den) below.fraction
    let (c, d) := distance (num, den) above.fraction
    if a * d < c * b then some below else some above
  | true, false => some below
  | false, true => some above
  | false, false => none

/-- The decimal number with the fewest digits that reads back as the positive double `p`. Seventeen
digits always do. -/
def shortest (p : Binary64.Parts) : Digits :=
  let (num, den) := p.fraction
  let lead := leadingExponent num den
  ((List.range 17).findSome? fun n => onGrid? p lead (n + 1)).getD ⟨p.significand, 0⟩

/-- The digits without trailing zeros. -/
def significantDigits (n : Nat) : String :=
  let ds := (Nat.toDigits 10 n).reverse.dropWhile (· == '0')
  if ds.isEmpty then "0" else String.ofList ds.reverse

/-- `count` zeros. -/
def zeros (count : Nat) : String :=
  String.ofList (List.replicate count '0')

/-- A decimal number without exponent: zeros fill the places up to the point, and an integer has
no point. -/
def Digits.positional (d : Digits) : String :=
  let text := significantDigits d.digits
  let point := (digitCount d.digits : Int) + d.scale
  let count := text.length
  if point ≤ 0 then "0." ++ zeros (-point).toNat ++ text
  else if (count : Int) ≤ point then text ++ zeros (point.toNat - count)
  else String.ofList (text.toList.take point.toNat) ++ "." ++
    String.ofList (text.toList.drop point.toNat)

/-- The text of a double: the fewest digits that read back, never with an exponent. -/
def floatText (x : Float) : String :=
  match Binary64.parts? x with
  | none => if x.isNaN then "NaN" else if x < 0 then "-inf" else "inf"
  | some p =>
    let magnitude := if p.significand = 0 then "0" else (shortest p).positional
    if p.negative then "-" ++ magnitude else magnitude

/-- Rounds the quotient `num / den` to an integer, a half upwards. -/
def divideHalfUp (num den : Nat) : Nat :=
  (2 * num + den) / (2 * den)

/-- A rational rounded to `count` significant decimal digits, a half away from zero. -/
def roundTo (count : Nat) (q : Rat) : Rat :=
  if q.num = 0 then 0
  else
    let scale := leadingExponent q.num.natAbs q.den - (count : Int) + 1
    let (s, t) := powerOfTen scale
    let digits := divideHalfUp (q.num.natAbs * t) (q.den * s)
    mkRat (q.num.sign * (digits * s : Nat)) t

/-- The scientific text of a rational with at most `count` significant digits: the first digit, the
remaining ones after a point, and the decimal exponent. -/
def scientific (count : Nat) (q : Rat) : String :=
  if q.num = 0 then "0"
  else
    let lead := leadingExponent q.num.natAbs q.den
    let (s, t) := powerOfTen (lead - (count : Int) + 1)
    let text := significantDigits (q.num.natAbs * t / (q.den * s))
    let (first, rest) := (text.toList.take 1, text.toList.drop 1)
    let sign := if q.num < 0 then "-" else ""
    let fraction := if rest.isEmpty then "" else "." ++ String.ofList rest
    sign ++ String.ofList first ++ fraction ++ "e" ++ toString lead

/-- The scientific text of a double rounded to `count` significant digits; both zeros are `0`. -/
def floatScientific (count : Nat) (x : Float) : String :=
  match Binary64.value? x with
  | none => if x.isNaN then "NaN" else if x < 0 then "-inf" else "inf"
  | some q => scientific count (roundTo count q)

end SymbolicAlgebra.Decimal
