import SymbolicAlgebra.Number.Binary64

/-!
# Zeros of Legendre polynomials

The nodes and weights of Gauss-Legendre quadrature. A node is kept as the angle whose cosine it is,
since angles stay apart where the nodes crowd together near `1` and `-1`. The angles in the upper half
and the weights are the doubles nearest to the exact values: those are computed by Newton's method on
integers that count units of `2 ^ -precision`, in which no rounding of doubles takes part.
-/

namespace SymbolicAlgebra.Numeric

/-- A node of a quadrature rule, as the cosine of an angle, and its weight. -/
structure QuadratureNode where
  angle : Float
  weight : Float

namespace QuadratureNode

/-- The double nearest to half the circumference of the unit circle. -/
def halfTurn : Float := 3.141592653589793

def position (n : QuadratureNode) : Float := n.angle.cos

/-- The node on the other side of zero. -/
def reflect (n : QuadratureNode) : QuadratureNode := { n with angle := halfTurn - n.angle }

end QuadratureNode

namespace Legendre

/-- The number of binary places of the integers that stand for reals. -/
def precision : Nat := 160

/-- The integer that stands for one. -/
def unit : Int := Int.pow 2 precision

/-- The product of two reals. -/
def times (a b : Int) : Int := (a * b) >>> precision

/-- The cosine and the sine of an angle of at most a quarter turn, by their power series. -/
def cosSin (angle : Int) : Int × Int :=
  let square := times angle angle
  let (_, _, c, s) := (List.range 30).foldl (fun (cosTerm, sinTerm, c, s) (k : Nat) =>
    let n : Int := 2 * k
    (-(times cosTerm square) / ((n + 1) * (n + 2)), -(times sinTerm square) / ((n + 2) * (n + 3)),
      c + cosTerm, s + sinTerm)) (unit, angle, 0, 0)
  (c, s)

/-- The values at `x` of the polynomials of the degree before a positive degree and of that degree. -/
def values (degree : Nat) (x : Int) : Int × Int :=
  (List.range' 1 (degree - 1)).foldl (fun (previous, current) (k : Nat) =>
    let n : Int := k
    (current, ((2 * n + 1) * times x current - n * previous) / (n + 1))) (unit, x)

/-- At the cosine of an angle: its sine, the polynomial's value, and its derivative by the angle
times the negative sine. -/
def atAngle (degree : Nat) (angle : Int) : Int × Int × Int :=
  let (c, s) := cosSin angle
  let (previous, current) := values degree c
  (s, current, degree * (previous - times c current))

/-- Newton steps towards the angle of a zero. -/
def refine (degree : Nat) : Nat → Int → Int
  | 0, angle => angle
  | steps + 1, angle =>
    let (s, value, slope) := atAngle degree angle
    refine degree steps (angle + times value s * unit / slope)

/-- Newton steps enough to use up the precision: each one doubles the correct digits. -/
def newtonSteps : Nat := 9

/-- The node of the zero at an index below half the degree, counted from the largest. -/
def upperNode (degree index : Nat) : QuadratureNode :=
  let start := unit * 355 * (4 * (index : Int) + 3) / (113 * (4 * (degree : Int) + 2))
  let angle := refine degree newtonSteps start
  let (s, _, slope) := atAngle degree angle
  ⟨Binary64.nearest (mkRat angle (1 <<< precision)),
    Binary64.nearest (mkRat (2 * s * s) (slope * slope).toNat)⟩

/-- The magnitude of the derivative at zero of the polynomial of an odd degree. -/
def centralSlope (degree : Nat) : Rat :=
  (List.range (degree / 2)).foldl (fun slope (k : Nat) => slope * mkRat (2 * (k : Int) + 3) (2 * k + 2)) 1

/-- The node of the zero at `0` of an odd degree. -/
def centralNode (degree : Nat) : QuadratureNode :=
  let slope := Binary64.nearest (centralSlope degree)
  ⟨QuadratureNode.halfTurn / 2, 2 / (slope * slope)⟩

end Legendre

end SymbolicAlgebra.Numeric
