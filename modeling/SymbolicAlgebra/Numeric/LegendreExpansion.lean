import SymbolicAlgebra.Numeric.Legendre

/-!
# Legendre polynomials of high degree

Near `1` a Legendre polynomial of high degree looks like the Bessel function `J₀`. So the angle of its
zero with some index is nearly a multiple of the zero of `J₀` with that index, and the weight is nearly
a multiple of the squared slope of `J₀` there. Polynomials in the squared angle hold the corrections,
which makes each node a computation of fixed length, good to a few units in the last place for degrees
above a hundred.
-/

namespace SymbolicAlgebra.Numeric

/-- The value of a polynomial; the coefficient of the highest power comes first. -/
def horner (coefficients : List Float) (x : Float) : Float :=
  match coefficients with
  | [] => 0
  | leading :: rest => rest.foldl (fun value c => value * x + c) leading

namespace Bessel

/-- The first zeros of `J₀`. -/
def firstZeros : List Float := [
  2.40482555769577276862163187933, 5.52007811028631064959660411281,
  8.65372791291101221695419871266, 11.7915344390142816137430449119,
  14.9309177084877859477625939974, 18.0710639679109225431478829756,
  21.2116366298792589590783933505, 24.3524715307493027370579447632,
  27.4934791320402547958772882346, 30.6346064684319751175495789269,
  33.7758202135735686842385463467, 36.9170983536640439797694930633,
  40.0584257646282392947993073740, 43.1997917131767303575240727287,
  46.3411883716618140186857888791, 49.4826098973978171736027615332,
  52.6240518411149960292512853804, 55.7655107550199793116834927735,
  58.9069839260809421328344066346, 62.0484691902271698828525002646]

/-- The squares of `J₁` at the first zeros of `J₀`. -/
def firstSquares : List Float := [
  0.269514123941916926139021992911, 0.115780138582203695807812836182,
  0.0736863511364082151406476811985, 0.0540375731981162820417749182758,
  0.0426614290172430912655106063495, 0.0352421034909961013587473033648,
  0.0300210701030546726750888157688, 0.0261473914953080885904584675399,
  0.0231591218246913922652676382178, 0.0207838291222678576039808057297,
  0.0188504506693176678161056800214, 0.0172461575696650082995240053542,
  0.0158935181059235978027065594287, 0.0147376260964721895895742982592,
  0.0137384651453871179182880484134, 0.0128661817376151328791406637228,
  0.0120980515486267975471075438497, 0.0114164712244916085168627222986,
  0.0108075927911802040115547286830, 0.0102603729262807628110423992790,
  0.00976589713979105054059846736696]

/-- The zero of `J₀` with an index from zero on; past the first ones by the expansion for large
arguments. -/
def zero (index : Nat) : Float :=
  match firstZeros[index]? with
  | some z => z
  | none =>
    let z := QuadratureNode.halfTurn * (Float.ofNat (index + 1) - 0.25)
    let r := 1 / z
    z + r * horner [5.09225462402226769498681286758e7, -8.49353580299148769921876983660e5,
      18690.4765282320653831636345064, -567.644412135183381139802038240,
      25.3364147973439050099206349206, -1.82443876720610119047619047619,
      0.246028645833333333333333333333, -0.807291666666666666666666666667e-1, 0.125] (r * r)

/-- The square of `J₁` at the zero of `J₀` with an index from zero on. -/
def slopeSquare (index : Nat) : Float :=
  match firstSquares[index]? with
  | some b => b
  | none =>
    let x := 1 / (Float.ofNat (index + 1) - 0.25)
    let x2 := x * x
    x * (0.202642367284675542887758926420 + x2 * x2 * horner [0.185395398206345628711318848386,
      -0.266837393702323757700998557826e-1, 0.496101423268883102872271417616e-2,
      -0.123632349727175414724737657367e-2, 0.433710719130746277915572905025e-3,
      -0.228969902772111653038747229723e-3, 0.198924364245969295201137972743e-3,
      -0.303380429711290253026202643516e-3] x2)

end Bessel

namespace Legendre

/-- The corrections of an angle, by increasing order, at its squared first approximation. -/
def angleCorrections (x : Float) : Float × Float × Float :=
  (horner [-1.29052996274280508473467968379e-12, 2.40724685864330121825976175184e-10,
      -3.13148654635992041468855740012e-8, 0.275573168962061235623801563453e-5,
      -0.148809523713909147898955880165e-3, 0.416666666665193394525296923981e-2,
      -0.416666666666662959639712457549e-1] x,
    horner [2.20639421781871003734786884322e-9, -7.53036771373769326811030753538e-8,
      0.161969259453836261731700382098e-5, -0.253300326008232025914059965302e-4,
      0.282116886057560434805998583817e-3, -0.209022248387852902722635654229e-2,
      0.815972221772932265640401128517e-2] x,
    horner [-2.97058225375526229899781956673e-8, 5.55845330223796209655886325712e-7,
      -0.567797841356833081642185432056e-5, 0.418498100329504574443885193835e-4,
      -0.251395293283965914823026348764e-3, 0.128654198542845137196151147483e-2,
      -0.416012165620204364833694266818e-2] x)

/-- The corrections of a weight, by increasing order, at the squared first approximation of its
angle. -/
def weightCorrections (x : Float) : Float × Float × Float :=
  (horner [-2.20902861044616638398573427475e-14, 2.30365726860377376873232578871e-12,
      -1.75257700735423807659851042318e-10, 1.03756066927916795821098009353e-8,
      -4.63968647553221331251529631098e-7, 0.149644593625028648361395938176e-4,
      -0.326278659594412170300449074873e-3, 0.436507936507598105249726413120e-2,
      -0.305555555555553028279487898503e-1, 0.833333333333333302184063103900e-1] x,
    horner [3.63117412152654783455929483029e-12, 7.67643545069893130779501844323e-11,
      -7.12912857233642220650643150625e-9, 2.11483880685947151466370130277e-7,
      -0.381817918680045468483009307090e-5, 0.465969530694968391417927388162e-4,
      -0.407297185611335764191683161117e-3, 0.268959435694729660779984493795e-2,
      -0.111111111111214923138249347172e-1] x,
    horner [2.01826791256703301806643264922e-9, -4.38647122520206649251063212545e-8,
      5.08898347288671653137451093208e-7, -0.397933316519135275712977531366e-5,
      0.200559326396458326778521795392e-4, -0.422888059282921161626339411388e-4,
      -0.105646050254076140548678457002e-3, -0.947969308958577323145923317955e-4,
      0.656966489926484797412985260842e-2] x)

/-- A correction of three orders in `x`, each one relative to the one before. -/
def combineOrders (orders : Float × Float × Float) (x : Float) : Float :=
  let (first, second, third) := orders
  first + x * (second + x * third)

/-- The node of the zero at an index in the upper half, for a high degree. -/
def expandedNode (degree index : Nat) : QuadratureNode :=
  let w := 1 / (Float.ofNat degree + 0.5)
  let nu := Bessel.zero index
  let theta := w * nu
  let x := theta * theta
  let ratio := nu / theta.sin
  let slope := Bessel.slopeSquare index * ratio
  let small := w * w * ratio
  let order := small * small
  ⟨w * (nu + theta * small * combineOrders (angleCorrections x) order),
    (2 * w) / (slope + slope * order * combineOrders (weightCorrections x) order)⟩

/-- The highest degree whose nodes are computed exactly. -/
def maxExactDegree : Nat := 100

/-- The node of the zero at an index in the upper half, which includes a zero in the middle. -/
def halfNode (degree index : Nat) : QuadratureNode :=
  if maxExactDegree < degree then expandedNode degree index
  else if 2 * index + 1 = degree then centralNode degree
  else upperNode degree index

/-- All nodes, from the largest on. -/
def nodes (degree : Nat) : List QuadratureNode :=
  let upper := (List.range ((degree + 1) / 2)).map (halfNode degree)
  upper ++ ((upper.take (degree / 2)).reverse.map QuadratureNode.reflect)

end Legendre

end SymbolicAlgebra.Numeric
