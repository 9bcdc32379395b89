import SymbolicAlgebra.Number.LogOnePlus

/-!
# Built-in functions: names and parameters

The closed list of built-in functions with their signatures. A parameter either accepts any
argument or makes the function apply to constants only, and it may hold substitutions back
(`deferred`): the differentiation variable of `D[f, x]` is not to be replaced before the derivative
is taken. What the functions compute is said in the modules of the operations they name.
-/

namespace SymbolicAlgebra

/-- What a built-in function asks of an argument. -/
inductive ParameterKind where
  /-- The function applies to constants only. -/
  | constant
  | any
  deriving DecidableEq, Repr, Inhabited

/-- The word for a kind of parameter. -/
def ParameterKind.name : ParameterKind → String
  | .constant => "Constant"
  | .any => "Any"

/-- A parameter of a built-in function. -/
structure Parameter where
  name : String
  kind : ParameterKind
  /-- Substitutions into this argument wait until the call has been evaluated. -/
  deferred : Bool
  deriving DecidableEq, Repr, Inhabited

namespace Parameter

def constant (name : String) : Parameter := ⟨name, .constant, false⟩

def any (name : String) : Parameter := ⟨name, .any, false⟩

def deferring (name : String) : Parameter := ⟨name, .any, true⟩

end Parameter

/-- Functions of one real argument that are computed in doubles. -/
inductive Elementary where
  | sin | cos | tan | sec | csc | cot
  | arcSin | arcCos | arcTan | arcSec | arcCsc | arcCot
  | sinh | cosh | tanh | sech | csch | coth
  | arcSinh | arcCosh | arcTanh | arcSech | arcCsch | arcCoth
  | exp | ln
  deriving DecidableEq, Repr, Inhabited

namespace Elementary

def name : Elementary → String
  | sin => "Sin" | cos => "Cos" | tan => "Tan" | sec => "Sec" | csc => "Csc" | cot => "Cot"
  | arcSin => "ArcSin" | arcCos => "ArcCos" | arcTan => "ArcTan"
  | arcSec => "ArcSec" | arcCsc => "ArcCsc" | arcCot => "ArcCot"
  | sinh => "Sinh" | cosh => "Cosh" | tanh => "Tanh"
  | sech => "Sech" | csch => "Csch" | coth => "Coth"
  | arcSinh => "ArcSinh" | arcCosh => "ArcCosh" | arcTanh => "ArcTanh"
  | arcSech => "ArcSech" | arcCsch => "ArcCsch" | arcCoth => "ArcCoth"
  | exp => "Exp" | ln => "Ln"

/-- The value at a double. The reciprocal functions are those of the reciprocal. -/
def apply : Elementary → Float → Float
  | sin, x => x.sin
  | cos, x => x.cos
  | tan, x => x.tan
  | sec, x => 1.0 / x.cos
  | csc, x => 1.0 / x.sin
  | cot, x => 1.0 / x.tan
  | arcSin, x => x.asin
  | arcCos, x => x.acos
  | arcTan, x => x.atan
  | arcSec, x => (1.0 / x).acos
  | arcCsc, x => (1.0 / x).asin
  | arcCot, x => (1.0 / x).atan
  | sinh, x => x.sinh
  | cosh, x => x.cosh
  | tanh, x => x.tanh
  | sech, x => 1.0 / x.cosh
  | csch, x => 1.0 / x.sinh
  | coth, x => 1.0 / x.tanh
  | arcSinh, x => x.asinh
  | arcCosh, x => x.acosh
  | arcTanh, x => Binary64.areaTangent x
  | arcSech, x => (1.0 / x).acosh
  | arcCsch, x => (1.0 / x).asinh
  | arcCoth, x => Binary64.areaTangent (1.0 / x)
  | exp, x => x.exp
  | ln, x => x.log

/-- All elementary functions. -/
def all : List Elementary :=
  [sin, cos, tan, sec, csc, cot, arcSin, arcCos, arcTan, arcSec, arcCsc, arcCot,
    sinh, cosh, tanh, sech, csch, coth, arcSinh, arcCosh, arcTanh, arcSech, arcCsch, arcCoth,
    exp, ln]

end Elementary

/-- The built-in functions. -/
inductive Native where
  | elementary (f : Elementary)
  | abs | sign | min | max | sqrt | log | floor | ceiling | round | factorial
  | isConstant | isInteger | isNatural | isFunctionOf
  | simplify | factor | factorIn | expand | expandIn | expandLog
  | solve | solveNumerically | solveNumericallyWith | solveDifferential
  | derivative | integral | laplace | inverseLaplace
  deriving DecidableEq, Repr, Inhabited

namespace Native

/-- The name under which a function is called; `Factor`, `Expand` and `NSolve` have two arities. -/
def name : Native → String
  | elementary f => f.name
  | abs => "Abs" | sign => "Sign" | min => "Min" | max => "Max"
  | sqrt => "Sqrt" | log => "Log" | floor => "Floor" | ceiling => "Ceiling" | round => "Round"
  | factorial => "Factorial"
  | isConstant => "IsConstant" | isInteger => "IsInteger" | isNatural => "IsNatural"
  | isFunctionOf => "IsFunctionOf"
  | simplify => "Simplify" | factor => "Factor" | factorIn => "Factor"
  | expand => "Expand" | expandIn => "Expand" | expandLog => "ExpandLog"
  | solve => "Solve" | solveNumerically => "NSolve" | solveNumericallyWith => "NSolve"
  | solveDifferential => "DSolve"
  | derivative => "D" | integral => "I" | laplace => "L" | inverseLaplace => "IL"

/-- The parameters in order. -/
def parameters : Native → List Parameter
  | elementary _ | abs | sign | sqrt | floor | ceiling | round | factorial
  | isInteger | isNatural => [.constant "x"]
  | min | max => [.constant "x", .constant "y"]
  | log => [.constant "x", .constant "b"]
  | isConstant | simplify => [.any "x"]
  | factor | expand | expandLog => [.any "f"]
  | isFunctionOf | factorIn | expandIn | solve | solveNumerically => [.any "f", .any "x"]
  | solveNumericallyWith => [.any "f", .any "x", .constant "e", .constant "n"]
  | solveDifferential => [.any "f", .any "y", .any "y0", .any "t"]
  | derivative | integral => [.any "f", .deferring "x"]
  | laplace => [.any "f", .deferring "t", .any "s"]
  | inverseLaplace => [.any "f", .deferring "s", .any "t"]

/-- The signature in words, such as `Log[x, b]`. -/
def signature (f : Native) : String :=
  f.name ++ "[" ++ String.intercalate ", " (f.parameters.map Parameter.name) ++ "]"

/-- All built-in functions, in the order in which they enter a namespace. -/
def all : List Native :=
  [abs, sign, min, max] ++ Elementary.all.map elementary ++
  [sqrt, log, floor, ceiling, round, factorial, isConstant, isInteger, isNatural,
    isFunctionOf, simplify, factor, factorIn, expand, expandIn, expandLog,
    solve, solveNumerically, solveNumericallyWith, solveDifferential,
    derivative, integral, laplace, inverseLaplace]

end Native

end SymbolicAlgebra
