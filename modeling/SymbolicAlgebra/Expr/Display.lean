import SymbolicAlgebra.Expr.Canonical

/-!
# The text of an expression

Infix operators with as few parentheses as their precedence allows, negative terms subtracted,
reciprocals below a fraction bar, calls as `Sin[x]` and sets in braces.
-/

namespace SymbolicAlgebra

/-- The operator between its operands. -/
def BinaryOp.text : BinaryOp → String
  | power => "^"
  | conj => " & "
  | disj => " | "
  | equal => " == "
  | notEqual => " != "
  | greater => " > "
  | less => " < "
  | greaterEqual => " >= "
  | lessEqual => " <= "
  | approxEqual => " ~= "
  | arrow => " -> "
  | substitute => " : "

/-- How tightly an operator binds. -/
def BinaryOp.precedence : BinaryOp → Nat
  | arrow | substitute => 1
  | disj => 2
  | conj => 3
  | power => 9
  | _ => 4

namespace Expr

/-- What stands without parentheses everywhere. -/
def atomPrecedence : Nat := 10

/-- How tightly the outermost operator of the text binds; a negative or fractional constant counts as
a product. -/
def precedence : Expr → Nat
  | binary op _ _ => op.precedence
  | sum _ => 5
  | product _ => 6
  | not _ => 7
  | const q => if q < 0 || q.den != 1 then 6 else atomPrecedence
  | _ => atomPrecedence

/-- A term with a negative constant factor, printed after a minus sign. -/
def isNegativeTerm (t : Expr) : Bool :=
  t.factors.any fun
    | const q => decide (q < 0)
    | _ => false

/-- A product laid out as a fraction. -/
structure Fraction where
  negative : Bool
  numerator : List Expr
  denominator : List Expr

/-- Adds a factor: the sign of a negative constant goes to the front, reciprocals go below the bar. -/
def Fraction.push (acc : Fraction) (factor : Expr) : Fraction :=
  match factor with
  | const q =>
    if q < 0 then
      ⟨!acc.negative,
        if q = -1 then acc.numerator else acc.numerator ++ [const (-q)], acc.denominator⟩
    else { acc with numerator := acc.numerator ++ [factor] }
  | _ =>
    if factor.isReciprocal then { acc with denominator := acc.denominator ++ [factor] }
    else { acc with numerator := acc.numerator ++ [factor] }

/-- The layout of a list of factors. -/
def Fraction.ofFactors (factors : List Expr) : Fraction :=
  factors.foldl Fraction.push ⟨false, [], []⟩

/-- Text in parentheses when it binds more loosely than `min`. -/
def enclose (e : Expr) (min : Nat) (text : String) : String :=
  if e.precedence < min then "(" ++ text ++ ")" else text

/-- The text of an expression, with a bound on the depth that is printed. -/
def textTo : Nat → Expr → String
  | 0, _ => ""
  | depth + 1, e =>
    let child (min : Nat) (c : Expr) : String := enclose c min (textTo depth c)
    let separated (items : List Expr) : String :=
      String.intercalate ", " (items.map (textTo depth))
    let later (t : Expr) : String :=
      if t.isNegativeTerm then " - " ++ child 6 (negate t) else " + " ++ child 6 t
    match e with
    | const q => Rational.text q
    | var n _ => n
    | sum [] => ""
    | sum (t :: ts) => child 6 t ++ String.join (ts.map later)
    | product fs =>
      let layout := Fraction.ofFactors fs
      let below := denominator (productOf layout.denominator)
      (if layout.negative then "-" else "") ++
        (if layout.numerator.isEmpty then "1"
          else String.intercalate "*" (layout.numerator.map (child 7))) ++
        (if below.isOne then "" else "/" ++ child 7 below)
    | binary .power b x => child atomPrecedence b ++ "^" ++ child atomPrecedence x
    | binary op l r => child op.precedence l ++ op.text ++ child (op.precedence + 1) r
    | not a => "!" ++ child 7 a
    | call f args => f.name ++ "[" ++ separated args ++ "]"
    | set ms => "\x7b" ++ separated ms ++ "\x7d"

/-- The text of an expression. Every level of the text is a level of the expression, except that a
fraction bar rearranges one level of factors into at most two. -/
def text (e : Expr) : String :=
  textTo (2 * e.size + 2) e

instance : ToString Expr := ⟨text⟩

end Expr

end SymbolicAlgebra
