import SymbolicAlgebra.Expr.Order

/-!
# Canonical sums, products and sets

The constructors that keep expressions in normal form: nested sums and products are flattened,
constants are folded into one, neutral elements are dropped, a zero factor annihilates, and the
operands are sorted. Nothing is collected or evaluated beyond that.
-/

namespace SymbolicAlgebra.Expr

/-- The operands of a sum or product, split into the constants and the rest, both in order. -/
structure Operands where
  constants : List Rat
  others : List Expr

/-- Sorts out the operands one after the other. -/
def Operands.ofList (xs : List Expr) : Operands :=
  ⟨xs.filterMap asConst?, xs.filter fun x => !x.isConst⟩

/-- A sum over its sorted terms: none is `0`, one is the term itself. -/
def ofTerms : List Expr → Expr
  | [] => zero
  | [t] => t
  | ts => sum ts

/-- A product over its sorted factors: none is `1`, one is the factor itself. -/
def ofFactors : List Expr → Expr
  | [] => one
  | [f] => f
  | fs => product fs

/-- The canonical sum. -/
def sumOf (xs : List Expr) : Expr :=
  let parts := Operands.ofList (xs.flatMap terms)
  let constant := parts.constants.foldl (· + ·) 0
  ofTerms (sort (if constant = 0 then parts.others else parts.others ++ [const constant]))

/-- The canonical product. -/
def productOf (xs : List Expr) : Expr :=
  let parts := Operands.ofList (xs.flatMap factors)
  let constant := parts.constants.foldl (· * ·) 1
  if constant = 0 then zero
  else ofFactors (sort (if constant = 1 then parts.others else parts.others ++ [const constant]))

/-- The canonical set: sorted, without duplicates. -/
def setOf (xs : List Expr) : Expr :=
  set (dropRepeats (sort xs))

def negate (x : Expr) : Expr := productOf [const (-1), x]

def subtract (a b : Expr) : Expr := sumOf [a, negate b]

def divide (a b : Expr) : Expr := productOf [a, inverse b]

instance : Add Expr := ⟨fun a b => sumOf [a, b]⟩
instance : Mul Expr := ⟨fun a b => productOf [a, b]⟩
instance : Sub Expr := ⟨subtract⟩
instance : Div Expr := ⟨divide⟩
instance : Neg Expr := ⟨negate⟩
instance (n : Nat) : OfNat Expr n := ⟨const (n : Rat)⟩

/-- A power with an integer exponent. -/
def pow (base : Expr) (n : Int) : Expr := power base (int n)

/-- The product of the factors that are no reciprocals. -/
def numerator (e : Expr) : Expr :=
  productOf (e.factors.filter fun f => !f.isReciprocal)

/-- The power with the opposite constant exponent, for a reciprocal. -/
def flipped? : Expr → Option Expr
  | binary .power b (const q) =>
    if q < 0 then some (if q = -1 then b else power b (const (-q))) else none
  | _ => none

/-- The product of the flipped reciprocal factors. -/
def denominator (e : Expr) : Expr :=
  productOf (e.factors.filterMap flipped?)

/-- The integer exponent of a power that fits into 64 bits; `1` for everything else. -/
def integralExponent : Expr → Int
  | binary .power _ (const q) => (Rational.toInt64? q).getD 1
  | _ => 1

end SymbolicAlgebra.Expr
