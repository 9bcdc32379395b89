import SymbolicAlgebra.Error

/-!
# Numbers in expressions

Doubles as exact constants, and expressions whose constants are rounded for display. Rounding leaves
every operand in its place, so the rounded expression need not be in canonical order.
-/

namespace SymbolicAlgebra.Expr

/-- The exact value of a finite double as a constant. -/
def ofFloat (x : Float) : Result Expr :=
  match Binary64.value? x with
  | some q => .ok (.const q)
  | none => refuse (.notFinite x)

mutual

/-- Replaces every constant and leaves all else in place. -/
def mapConst (f : Rat → Rat) : Expr → Expr
  | const q => const (f q)
  | var n c => var n c
  | sum ts => sum (mapConstList f ts)
  | product fs => product (mapConstList f fs)
  | binary op l r => binary op (mapConst f l) (mapConst f r)
  | not a => not (mapConst f a)
  | call g args => call g (mapConstList f args)
  | set ms => set (mapConstList f ms)

/-- Replaces every constant in a list. -/
def mapConstList (f : Rat → Rat) : List Expr → List Expr
  | [] => []
  | t :: ts => mapConst f t :: mapConstList f ts

end

/-- A plain number as it is, any other rounded to a count of significant digits. -/
def roundConst (count : Nat) (q : Rat) : Rat :=
  if Rational.isPlain q then q else Decimal.roundTo count q

/-- The expression with every constant that is not plain rounded to a count of significant digits. -/
def rounded (count : Nat) (e : Expr) : Expr :=
  e.mapConst (roundConst count)

end SymbolicAlgebra.Expr
