import SymbolicAlgebra.Expr.Canonical

/-!
# Occurrence and cost

`dependsOn` says whether an expression occurs in another one, which decides what counts as a
constant for an operator in a variable, and what a pattern variable may bind (`Condition.accepts`).
`cost` is the measure by which equivalent forms are ranked.
-/

namespace SymbolicAlgebra.Expr

mutual

/-- Whether one of `xs` occurs in an expression. -/
def mentions (xs : List Expr) : Expr → Bool
  | const q => xs.contains (const q)
  | var n c => xs.contains (var n c)
  | sum ts => xs.contains (sum ts) || mentionsList xs ts
  | product ts => xs.contains (product ts) || mentionsList xs ts
  | binary o l r => xs.contains (binary o l r) || mentions xs l || mentions xs r
  | not a => xs.contains (not a) || mentions xs a
  | call f ts => xs.contains (call f ts) || mentionsList xs ts
  | set ts => xs.contains (set ts) || mentionsList xs ts

/-- Whether one of `xs` occurs in a list of expressions. -/
def mentionsList (xs : List Expr) : List Expr → Bool
  | [] => false
  | t :: ts => mentions xs t || mentionsList xs ts

end

/-- Whether one of `xs` occurs in `f`. -/
def dependsOnAny (f : Expr) (xs : List Expr) : Bool :=
  mentions xs f

/-- Whether `x`, or a member of `x` when it is a set, occurs in `f`. -/
def dependsOn (f x : Expr) : Bool :=
  dependsOnAny f x.members

mutual

/-- The cost of a form: operators count one for each pair of operands, a call counts five. -/
def cost : Expr → Nat
  | const _ => 1
  | var .. => 1
  | sum ts => costList ts + ts.length - 1
  | product ts => costList ts + ts.length - 1
  | binary _ l r => cost l + cost r + 1
  | not a => cost a + 1
  | call _ ts => costList ts + 5
  | set ts => costList ts

/-- The total cost of a list. -/
def costList : List Expr → Nat
  | [] => 0
  | t :: ts => cost t + costList ts

end

end SymbolicAlgebra.Expr

namespace SymbolicAlgebra.Condition

/-- Whether a pattern variable with this condition may stand for `e`. -/
def accepts : Condition → Expr → Bool
  | .integer, e => e.asConst?.any Rational.isInteger
  | .constant, e => e.isConst
  | .symbol, e => e.isVar
  | .notOne, e => !e.isOne
  | .notZero, e => !e.isZero
  | .free x, e => !e.dependsOn x

end SymbolicAlgebra.Condition
