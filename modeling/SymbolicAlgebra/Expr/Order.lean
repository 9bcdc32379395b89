import SymbolicAlgebra.Expr.Basic
import SymbolicAlgebra.Number.Rational

/-!
# The canonical order of expressions

`Expr.compare` reads both sides at the coarsest level that one of them has: as lists of terms if
one is a sum, else as lists of factors if one is a product, else as base and exponent if one is a
power; everything else goes by kind and then by content. Constants of larger magnitude come first.
-/

namespace SymbolicAlgebra.Expr

/-- The order of the kinds that are compared by kind. -/
def kindRank : Expr → Nat
  | const _ => 0
  | var .. => 1
  | call .. => 2
  | binary .. => 3
  | not _ => 4
  | set _ => 5
  | sum _ => 6
  | product _ => 7

/-- Constants of larger magnitude first, of two opposite ones the negative. -/
def compareConst (a b : Rat) : Ordering :=
  (Rational.order b.abs a.abs).then (Rational.order a b)

mutual

/-- The canonical order. -/
def compare : Expr → Expr → Ordering
  | sum ts, sum us => compareList ts us
  | sum ts, b => compareToOne ts b
  | a, sum us => compareOneTo a us
  | product ts, product us => compareList ts us
  | product ts, b => compareToOne ts b
  | a, product us => compareOneTo a us
  | binary .power b x, binary .power b' x' => (compare b b').then (compare x x')
  | binary .power b x, e => ((compare b e).then (compare x one)).then .gt
  | e, binary .power b x => ((compare e b).then (compare one x)).then .lt
  | const a, const b => compareConst a b
  | var a _, var b _ => Ord.compare a b
  | call f ts, call g us =>
    ((Ord.compare f.name g.name).then (Ord.compare f.arity g.arity)).then (compareList ts us)
  | binary o l r, binary p l' r' =>
    ((Ord.compare o.rank p.rank).then (compare l l')).then (compare r r')
  | not a, not b => compare a b
  | set ts, set us => compareList ts us
  | a, b => Ord.compare a.kindRank b.kindRank
termination_by a b => (size a + size b, 0)
decreasing_by all_goals grind [size, sizeList, size_pos, one]

/-- The lexicographic order of lists; of two lists where one starts the other, the shorter comes
first. -/
def compareList : List Expr → List Expr → Ordering
  | t :: ts, u :: us => (compare t u).then (compareList ts us)
  | [], _ :: _ => .lt
  | _ :: _, [] => .gt
  | [], [] => .eq
termination_by ts us => (sizeList ts + sizeList us, 1)
decreasing_by all_goals grind [size, sizeList, size_pos, one]

/-- A list against the list of one expression. -/
def compareToOne : List Expr → Expr → Ordering
  | [], _ => .lt
  | [t], b => compare t b
  | t :: _ :: _, b => (compare t b).then .gt
termination_by ts b => (sizeList ts + size b, 1)
decreasing_by all_goals grind [size, sizeList, size_pos, one]

/-- The list of one expression against a list. -/
def compareOneTo : Expr → List Expr → Ordering
  | _, [] => .gt
  | a, [u] => compare a u
  | a, u :: _ :: _ => (compare a u).then .lt
termination_by a us => (size a + sizeList us, 1)
decreasing_by all_goals grind [size, sizeList, size_pos, one]

end

/-- Whether `a` comes strictly before `b`. -/
def before (a b : Expr) : Bool :=
  compare a b == .lt

/-- Puts `x` into a descending list, in front of all that come before it or beside it. -/
def insertDescending (x : Expr) : List Expr → List Expr
  | [] => [x]
  | y :: ys => if before x y then y :: insertDescending x ys else x :: y :: ys

/-- Sorts in the canonical order; equals keep their order. -/
def sort (xs : List Expr) : List Expr :=
  (xs.foldl (fun sorted x => insertDescending x sorted) []).reverse

/-- The list without items that equal the item before them. -/
def dropRepeats : List Expr → List Expr
  | x :: y :: ys => if x == y then dropRepeats (x :: ys) else x :: dropRepeats (y :: ys)
  | xs => xs
termination_by xs => xs.length

end SymbolicAlgebra.Expr
