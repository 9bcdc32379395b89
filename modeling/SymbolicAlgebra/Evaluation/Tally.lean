import SymbolicAlgebra.Expr.Occurrence

/-!
# Like terms

A tally adds up rational amounts for expressions and lists them in canonical order. With it
`collect` turns a list of terms into a sum in which no two terms are multiples of the same
expression.
-/

namespace SymbolicAlgebra

/-- Expressions in ascending canonical order, each with an amount. -/
structure Tally where
  entries : List (Expr × Rat)

namespace Tally

def empty : Tally := ⟨[]⟩

/-- Adds an amount to that of `key` in an ascending list. -/
def addTo (key : Expr) (amount : Rat) : List (Expr × Rat) → List (Expr × Rat)
  | [] => [(key, amount)]
  | (k, q) :: rest =>
    match Expr.compare key k with
    | .lt => (key, amount) :: (k, q) :: rest
    | .eq => (k, q + amount) :: rest
    | .gt => (k, q) :: addTo key amount rest

/-- Adds an amount to that of `key`, which starts from zero. -/
def add (t : Tally) (key : Expr) (amount : Rat) : Tally :=
  ⟨addTo key amount t.entries⟩

/-- Forgets `key`. -/
def erase (t : Tally) (key : Expr) : Tally :=
  ⟨t.entries.filter fun (k, _) => Expr.compare key k != .eq⟩

end Tally

namespace Expr

/-- Takes the first constant out of a list of factors. -/
def takeConst : List Expr → Option (Rat × List Expr)
  | [] => none
  | const q :: rest => some (q, rest)
  | f :: rest => (takeConst rest).map fun (q, others) => (q, f :: others)

/-- A term as a coefficient and the expression that it is a multiple of. -/
def splitCoefficient (t : Expr) : Rat × Expr :=
  match takeConst t.factors with
  | some (q, rest) => (q, productOf rest)
  | none => (1, t)

/-- The multiple `q * t`. -/
def scaled (q : Rat) (t : Expr) : Expr :=
  if q = 1 then t else productOf [const q, t]

/-- The sum of evaluated terms with like terms combined. -/
def collect (ts : List Expr) : Expr :=
  let constant := (ts.filterMap asConst?).foldl (· + ·) 0
  let tally := (ts.filter fun t => !t.isConst).foldl
    (fun tally t => let (q, rest) := splitCoefficient t; tally.add rest q) Tally.empty
  let kept := tally.entries.filter fun (_, q) => q != 0
  sumOf (kept.map (fun (t, q) => scaled q t) ++ if constant = 0 then [] else [const constant])

end Expr

end SymbolicAlgebra
