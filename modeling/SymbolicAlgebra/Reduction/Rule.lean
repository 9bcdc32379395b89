import SymbolicAlgebra.Matching

/-!
# Reduction rules

A rule reduces what its pattern matches to the evaluated instance of its result, if all of its
conditions evaluate to a true constant under the bindings of the match.
-/

namespace SymbolicAlgebra

/-- A pattern, what a match is reduced to, and conditions on the match. -/
structure Rule where
  pattern : Expr
  result : Expr
  conditions : List Expr

namespace Rule

/-- A rule without conditions. -/
def plain (pattern result : Expr) : Rule := ⟨pattern, result, []⟩

/-- Whether all conditions hold under the bindings. -/
def accepts (r : Rule) (b : Bindings) (ctx : Context) : Bool :=
  r.conditions.all fun c => ((c.instantiate b).evaluate ctx).isTrue

/-- What the rule makes of an expression; `none` when it does not apply. -/
def reduct? (r : Rule) (e : Expr) (ctx : Context) : Option Expr :=
  match r.pattern.match? e ctx with
  | some b => if r.accepts b ctx then some ((r.result.instantiate b).evaluate ctx) else none
  | none => none

end Rule

/-- A rule that remembers its results. -/
structure RememberingRule where
  rule : Rule
  known : List (Expr × Option Expr)

namespace RememberingRule

def new (rule : Rule) : RememberingRule := ⟨rule, []⟩

/-- The number of expressions it remembers. -/
def size (r : RememberingRule) : Nat := r.known.length

/-- What the rule makes of an expression, computed once for equal expressions. -/
def apply (r : RememberingRule) (e : Expr) (ctx : Context) : Option Expr × RememberingRule :=
  match r.known.find? fun (k, _) => k == e with
  | some (_, result) => (result, r)
  | none =>
    let result := r.rule.reduct? e ctx
    (result, { r with known := (e, result) :: r.known })

end RememberingRule

end SymbolicAlgebra
