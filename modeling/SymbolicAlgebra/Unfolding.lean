import SymbolicAlgebra.Error
import SymbolicAlgebra.Evaluation.Memo
import SymbolicAlgebra.Expr.Traversal

/-!
# Unfolding definitions

A finite map from names to expressions is unfolded in an expression: every mapped variable is
replaced by the unfolding of its expression. Results are kept, so that equal expressions are unfolded
once, and an expression met inside its own unfolding is reported as a cycle.
-/

namespace SymbolicAlgebra.Unfolding

/-- What variables stand for. -/
abbrev Definitions := List (String × Expr)

/-- The expression of a name; of two entries of a name the last one counts. -/
def lookup? (definitions : Definitions) (name : String) : Option Expr :=
  (definitions.reverse.find? fun (n, _) => n == name).map Prod.snd

/-- Fallible computations with a memo table, which survives a failure. -/
abbrev Unfold := ExceptT AlgebraError (StateM Memo)

/-- The kept result for `e`, or that of `compute`; a failed computation leaves no entry. -/
def memoized (compute : Expr → Unfold Expr) (e : Expr) : Unfold Expr := do
  match (← get).find? e with
  | some (.done result) => return result
  | some .inFlight => throw (.cycle e)
  | none =>
    modify fun m => m.start e
    tryCatch
      (do
        let result ← compute e
        modify fun m => m.finish e result
        return result)
      fun cause => do
        modify fun m => m.abandon e
        throw cause

/-- One step: a mapped variable is replaced by the visit of its expression. -/
def step {m : Type → Type} [Monad m] (definitions : Definitions) (visit : Expr → m Expr) (e : Expr) :
    m Expr :=
  match e with
  | .var n _ =>
    match lookup? definitions n with
    | some value => visit value
    | none => return e
  | e => e.mapChildrenM visit

/-- Unfolding down to a depth. -/
def visitTo (definitions : Definitions) : Nat → Expr → Unfold Expr
  | 0, e => throw (.tooDeep e)
  | depth + 1, e => memoized (step definitions (visitTo definitions depth)) e

/-- The number of nodes that an unfolding can have in flight at once: those of the expression and of
all definitions. -/
def depthFor (definitions : Definitions) (e : Expr) : Nat :=
  definitions.foldl (fun n (_, value) => n + value.size) e.size + 1

/-- The unfolding of `f` or the cycle that prevents it, and the memo table afterwards. -/
def unfold (definitions : Definitions) (f : Expr) : Result Expr × Memo :=
  ((visitTo definitions (depthFor definitions f) f).run).run .empty

end SymbolicAlgebra.Unfolding
