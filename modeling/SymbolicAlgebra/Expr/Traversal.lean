import SymbolicAlgebra.Expr.Canonical

/-!
# Traversal

`mapChildrenM` visits the operands of an expression in order and builds the expression anew from what
the visits give. Since the constructors are canonical, an expression whose operands are all left
alone comes back unchanged.
-/

namespace SymbolicAlgebra.Expr

variable {m : Type → Type} [Monad m]

/-- Visits the items of a list in order. -/
def mapListM (visit : Expr → m Expr) : List Expr → m (List Expr)
  | [] => return []
  | t :: ts => do
    let first ← visit t
    return first :: (← mapListM visit ts)

/-- The expression with its operands replaced by what their visits give. -/
def mapChildrenM (visit : Expr → m Expr) (e : Expr) : m Expr := do
  match e with
  | const _ | var .. => return e
  | sum ts => return sumOf (← mapListM visit ts)
  | product fs => return productOf (← mapListM visit fs)
  | binary op l r => do
    let l ← visit l
    return binary op l (← visit r)
  | not a => return not (← visit a)
  | call f args => return call f (← mapListM visit args)
  | set ms => return setOf (← mapListM visit ms)

mutual

/-- Replaces every variable of one name by another variable. -/
def rename (old new : String) : Expr → Expr
  | const q => const q
  | var n c => if n == old then symbol new else var n c
  | sum ts => sumOf (renameList old new ts)
  | product fs => productOf (renameList old new fs)
  | binary op l r => binary op (rename old new l) (rename old new r)
  | not a => not (rename old new a)
  | call f args => call f (renameList old new args)
  | set ms => setOf (renameList old new ms)

/-- Replaces every variable of one name in a list. -/
def renameList (old new : String) : List Expr → List Expr
  | [] => []
  | t :: ts => rename old new t :: renameList old new ts

end

mutual

/-- The expression itself, unless a variable of that name occurs in it. -/
def without? (name : String) : Expr → Option Expr
  | const q => some (const q)
  | var n c => if n == name then none else some (var n c)
  | sum ts => (withoutList? name ts).map sumOf
  | product fs => (withoutList? name fs).map productOf
  | binary op l r => do
    let l ← without? name l
    return binary op l (← without? name r)
  | not a => (without? name a).map not
  | call f args => (withoutList? name args).map (call f)
  | set ms => (withoutList? name ms).map setOf

/-- The list itself, unless a variable of that name occurs in it. -/
def withoutList? (name : String) : List Expr → Option (List Expr)
  | [] => some []
  | t :: ts => do
    let t ← without? name t
    return t :: (← withoutList? name ts)

end

end SymbolicAlgebra.Expr
