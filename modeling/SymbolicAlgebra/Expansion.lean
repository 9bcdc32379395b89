import SymbolicAlgebra.Evaluation.Evaluator

/-!
# Expansion

`expandPlain` distributes products and positive integer powers of sums over their terms and collects
like terms. Quotients stay as they are.
-/

namespace SymbolicAlgebra.Expr

/-- `base` multiplied out with `e`, `count` times. -/
def multiplyRepeatedly (base : Expr) (ctx : Context) : Nat → Expr → Expr
  | 0, e => e
  | count + 1, e => multiplyRepeatedly base ctx count (distribute base e ctx)

/-- A power of a sum with an integer exponent above one, multiplied out. -/
def expandPower (f base : Expr) (ctx : Context) : Expr :=
  let n := f.integralExponent
  if 1 < n && base.isSum then multiplyRepeatedly base ctx (n.toNat - 1) base else f

/-- A product multiplied out over its expanded factors, if one of them is a sum. -/
def multiplyOut (f : Expr) (expanded : List Expr) (ctx : Context) : Expr :=
  if expanded.any isSum then expanded.foldl (fun e factor => distribute factor e ctx) one else f

mutual

/-- Distributes products and powers over sums. -/
def expandPlain (ctx : Context) : Expr → Expr
  | sum ts => collect ((expandPlainList ctx ts).flatMap terms)
  | product fs => multiplyOut (product fs) (expandPlainList ctx fs) ctx
  | binary .power base exponent => expandPower (power base exponent) base ctx
  | binary op l r => binary op (expandPlain ctx l) (expandPlain ctx r)
  | not a => not (expandPlain ctx a)
  | const q => const q
  | var n c => var n c
  | call f args => call f args
  | set ms => set ms

/-- Expands each item. -/
def expandPlainList (ctx : Context) : List Expr → List Expr
  | [] => []
  | t :: ts => expandPlain ctx t :: expandPlainList ctx ts

end

end SymbolicAlgebra.Expr
