import Std.Data.HashMap
import SymbolicAlgebra.Expr.Order

/-!
# Memo tables

The results of a pass, by expression. An expression whose result is still being computed is in
flight; coming back to it means that the pass runs in a circle.
-/

namespace SymbolicAlgebra

/-- What a memo table knows about an expression. -/
inductive Memo.Entry where
  | inFlight
  | done (result : Expr)

/-- Results by expression. -/
structure Memo where
  table : Std.HashMap Expr Memo.Entry

namespace Memo

def empty : Memo := ⟨∅⟩

def find? (m : Memo) (e : Expr) : Option Entry := m.table[e]?

/-- Marks the computation for `e` as begun. -/
def start (m : Memo) (e : Expr) : Memo := ⟨m.table.insert e .inFlight⟩

/-- Records the result for `e`. -/
def finish (m : Memo) (e result : Expr) : Memo := ⟨m.table.insert e (.done result)⟩

/-- Forgets `e` after a failed computation. -/
def abandon (m : Memo) (e : Expr) : Memo := ⟨m.table.erase e⟩

def size (m : Memo) : Nat := m.table.size

end Memo

end SymbolicAlgebra
