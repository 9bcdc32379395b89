import SymbolicAlgebra.Evaluation.Memo
import SymbolicAlgebra.Proofs.Structure

/-!
# Lookups in a changed memo table

A table looks an expression up by equality (`==`): an entry that is begun, finished or abandoned
changes the lookups of all expressions that are equal to its key, and no others.
-/

namespace SymbolicAlgebra.Memo

theorem find?_empty (e : Expr) : empty.find? e = none := by
  simp [empty, find?]

theorem find?_beq (m : Memo) {a b : Expr} (h : (a == b) = true) : m.find? a = m.find? b :=
  Std.HashMap.getElem?_congr h

theorem find?_start (m : Memo) (e a : Expr) :
    (m.start e).find? a = if e == a then some .inFlight else m.find? a :=
  Std.HashMap.getElem?_insert

theorem find?_finish (m : Memo) (e r a : Expr) :
    (m.finish e r).find? a = if e == a then some (.done r) else m.find? a :=
  Std.HashMap.getElem?_insert

theorem find?_abandon (m : Memo) (e a : Expr) :
    (m.abandon e).find? a = if e == a then none else m.find? a :=
  Std.HashMap.getElem?_erase

/-- Whether the result of an expression is being computed. -/
def inFlight (m : Memo) (e : Expr) : Bool :=
  match m.find? e with
  | some .inFlight => true
  | _ => false

theorem inFlight_iff {m : Memo} {e : Expr} : m.inFlight e = true ↔ m.find? e = some .inFlight := by
  unfold inFlight
  split
  · simp_all
  · simp_all

theorem inFlight_start (m : Memo) (e a : Expr) :
    (m.start e).inFlight a = (e == a || m.inFlight a) := by
  rw [inFlight, find?_start, inFlight]
  cases e == a <;> rfl

theorem inFlight_finish (m : Memo) (e r a : Expr) :
    (m.finish e r).inFlight a = (!(e == a) && m.inFlight a) := by
  rw [inFlight, find?_finish, inFlight]
  cases e == a <;> rfl

theorem inFlight_abandon (m : Memo) (e a : Expr) :
    (m.abandon e).inFlight a = (!(e == a) && m.inFlight a) := by
  rw [inFlight, find?_abandon, inFlight]
  cases e == a <;> rfl

end SymbolicAlgebra.Memo
