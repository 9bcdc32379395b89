import SymbolicAlgebra.Native
import SymbolicAlgebra.Text.Blank

/-!
# Expressions

The expression type with its views and its equality. Sums, products and sets hold lists; their
normal forms are built in `SymbolicAlgebra.Expr.Canonical`. A called function is part of the call,
so a call keeps its meaning when names are defined anew. Two expressions are equal (`==`) when
they read the same: variables by name, functions by kind, name and arity.
-/

namespace SymbolicAlgebra

/-- The binary operators, in their canonical order. -/
inductive BinaryOp where
  | power | conj | disj | equal | notEqual | greater | less | greaterEqual | lessEqual
  | approxEqual
  /-- A binding `x -> y`. -/
  | arrow
  /-- A substitution `f : bindings` that is carried out on evaluation. -/
  | substitute
  deriving DecidableEq, Repr, Inhabited

namespace BinaryOp

/-- The place in the canonical order. -/
def rank : BinaryOp → Nat
  | power => 0 | conj => 1 | disj => 2 | equal => 3 | notEqual => 4 | greater => 5 | less => 6
  | greaterEqual => 7 | lessEqual => 8 | approxEqual => 9 | arrow => 10 | substitute => 11

/-- Whether the operator compares its operands. -/
def isRelation : BinaryOp → Bool
  | equal | notEqual | greater | less | greaterEqual | lessEqual | approxEqual => true
  | _ => false

end BinaryOp

mutual

/-- Symbolic expressions. -/
inductive Expr where
  | const (value : Rat)
  /-- A symbol; as part of a pattern it may be restricted by a condition. -/
  | var (name : String) (condition : Option Condition)
  | sum (terms : List Expr)
  | product (factors : List Expr)
  | binary (op : BinaryOp) (left right : Expr)
  | not (operand : Expr)
  | call (function : Function) (args : List Expr)
  | set (members : List Expr)

/-- Callable functions. -/
inductive Function where
  | native (f : Native)
  /-- A function defined by an expression; without a body it stays symbolic. -/
  | user (name : String) (params : List Expr) (body : Option Expr)
  /-- `If[c, t, f]`. -/
  | ifThenElse
  /-- A piecewise linear function through points sorted by their first coordinate. -/
  | table (name : String) (points : List (Float × Float))

/-- What a pattern variable may stand for. -/
inductive Condition where
  | integer
  | constant
  /-- Variables only. -/
  | symbol
  | notOne
  | notZero
  /-- Expressions in which `x` does not occur. -/
  | free (x : Expr)

end

instance : Inhabited Expr := ⟨.const 0⟩

namespace Function

/-- The rank of the kind of function: functions of different kinds differ. -/
def kindRank : Function → Nat
  | native _ => 0
  | user .. => 1
  | ifThenElse => 2
  | table .. => 3

def name : Function → String
  | native f => f.name
  | user n _ _ => n
  | ifThenElse => "If"
  | table n _ => n

/-- The parameters as expressions. -/
def parameters : Function → List Expr
  | native f => f.parameters.map fun p => .var p.name none
  | user _ ps _ => ps
  | ifThenElse => ["c", "t", "f"].map fun n => .var n none
  | table .. => [.var "x1" none]

def arity : Function → Nat
  | native f => f.parameters.length
  | user _ ps _ => ps.length
  | ifThenElse => 3
  | table .. => 1

/-- The defining expression of a user function. -/
def body? : Function → Option Expr
  | user _ _ b => b
  | _ => none

/-- Whether the function can be applied to that many arguments; an undefined function to none. -/
def canCall (f : Function) (count : Nat) : Bool :=
  match f with
  | user _ ps b => b.isSome && count == ps.length
  | f => count == f.arity

/-- Whether substitutions into the argument at `index` are held back. -/
def isDeferred (f : Function) (index : Nat) : Bool :=
  match f with
  | native g => (g.parameters[index]?).any Parameter.deferred
  | _ => false

/-- Same kind, name and arity. -/
def same (f g : Function) : Bool :=
  f.kindRank == g.kindRank && f.name == g.name && f.arity == g.arity

instance : BEq Function := ⟨same⟩

/-- A function known by its name only, such as the unknown of a differential equation. -/
def undefined (name : String) (arity : Nat) : Function :=
  .user name ((List.range arity).map fun i => .var ("_x" ++ toString i) none) none

end Function

namespace Expr

mutual

/-- Whether two expressions read the same. -/
def beq : Expr → Expr → Bool
  | const a, const b => a == b
  | var a _, var b _ => a == b
  | sum ts, sum us => beqList ts us
  | product ts, product us => beqList ts us
  | binary o l r, binary p l' r' => o == p && beq l l' && beq r r'
  | not a, not b => beq a b
  | call f ts, call g us => f == g && beqList ts us
  | set ts, set us => beqList ts us
  | _, _ => false

/-- Equality item by item. -/
def beqList : List Expr → List Expr → Bool
  | [], [] => true
  | t :: ts, u :: us => beq t u && beqList ts us
  | _, _ => false

end

instance : BEq Expr := ⟨beq⟩

mutual

/-- A hash of the topmost levels of an expression, which agrees with equality. -/
def hashTo : Nat → Expr → UInt64
  | 0, _ => 7
  | _ + 1, const a => mixHash 11 (hash a)
  | _ + 1, var a _ => mixHash 13 (hash a)
  | n + 1, sum ts => hashList n 17 ts
  | n + 1, product ts => hashList n 19 ts
  | n + 1, binary o l r => mixHash (hash o.rank) (mixHash (hashTo n l) (hashTo n r))
  | n + 1, not a => mixHash 23 (hashTo n a)
  | n + 1, call f ts => hashList n (mixHash (hash f.name) 29) ts
  | n + 1, set ts => hashList n 31 ts

/-- The hash of a list after the seed. -/
def hashList (depth : Nat) (seed : UInt64) : List Expr → UInt64
  | [] => seed
  | t :: ts => hashList depth (mixHash seed (hashTo depth t)) ts

end

instance : Hashable Expr := ⟨hashTo 4⟩

/-! ### Atoms and raw constructors -/

/-- An integer constant. -/
def int (i : Int) : Expr := const (i : Rat)

def zero : Expr := const 0

def one : Expr := const 1

/-- Truth values are the constants `1` and `0`. -/
def boolean (b : Bool) : Expr := if b then one else zero

/-- A plain variable. -/
def symbol (name : String) : Expr := var name none

/-- A pattern variable restricted by a condition. -/
def pattern (name : String) (condition : Condition) : Expr := var name (some condition)

def power (base exponent : Expr) : Expr := binary .power base exponent

def arrow (left right : Expr) : Expr := binary .arrow left right

def equal (left right : Expr) : Expr := binary .equal left right

/-- The call of an undefined function, such as `y[t]`. -/
def undefinedCall (name : String) (args : List Expr) : Expr :=
  call (.undefined name args.length) args

/-- The reciprocal. -/
def inverse (x : Expr) : Expr := power x (const (-1))

/-! ### Views -/

def asConst? : Expr → Option Rat
  | const q => some q
  | _ => none

/-- The name of a variable. -/
def asVar? : Expr → Option String
  | var n _ => some n
  | _ => none

def asPower? : Expr → Option (Expr × Expr)
  | binary .power b x => some (b, x)
  | _ => none

def asArrow? : Expr → Option (Expr × Expr)
  | binary .arrow l r => some (l, r)
  | _ => none

def asEqual? : Expr → Option (Expr × Expr)
  | binary .equal l r => some (l, r)
  | _ => none

def asCall? : Expr → Option (Function × List Expr)
  | call f args => some (f, args)
  | _ => none

def callName? : Expr → Option String
  | call f _ => some f.name
  | _ => none

def isConst : Expr → Bool
  | const _ => true
  | _ => false

def isVar : Expr → Bool
  | var .. => true
  | _ => false

def isSum : Expr → Bool
  | sum _ => true
  | _ => false

def isProduct : Expr → Bool
  | product _ => true
  | _ => false

def isPower : Expr → Bool
  | binary .power _ _ => true
  | _ => false

def isSet : Expr → Bool
  | set _ => true
  | _ => false

/-- The constant `0`. -/
def isZero : Expr → Bool
  | const q => q == 0
  | _ => false

/-- The constant `1`. -/
def isOne : Expr → Bool
  | const q => q == 1
  | _ => false

/-- A constant other than zero. -/
def isTrue : Expr → Bool
  | const q => q != 0
  | _ => false

/-- The terms of a sum; anything else is its own single term. -/
def terms : Expr → List Expr
  | sum ts => ts
  | e => [e]

/-- The factors of a product; anything else is its own single factor. -/
def factors : Expr → List Expr
  | product fs => fs
  | e => [e]

/-- The members of a set; anything else is its own single member. -/
def members : Expr → List Expr
  | set ms => ms
  | e => [e]

/-- The base of a power; anything else is a first power of itself. -/
def base : Expr → Expr
  | binary .power b _ => b
  | e => e

/-- The exponent of a power, otherwise `1`. -/
def exponent : Expr → Expr
  | binary .power _ x => x
  | _ => one

/-- A power with a negative constant exponent. -/
def isReciprocal : Expr → Bool
  | binary .power _ (const q) => decide (q < 0)
  | _ => false

mutual

/-- The number of nodes. -/
def size : Expr → Nat
  | const _ => 1
  | var .. => 1
  | sum ts => sizeList ts + 1
  | product ts => sizeList ts + 1
  | binary _ l r => size l + size r + 1
  | not a => size a + 1
  | call _ ts => sizeList ts + 1
  | set ts => sizeList ts + 1

/-- The number of nodes of a list. -/
def sizeList : List Expr → Nat
  | [] => 0
  | t :: ts => size t + sizeList ts

end

theorem size_pos : ∀ e : Expr, 0 < e.size
  | const _ | var .. | sum _ | product _ | binary .. | not _ | call .. | set _ => by simp [size]

/-- The variables named in a list separated by commas; blanks around a name and empty names are
dropped. -/
def symbols (text : String) : List Expr :=
  ((text.splitOn ",").map Text.trim).filter (· != "") |>.map symbol

end Expr

end SymbolicAlgebra
