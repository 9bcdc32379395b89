import SymbolicAlgebra.Error
import SymbolicAlgebra.Interpolation

/-!
# Namespaces

What the names in calls and values refer to. A name may have several meanings; it resolves only
when exactly one of them fits. Calls hold their function, so nothing that is defined later changes
the meaning of an expression.
-/

namespace SymbolicAlgebra

/-- A meaning of a name. -/
inductive Member where
  | value (e : Expr)
  | function (f : Function)

def Member.function? : Member → Option Function
  | function f => some f
  | value _ => none

/-- The meanings of names, in the order in which they were added. -/
structure Namespace where
  entries : List (String × Member)

namespace Namespace

def empty : Namespace := ⟨[]⟩

def addValue (ns : Namespace) (name : String) (value : Expr) : Namespace :=
  ⟨ns.entries ++ [(name, .value value)]⟩

/-- Adds a function under its own name. -/
def addFunction (ns : Namespace) (f : Function) : Namespace :=
  ⟨ns.entries ++ [(f.name, .function f)]⟩

/-- Adds the function `name[params] = body`. -/
def define (ns : Namespace) (name : String) (params : List Expr) (body : Expr) : Namespace :=
  ns.addFunction (.user name params (some body))

/-- The lookup table through the points, which must be finite and at least one. -/
def tableOf (name : String) (points : List (Float × Float)) : Result Function :=
  if points.isEmpty then refuse (.emptyTable name)
  else if points.any fun p => !Binary64.isFinite p.1 || !Binary64.isFinite p.2 then
    refuse (.infiniteTable name)
  else .ok (.table name (Interpolation.sortPoints points))

def addTable (ns : Namespace) (name : String) (points : List (Float × Float)) :
    Result Namespace := do
  return ns.addFunction (← tableOf name points)

/-- All meanings of a name. -/
def lookup (ns : Namespace) (name : String) : List Member :=
  ns.entries.filterMap fun (n, m) => if n == name then some m else none

/-- The only meaning of a name. -/
def resolve (ns : Namespace) (name : String) : Result Member :=
  match ns.lookup name with
  | [single] => .ok single
  | [] => .error (.unresolvedName (.unknown name))
  | many => .error (.unresolvedName (.ambiguous name many.length))

/-- The value that a name stands for. -/
def resolveValue (ns : Namespace) (name : String) : Result Expr := do
  match ← ns.resolve name with
  | .value e => return e
  | .function _ => .error (.unresolvedName (.isFunction name))

/-- The only function of a name that can be applied to that many arguments. -/
def resolveFunction (ns : Namespace) (name : String) (arity : Nat) : Result Function :=
  match ((ns.lookup name).filterMap Member.function?).filter fun f => f.canCall arity with
  | [single] => .ok single
  | _ => .error (.unresolvedName (.noFunction name arity))

/-- The call `name[args]`, unevaluated. -/
def call (ns : Namespace) (name : String) (args : List Expr) : Result Expr := do
  return .call (← ns.resolveFunction name args.length) args

/-- The double nearest to the ratio of a circle's circumference to its diameter. -/
def circleConstant : Rat := mkRat 884279719003555 281474976710656

/-- The double nearest to the base of the natural logarithm. -/
def naturalBase : Rat := mkRat 6121026514868073 2251799813685248

/-- The constants, `If` and all built-in functions. -/
def standard : Namespace :=
  let constants := [("Pi", Expr.const circleConstant), ("e", .const naturalBase),
    ("False", .boolean false), ("True", .boolean true)]
  ⟨constants.map (fun (n, e) => (n, .value e)) ++
    (.ifThenElse :: Native.all.map Function.native).map fun f => (f.name, .function f)⟩

end Namespace

/-- What calls are evaluated with: the meanings of names, and the application of a function, which
gives `none` when the function does not apply to the arguments. -/
structure Context where
  names : Namespace
  apply : Function → List Expr → Result (Option Expr)

namespace Context

/-- The call `name[args]`, unevaluated. -/
def call (ctx : Context) (name : String) (args : List Expr) : Result Expr :=
  ctx.names.call name args

/-- A context in which no function applies. -/
def inert (names : Namespace) : Context :=
  ⟨names, fun _ _ => .ok none⟩

end Context

end SymbolicAlgebra
