import SymbolicAlgebra.Namespace

/-!
# Bindings and substitution

Bindings map expressions to values and remember the order in which keys were bound. `substitute`
replaces all keys simultaneously and once: a replacement is not searched again. Functions may hold
substitutions back from an argument; the call is then wrapped as `call : bindings`, and evaluation
applies the bindings to the result of the call.
-/

namespace SymbolicAlgebra

/-- A finite map between expressions, in the order in which its keys were bound. -/
structure Bindings where
  entries : List (Expr × Expr)

namespace Bindings

def empty : Bindings := ⟨[]⟩

def isEmpty (b : Bindings) : Bool := b.entries.isEmpty

def keys (b : Bindings) : List Expr := b.entries.map Prod.fst

/-- The value of a key. -/
def get? (b : Bindings) (key : Expr) : Option Expr :=
  (b.entries.find? fun (k, _) => k == key).map Prod.snd

def contains (b : Bindings) (key : Expr) : Bool :=
  (b.get? key).isSome

/-- Replaces the value of a bound key in place and appends a new key. -/
def insert (b : Bindings) (key value : Expr) : Bindings :=
  if b.contains key then
    ⟨b.entries.map fun (k, v) => if k == key then (k, value) else (k, v)⟩
  else ⟨b.entries ++ [(key, value)]⟩

def erase (b : Bindings) (key : Expr) : Bindings :=
  ⟨b.entries.filter fun (k, _) => !(k == key)⟩

def singleton (key value : Expr) : Bindings := ⟨[(key, value)]⟩

def ofList (pairs : List (Expr × Expr)) : Bindings :=
  pairs.foldl (fun b (k, v) => b.insert k v) empty

/-- The bindings of the arrows `key -> value` of a list; anything else is ignored. -/
def ofArrows (arrows : List Expr) : Bindings :=
  ofList (arrows.filterMap Expr.asArrow?)

/-- The bindings in the canonical order of their keys. -/
def sorted (b : Bindings) : List (Expr × Expr) :=
  (Expr.sort b.keys).filterMap fun k => (b.get? k).map fun v => (k, v)

/-- Takes the bindings of those arguments out that `f` holds back, and returns the rest and the
bindings taken out as arrows. -/
def holdBack (b : Bindings) (f : Function) (args : List Expr) : Bindings × List Expr :=
  args.zipIdx.foldl (fun (now, late) (a, i) =>
    match if f.isDeferred i then now.get? a else none with
    | some v => (now.erase a, late ++ [Expr.arrow a v])
    | none => (now, late)) (b, [])

end Bindings

namespace Expr

/-- One held binding stands for itself, several as a set. -/
def heldBindings : List Expr → Expr
  | [b] => b
  | bs => setOf bs

/-- The node `f : bindings`, substituted on evaluation. -/
def substituteLater (f bindings : Expr) : Expr := binary .substitute f bindings

mutual

/-- Replaces every key. Unless `immediate`, bindings of held back arguments are deferred. -/
def substituteWith (immediate : Bool) (b : Bindings) (e : Expr) : Expr :=
  match b.get? e with
  | some value => value
  | none =>
    match e with
    | const q => const q
    | var n c => var n c
    | sum ts => sumOf (substituteList immediate b ts)
    | product ts => productOf (substituteList immediate b ts)
    | binary o l r => binary o (substituteWith immediate b l) (substituteWith immediate b r)
    | not a => not (substituteWith immediate b a)
    | call f args =>
      match if immediate then (b, []) else b.holdBack f args with
      | (_, []) => call f (substituteList immediate b args)
      | (now, late) => substituteLater (call f (substituteList immediate now args)) (heldBindings late)
    | set ms => setOf (substituteList immediate b ms)

/-- Replaces every key in each item. -/
def substituteList (immediate : Bool) (b : Bindings) : List Expr → List Expr
  | [] => []
  | t :: ts => substituteWith immediate b t :: substituteList immediate b ts

end

/-- Replaces every key of the bindings, simultaneously and once; where a function holds an argument
back, the binding is deferred. -/
def substitute (f : Expr) (b : Bindings) : Expr :=
  if b.isEmpty then f else substituteWith false b f

/-- Replaces every key of the bindings at once, as the templates of rules need it: nothing is
deferred. -/
def instantiate (f : Expr) (b : Bindings) : Expr :=
  if b.isEmpty then f else substituteWith true b f

/-- Replaces one expression. -/
def substituteOne (f x value : Expr) : Expr :=
  f.substitute (.singleton x value)

end Expr

end SymbolicAlgebra
