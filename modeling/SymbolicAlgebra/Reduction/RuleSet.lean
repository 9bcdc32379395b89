import SymbolicAlgebra.Reduction.Rule

/-!
# Rule sets

Rules filed by the shape of their patterns: a rule for `D[Sin[u], x]` stands below the shape
`D[_1, _2]`, so that one match turns an expression away from all rules of a shape that it does not
have. A set gives the first result of a rule that changes the expression and is accepted.
-/

namespace SymbolicAlgebra

/-- A tree of rules; below a shape stand only rules whose patterns match it. -/
inductive RuleSet where
  | node (shape : Option Expr) (children : List RuleSet) (rules : List Rule)

namespace RuleSet

def empty : RuleSet := node none [] []

def shape : RuleSet → Option Expr
  | node s _ _ => s

/-- The variables `_1`, `_2`, …, one for each item of a list. -/
def freshFor (items : List Expr) : List Expr :=
  items.zipIdx.map fun (_, i) => .symbol ("_" ++ toString (i + 1))

/-- The outermost node of a pattern over fresh variables; atoms and sets have no shape. -/
def shapeOf : Expr → Option Expr
  | .sum ts => some (.sumOf (freshFor ts))
  | .product fs => some (.productOf (freshFor fs))
  | .binary op _ _ => some (.binary op (.symbol "_1") (.symbol "_2"))
  | .not _ => some (.not (.symbol "_1"))
  | .call f args => some (.call f (freshFor args))
  | _ => none

/-- Whether the rules of this node may hold a rule with that pattern. -/
def admits (s : RuleSet) (pattern : Expr) (ctx : Context) : Bool :=
  s.shape.all fun own => (own.match? pattern ctx).isSome

/-- The smallest set that holds a rule below a shape, or by itself when it has none besides `own`. -/
def fileUnder (own : Option Expr) (r : Rule) : RuleSet ⊕ Rule :=
  match shapeOf r.pattern with
  | some s => if own == some s then .inr r else .inl (node (some s) [] [r])
  | none => .inr r

mutual

/-- Files a rule under the first child that admits it, else under a new shape. -/
def add (r : Rule) (ctx : Context) : RuleSet → RuleSet
  | node own children rules =>
    match addToFirst r ctx children with
    | some children => node own children rules
    | none =>
      match fileUnder own r with
      | .inl child => node own (children ++ [child]) rules
      | .inr rule => node own children (rules ++ [rule])

/-- Files a rule under the first set that admits it. -/
def addToFirst (r : Rule) (ctx : Context) : List RuleSet → Option (List RuleSet)
  | [] => none
  | c :: cs =>
    if c.admits r.pattern ctx then some (add r ctx c :: cs)
    else (addToFirst r ctx cs).map (c :: ·)

end

/-- The set of a list of rules, added one after the other. -/
def ofRules (rules : List Rule) (ctx : Context) : RuleSet :=
  rules.foldl (fun s r => add r ctx s) empty

mutual

/-- The number of rules. -/
def size : RuleSet → Nat
  | node _ children rules => rules.length + sizeList children

/-- The number of rules of a list of sets. -/
def sizeList : List RuleSet → Nat
  | [] => 0
  | c :: cs => size c + sizeList cs

end

mutual

/-- The first result of a rule that differs from `e` and is accepted. -/
def reductAccepted? (accept : Expr → Bool) (ctx : Context) (e : Expr) : RuleSet → Option Expr
  | node own children rules =>
    if own.all fun s => (s.match? e ctx).isSome then
      match firstReduct? accept ctx e children with
      | some r => some r
      | none => rules.findSome? fun rule => (rule.reduct? e ctx).filter fun r => r != e && accept r
    else none

/-- The first result of a list of sets. -/
def firstReduct? (accept : Expr → Bool) (ctx : Context) (e : Expr) : List RuleSet → Option Expr
  | [] => none
  | c :: cs =>
    match reductAccepted? accept ctx e c with
    | some r => some r
    | none => firstReduct? accept ctx e cs

end

/-- The first result of a rule that differs from `e`. -/
def reduct? (s : RuleSet) (e : Expr) (ctx : Context) : Option Expr :=
  reductAccepted? (fun _ => true) ctx e s

end RuleSet

end SymbolicAlgebra
