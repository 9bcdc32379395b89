import SymbolicAlgebra.Evaluation.Evaluator

/-!
# Pattern matching

A pattern is an expression whose variables stand for expressions. A match extends bindings: a
variable binds on its first use, if its condition accepts the subject, and must meet an equal
expression on every later use. Sums and products match in any order, by a search over the parts of
the subject in which bound variables and constants are first cancelled from the subject.

The search works on one `MatchState`, which records the order in which keys were bound. Whatever may
have to be given up is run by `tentatively`, which takes the bindings of a failed attempt back.
-/

namespace SymbolicAlgebra

/-- A match in progress: the bindings so far, and their keys in the order in which they were bound. -/
structure MatchState where
  bindings : Bindings
  history : List Expr

/-- A part of a search, which says whether it succeeded. -/
abbrev Attempt := StateM MatchState Bool

namespace MatchState

def empty : MatchState := ⟨.empty, []⟩

/-- Binds a key that is not bound yet. -/
def add (s : MatchState) (key value : Expr) : MatchState :=
  ⟨⟨s.bindings.entries ++ [(key, value)]⟩, s.history ++ [key]⟩

/-- Takes the bindings back that were made since the history had the length `mark`. -/
def rollBack (s : MatchState) (mark : Nat) : MatchState :=
  ⟨(s.history.drop mark).foldl Bindings.erase s.bindings, s.history.take mark⟩

end MatchState

namespace Attempt

/-- Binds `key` to `value`, or checks that it is bound to an equal expression. -/
def bind (key value : Expr) : Attempt := do
  match (← get).bindings.get? key with
  | some bound => return bound == value
  | none =>
    modify fun s => s.add key value
    return true

/-- The second attempt where the first one succeeds. -/
def andThen (first second : Attempt) : Attempt := do
  if ← first then second else return false

/-- The second attempt where the first one fails. -/
def orElse (first second : Attempt) : Attempt := do
  if ← first then return true else second

/-- Runs an attempt, and takes its bindings back when it fails. -/
def tentatively (attempt : Attempt) : Attempt := do
  let mark := (← get).history.length
  if ← attempt then return true
  modify fun s => s.rollBack mark
  return false

/-- The bindings that an attempt leads to, if it succeeds. -/
def bindings? (attempt : Attempt) (s : MatchState) : Option Bindings :=
  let (matched, final) := attempt.run s
  if matched then some final.bindings else none

end Attempt

namespace MatchState

/-- Binds the left side of an arrow to its right side. -/
def bindArrow (s : MatchState) (arrow : Expr) : Result MatchState :=
  match arrow.asArrow? with
  | none => refuse (.notArrow arrow)
  | some (l, r) =>
    match (Attempt.bind l r).run s with
    | (true, extended) => .ok extended
    | (false, _) => refuse (.conflictingPrematch l)

/-- The state in which a list of arrows is bound, which must be arrows and agree. -/
def ofPrematch (arrows : List Expr) : Result MatchState :=
  arrows.foldlM bindArrow empty

end MatchState

namespace Matching

open Attempt

/-! ### Searching -/

/-- Every item together with the others, in order. -/
def picks {α : Type} : List α → List (α × List α)
  | [] => []
  | x :: xs => (x, xs) :: (picks xs).map fun (y, ys) => (y, x :: ys)

/-- Attempts on a choice of `count` items and the items not chosen, up to the first success; choices
come in the order of positions. The items decided so far are given in reverse. -/
def anyChoice {α : Type} (attempt : List α → List α → Attempt) :
    Nat → List α → List α → List α → Attempt
  | 0, rest, chosen, others => attempt chosen.reverse (others.reverse ++ rest)
  | _ + 1, [], _, _ => return false
  | count + 1, x :: rest, chosen, others =>
    orElse (anyChoice attempt count rest (x :: chosen) others)
      (anyChoice attempt (count + 1) rest chosen (x :: others))

/-- Attempts on a choice of at least one item, smaller choices first, up to the first success. -/
def anySubset {α : Type} (attempt : List α → List α → Attempt) (items : List α) : Attempt :=
  (List.range items.length).anyM fun n => anyChoice attempt (n + 1) items [] []

/-- What sums and products have in common for matching. -/
structure Operation where
  /-- The sum or product of a list. -/
  combine : List Expr → Expr
  /-- Subtraction or division. -/
  residue : Expr → Expr → Expr
  identity : Expr
  /-- The terms or factors. -/
  parts : Expr → List Expr

def Operation.sum : Operation := ⟨Expr.sumOf, Expr.subtract, .zero, Expr.terms⟩

def Operation.product : Operation := ⟨Expr.productOf, Expr.divide, .one, Expr.factors⟩

/-- A match of a pattern against a subject. -/
abbrev Matcher := Expr → Expr → Attempt

/-- Matches lists item by item. -/
def eachInOrder (recur : Matcher) : List Expr → List Expr → Attempt
  | p :: ps, s :: ss => andThen (recur p s) (eachInOrder recur ps ss)
  | _, _ => return true

/-- One pattern part `p` is matched against a selection of the subject's parts and the remaining
pattern against the rest: a bound variable is cancelled from the subject, a free one takes every
subset of the parts and finally nothing, any other pattern takes a single part. -/
def matchPart (op : Operation) (ctx : Context) (recur : Matcher) (p remaining subject : Expr) :
    Attempt := do
  let split (chosen others : Expr) : Attempt :=
    tentatively (andThen (recur p chosen) (recur remaining others))
  if p.isVar then
    match (← get).bindings.get? p with
    | some bound => tentatively (recur remaining ((op.residue subject bound).evaluate ctx))
    | none =>
      orElse (anySubset (fun chosen others => split (op.combine chosen) (op.combine others))
        (op.parts subject)) (split op.identity subject)
  else (picks (op.parts subject)).anyM fun (part, others) => split part (op.combine others)

/-- Commutative matching: constants of the pattern are removed from the subject, then the pattern
parts are tried one after the other as the first to be matched. -/
def matchCommutative (op : Operation) (ctx : Context) (recur : Matcher) (pattern : List Expr)
    (subject : Expr) : Attempt :=
  let (constants, rest) := pattern.partition Expr.isConst
  let subject := if constants.isEmpty then subject
    else (op.residue subject (op.combine constants)).evaluate ctx
  if rest.isEmpty then return subject == op.identity
  else (picks rest).anyM fun (p, others) => matchPart op ctx recur p (op.combine others) subject

/-- A product matches zero when one of its factors does. -/
def matchProduct (ctx : Context) (recur : Matcher) (pattern : List Expr) (subject : Expr) : Attempt :=
  if subject.isZero then pattern.anyM fun p => tentatively (recur p .zero)
  else matchCommutative .product ctx recur pattern subject

/-- Ways to see the subject as a power, in the order in which they are tried: by a root when the
exponent is bound, as a power `0` of anything, as a power of `0`, as the power that it is, as a first
power of itself, and by the root with the exponent of the pattern. -/
def matchPower (ctx : Context) (recur : Matcher) (base exponent subject : Expr) : Attempt :=
  let root (x : Expr) : Expr := (Expr.power subject (.inverse x)).evaluate ctx
  let byBoundExponent (_ : Unit) : Attempt := do
    match (← get).bindings.get? exponent with
    | some bound => recur base (root bound)
    | none => return false
  let toZero (_ : Unit) : Attempt := if subject.isOne then recur exponent .zero else return false
  let ofZero (_ : Unit) : Attempt := if subject.isZero then recur base .zero else return false
  let asPower (_ : Unit) : Attempt :=
    match subject.asPower? with
    | some (b, x) => andThen (recur base b) (recur exponent x)
    | none => return false
  let asFirstPower (_ : Unit) : Attempt := andThen (recur exponent .one) (recur base subject)
  let byRoot (_ : Unit) : Attempt := recur base (root exponent)
  [byBoundExponent, toZero, ofZero, asPower, asFirstPower, byRoot].anyM fun attempt =>
    tentatively (attempt ())

/-- Matches one node. The arguments of calls are matched from the last to the first, so that the
variable of `D[f, x]` is known when `f` is matched. -/
def step (ctx : Context) (recur : Matcher) (pattern subject : Expr) : Attempt :=
  match pattern, subject with
  | .var n condition, s =>
    if condition.all fun c => c.accepts s then Attempt.bind (.var n condition) s else return false
  | .const q, s => return .const q == s
  | .sum ts, s => matchCommutative .sum ctx recur ts s
  | .product fs, s => matchProduct ctx recur fs s
  | .binary .power base exponent, s => matchPower ctx recur base exponent s
  | .binary op l r, .binary op' l' r' =>
    if op = op' then tentatively (andThen (recur l l') (recur r r')) else return false
  | .not a, .not a' => tentatively (recur a a')
  | .call f ps, .call g ss =>
    if f == g && ps.length == ss.length then
      tentatively (eachInOrder recur ps.reverse ss.reverse)
    else return false
  | .set ps, .set ss =>
    if ps.length = ss.length then tentatively (eachInOrder recur ps ss) else return false
  | _, _ => return false

/-- Matching down to a depth of the pattern. -/
def matchTo (ctx : Context) : Nat → Matcher
  | 0, _, _ => return false
  | depth + 1, pattern, subject => step ctx (matchTo ctx depth) pattern subject

end Matching

namespace Expr

/-- Matches the subject against this pattern. The pattern gets smaller with every step, so its size
bounds the depth. -/
def matching (pattern subject : Expr) (ctx : Context) : Attempt :=
  Matching.matchTo ctx (pattern.size + 1) pattern subject

/-- The bindings under which this pattern matches the subject. -/
def match? (pattern subject : Expr) (ctx : Context) : Option Bindings :=
  (pattern.matching subject ctx).bindings? .empty

/-- A match with some variables bound in advance by arrows. -/
def matchWith (pattern subject : Expr) (prematch : List Expr) (ctx : Context) :
    Result (Option Bindings) := do
  return (pattern.matching subject ctx).bindings? (← MatchState.ofPrematch prematch)

mutual

/-- The outermost subexpressions that match one of the patterns, in order, with their bindings. -/
def findMatches (patterns : List Expr) (ctx : Context) (e : Expr) : List (Expr × Bindings) :=
  match patterns.findSome? fun p => p.match? e ctx with
  | some b => [(e, b)]
  | none =>
    match e with
    | const _ | var .. => []
    | sum ts => findMatchesList patterns ctx ts
    | product ts => findMatchesList patterns ctx ts
    | binary _ l r => findMatches patterns ctx l ++ findMatches patterns ctx r
    | not a => findMatches patterns ctx a
    | call _ ts => findMatchesList patterns ctx ts
    | set ts => findMatchesList patterns ctx ts

/-- The matches in a list, in order. -/
def findMatchesList (patterns : List Expr) (ctx : Context) : List Expr → List (Expr × Bindings)
  | [] => []
  | t :: ts => findMatches patterns ctx t ++ findMatchesList patterns ctx ts

end

end Expr

end SymbolicAlgebra
