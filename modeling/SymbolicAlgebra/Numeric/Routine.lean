import SymbolicAlgebra.Native

/-!
# Floating point routines

Libraries of routines that calls are compiled to, addressed by name and number of arguments, and the
few floating point operations that they need beyond the elementary functions.
-/

namespace SymbolicAlgebra.Numeric

/-- A truth value as a double. -/
def truth (b : Bool) : Float := if b then 1 else 0

/-- The value that is no number. -/
def notANumber : Float := 0.0 / 0.0

def infinity : Float := 1.0 / 0.0

/-- The smaller number; of a number and a NaN the number. -/
def minimum (x y : Float) : Float :=
  if x.isNaN then y else if y.isNaN then x else if y < x then y else x

/-- The larger number; of a number and a NaN the number. -/
def maximum (x y : Float) : Float :=
  if x.isNaN then y else if y.isNaN then x else if x < y then y else x

/-- `1`, `-1` or `0`; a NaN counts as `0`. -/
def sign (x : Float) : Float := if x > 0 then 1 else if x < 0 then -1 else 0

/-- The largest number whose factorial is a finite double. -/
def maxFactorial : Float := 170

/-- `acc * (n + 1) * (n + 2) * ⋯`, `count` factors. -/
def risingProduct : Nat → Nat → Float → Float
  | 0, _, acc => acc
  | count + 1, n, acc => risingProduct count (n + 1) (acc * Float.ofNat (n + 1))

/-- The factorial of a natural number. -/
def factorial (x : Float) : Float :=
  let whole := if x < 0 then x.ceil else x.floor
  if x < 0 || (x - whole) != 0 then notANumber
  else if x > maxFactorial then infinity
  else risingProduct (x.toUInt64.toNat - 1) 1 1

/-- `x ^ n` by repeated squaring. -/
def powerLoop (x acc : Float) (n : Nat) : Float :=
  let acc := if n % 2 = 1 then acc * x else acc
  if n < 2 then acc else powerLoop (x * x) acc (n / 2)
termination_by n

/-- An integer power; a negative exponent gives the reciprocal of the power. -/
def integerPower (x : Float) (n : Int) : Float :=
  let magnitude := powerLoop x 1 n.natAbs
  if n < 0 then 1 / magnitude else magnitude

/-- The sum from left to right. -/
def sum (xs : List Float) : Float := xs.foldl (· + ·) (-0.0)

/-- The product from left to right. -/
def product (xs : List Float) : Float := xs.foldl (· * ·) 1

/-- A function on lists of numbers with its name and number of arguments. -/
structure Routine where
  name : String
  arity : Nat
  apply : List Float → Float
  /-- The number of arguments without which there is no value. -/
  reads : Nat

namespace Routine

/-- A routine of one argument. -/
def unary (name : String) (f : Float → Float) : Routine :=
  ⟨name, 1, fun xs => f (xs.headD notANumber), 1⟩

/-- A routine of two arguments. -/
def dyadic (name : String) (f : Float → Float → Float) : Routine :=
  ⟨name, 2, fun xs => f (xs.headD notANumber) (xs.tail.headD notANumber), 2⟩

/-- The first argument. -/
def first (name : String) (arity : Nat) : Routine := ⟨name, arity, fun xs => xs.headD notANumber, 1⟩

/-- The sum of the arguments. -/
def total (name : String) (arity : Nat) : Routine := 
  ⟨name, arity, fun xs => xs.foldl (· + ·) 0, 0⟩

/-- The product of the arguments. -/
def multiple (name : String) (arity : Nat) : Routine := ⟨name, arity, product, 0⟩

/-- Name and number of arguments. -/
def text (r : Routine) : String := r.name ++ "/" ++ toString r.arity

end Routine

/-- Routines by name and arity. -/
structure Library where
  routines : List Routine

namespace Library

def empty : Library := ⟨[]⟩

/-- The routine of a name and arity. -/
def get? (l : Library) (name : String) (arity : Nat) : Option Routine :=
  l.routines.find? fun r => r.name == name && r.arity == arity

/-- Adds a routine, or replaces the one of its name and arity. -/
def add (l : Library) (r : Routine) : Library :=
  ⟨(l.routines.filter fun s => !(s.name == r.name && s.arity == r.arity)) ++ [r]⟩

def size (l : Library) : Nat := l.routines.length

/-- The numeric functions among the built-in ones. -/
def standard : Library :=
  let elementary := Elementary.all.map fun f => Routine.unary f.name f.apply
  ⟨elementary ++ [
    .unary "Abs" Float.abs,
    .unary "Sign" sign,
    .unary "Sqrt" Float.sqrt,
    .unary "Floor" Float.floor,
    .unary "Ceiling" Float.ceil,
    .unary "Round" Float.round,
    .unary "Factorial" factorial,
    .dyadic "Log" (fun x b => x.log / b.log),
    .dyadic "Min" minimum,
    .dyadic "Max" maximum,
    ⟨"If", 3, fun xs =>
      match xs with
      | [c, t, f] => if c != 0 then t else f
      | _ => notANumber, 3⟩]⟩

/-- Puts a text into a sorted list. -/
def insertText (s : String) : List String → List String
  | [] => [s]
  | t :: ts => if s < t then s :: t :: ts else t :: insertText s ts

/-- The names and arities of all routines, sorted. -/
def text (l : Library) : String :=
  let names := (l.routines.map Routine.text).foldl (fun sorted s => insertText s sorted) []
  "Library[" ++ String.intercalate ", " names ++ "]"

end Library

end SymbolicAlgebra.Numeric
