import SymbolicAlgebra.Error
import SymbolicAlgebra.Text.LetterCase

/-!
# Log levels

The levels of detail that a solver accepts by name. `off` and `none` turn the log off, and no name
means `info`.
-/

namespace SymbolicAlgebra.Numeric

/-- How much a solver reports. -/
inductive LogLevel where
  | trace | debug | info | warn | error
  deriving DecidableEq, Repr, Inhabited

namespace LogLevel

def name : LogLevel → String
  | trace => "Trace"
  | debug => "Debug"
  | info => "Info"
  | warn => "Warn"
  | error => "Error"

/-- All levels, from the most detailed on. -/
def all : List LogLevel := [trace, debug, info, warn, error]

/-- The level of a name in any case; `none` is silence. -/
def parse (given : Option String) : Result (Option LogLevel) :=
  match given with
  | none => .ok (some info)
  | some text =>
    let lower := Text.lowercase text
    if lower = "off" ∨ lower = "none" then .ok none
    else
      match all.find? fun l => Text.lowercase l.name == lower with
      | some l => .ok (some l)
      | none => refuse (.logLevel lower)

end LogLevel

end SymbolicAlgebra.Numeric
