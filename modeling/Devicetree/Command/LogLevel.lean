import Devicetree.Diagnostic

/-!
# Log levels

How much the command tells on its error output. Names are read without regard to case.
-/

namespace Devicetree

inductive LogLevel
  | off
  | error
  | warn
  | info
  | debug
  | trace
deriving DecidableEq, Repr

namespace LogLevel

def ofText? (text : String) : Option LogLevel :=
  match text.map Char.toLower with
  | "off" => some off
  | "error" => some error
  | "warn" => some warn
  | "info" => some info
  | "debug" => some debug
  | "trace" => some trace
  | _ => none

/-- The level for a name that is not known. -/
def fallback : LogLevel := warn

/-- Whether what has a severity is told. -/
def admits (level : LogLevel) (severity : Severity) : Bool :=
  match level, severity with
  | off, _ => false
  | error, .warning => false
  | _, _ => true

end LogLevel

end Devicetree
