import Devicetree.Text.Span

/-!
# Diagnostics

What every stage reports: a severity, a code, a message, labelled spans and a hint. Codes
are numbered by stage, `E0` for lexical faults, `E1` for grammar and includes, `E4` for
linking.
-/

namespace Devicetree

inductive Severity
  | warning
  | error
deriving DecidableEq, Repr

namespace Severity

def text : Severity → String
  | warning => "warning"
  | error => "error"

/-- An error outweighs a warning. -/
def max : Severity → Severity → Severity
  | error, _ => error
  | warning, s => s

end Severity

/-- What a diagnostic is about. -/
inductive Code
  | unterminatedString
  | unexpectedCharacter
  | unterminatedComment
  | unterminatedPath
  | unexpectedToken
  | incompleteInput
  | unresolvedInclude
  | duplicateNodeName
  | labelInUse
  | unresolvedReference
  | missingNode
  | missingProperty
deriving DecidableEq, Repr

namespace Code

def all : List Code :=
  [unterminatedString, unexpectedCharacter, unterminatedComment, unterminatedPath,
   unexpectedToken, incompleteInput, unresolvedInclude, duplicateNodeName, labelInUse,
   unresolvedReference, missingNode, missingProperty]

def text : Code → String
  | unterminatedString => "E001"
  | unexpectedCharacter => "E002"
  | unterminatedComment => "E003"
  | unterminatedPath => "E004"
  | unexpectedToken => "E100"
  | incompleteInput => "E101"
  | unresolvedInclude => "E102"
  | duplicateNodeName => "E400"
  | labelInUse => "E401"
  | unresolvedReference => "E402"
  | missingNode => "E403"
  | missingProperty => "E404"

def description : Code → String
  | unterminatedString => "unterminated string literal"
  | unexpectedCharacter => "unexpected character"
  | unterminatedComment => "unterminated block comment"
  | unterminatedPath => "unterminated path reference"
  | unexpectedToken => "unexpected token"
  | incompleteInput => "incomplete input"
  | unresolvedInclude => "unresolved include"
  | duplicateNodeName => "duplicate node name"
  | labelInUse => "label already in use"
  | unresolvedReference => "unable to resolve reference"
  | missingNode => "node does not exist"
  | missingProperty => "property does not exist"

/-- The code with a written form. -/
def ofText? (t : String) : Option Code :=
  all.find? (·.text == t)

end Code

/-- A span with a remark. The primary labels show where the trouble is, the others what it
has to do with. -/
structure Remark where
  span : Span
  message : String
  primary : Bool
deriving DecidableEq, Repr

structure Diagnostic where
  severity : Severity
  code : Option Code
  message : String
  labels : List Remark
  help : Option String
deriving DecidableEq, Repr

namespace Diagnostic

/-- An error with one primary label. -/
def errorAt (code : Code) (message : String) (span : Span) (remark : String)
    (help : Option String) : Diagnostic :=
  ⟨.error, some code, message, [⟨span, remark, true⟩], help⟩

def isError (d : Diagnostic) : Bool :=
  d.severity == .error

/-- The span of the first primary label. -/
def primarySpan? (d : Diagnostic) : Option Span :=
  (d.labels.find? (·.primary)).map (·.span)

/-- The written form `error[E100]: message`. -/
def text (d : Diagnostic) : String :=
  d.severity.text ++ (match d.code with
    | some code => "[" ++ code.text ++ "]"
    | none => "") ++ ": " ++ d.message

/-- The first diagnostic and how many follow. -/
def summary : List Diagnostic → String
  | [] => ""
  | [d] => d.text
  | d :: ds => d.text ++ " (+" ++ Nat.repr ds.length ++ " more)"

/-- The severity that outweighs all others, if there is any diagnostic. -/
def worst? : List Diagnostic → Option Severity
  | [] => none
  | d :: ds => some (ds.foldl (fun s e => s.max e.severity) d.severity)

end Diagnostic

end Devicetree
