import Devicetree.Workspace.Basic

/-!
# Reports

A diagnostic as it is shown to a user: against the text of one file, that of its primary
label. Labels in other files are told in the hint.
-/

namespace Devicetree

/-- A labelled byte range of the text shown. -/
structure Mark where
  offset : Nat
  length : Nat
  label : String
  primary : Bool
deriving DecidableEq, Repr

structure Report where
  message : String
  isError : Bool
  code : Option String
  severity : Option Severity
  help : Option String
  /-- Whether there is a text to show. -/
  hasSource : Bool
  /-- The ranges to point out in the text, if there are any. -/
  marks : Option (List Mark)
deriving DecidableEq, Repr

/-- The file that a diagnostic is shown against. -/
def Diagnostic.anchor? (d : Diagnostic) : Option FileId :=
  match d.primarySpan? with
  | some span => some span.file
  | none => d.labels.head?.map (·.span.file)

namespace Report

/-- The labels in a file, if there are any. -/
def marksIn (d : Diagnostic) (file : FileId) : Option (List Mark) :=
  match d.labels.filter (·.span.file = file) with
  | [] => none
  | labels => some (labels.map fun l => ⟨l.span.start, l.span.length, l.message, l.primary⟩)

/-- A diagnostic with or without a text to show, and lines to be added to its hint. -/
def ofDiagnostic (d : Diagnostic) (hasSource : Bool) (elsewhere : List String) : Report where
  message := d.message
  isError := d.isError
  code := d.code.map Code.text
  severity := some d.severity
  help :=
    match d.help.toList ++ elsewhere with
    | [] => none
    | lines => some ("\n".intercalate lines)
  hasSource := hasSource
  marks := if hasSource then d.anchor?.bind (marksIn d) else none

/-- A diagnostic against the text that a workspace holds. -/
def ofWorkspace {σ : Type} (ws : Workspace σ) (d : Diagnostic) : Report :=
  let anchor := d.anchor?
  let hasSource := match anchor with
    | some file => (ws.registry.path? file).isSome && (ws.text? file).isSome
    | none => false
  let elsewhere := (d.labels.filter fun l => some l.span.file ≠ anchor).map fun l =>
    l.message ++ ": " ++ ws.registry.locate l.span
  ofDiagnostic d hasSource elsewhere

/-- The report as lines of text. -/
def text (r : Report) : String :=
  let severity := (r.severity.getD .error).text
  let code := match r.code with
    | some code => "[" ++ code ++ "]"
    | none => ""
  let help := match r.help with
    | some help => "\n  help: " ++ help
    | none => ""
  severity ++ code ++ ": " ++ r.message ++ help

def ofError (e : RunError) : Report where
  message := e.message
  isError := true
  code := some e.code
  severity := none
  help := e.help
  hasSource := false
  marks := none

end Report

end Devicetree
