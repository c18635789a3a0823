import Devicetree.Config.Reader
import Devicetree.Config.Settings
import Devicetree.Table
import Devicetree.Workspace.Error

/-!
# Loading settings

Settings are read from a TOML document with the sections `context` and `diagnostics`. What is
missing has its standard value. What is unknown is passed over, but its numbers must fit. A
section is a table, or an array of its fields in order, the rest of which is never read. A date
passes for a section without fields.
-/

namespace Devicetree

namespace Toml.Value

def string? : Value → Option String
  | string text => some text
  | _ => none

def boolean? : Value → Option Bool
  | boolean value => some value
  | _ => none

def items? : Value → Option (List Value)
  | array items => some items
  | tables items => some items
  | _ => none

/-- The value of a field of a section, by its name or its place; `standard` if it is missing. -/
def field? {α : Type} (name : String) (place : Nat) (standard : α) (read : Value → Option α) :
    Value → Option α
  | table _ fields => ((Table.lookup? name fields).map read).getD (some standard)
  | array items => (items[place]?.map read).getD (some standard)
  | tables items => (items[place]?.map read).getD (some standard)
  | moment => some standard
  | _ => none

/-- Whether the fields that are not known can be passed over. -/
def passes (known : List String) : Value → Bool
  | table _ fields => fieldsReadable (fields.filter fun f => !known.contains f.1)
  | _ => true

/-- A list of paths. -/
def paths? (v : Value) : Option (List SourcePath) :=
  v.items?.bind fun items => items.mapM fun item => item.string?.map SourcePath.mk

end Toml.Value

namespace Settings

/-- The settings that the fields of a document give. -/
def ofFields? (document : Toml.Fields) : Option Settings := do
  let part (name : String) : Toml.Value :=
    (Table.lookup? name document).getD (.table .header [])
  let context := part "context"
  let diagnostics := part "diagnostics"
  guard (Toml.Value.passes ["context", "diagnostics"] (.table .header document))
  guard (context.passes ["include_paths", "common"])
  guard (diagnostics.passes ["report_unresolved_values", "warnings_as_errors"])
  return {
    includePaths := ← context.field? "include_paths" 0 standard.includePaths (·.paths?)
    common := ← context.field? "common" 1 standard.common (·.paths?)
    reportUnresolved :=
      ← diagnostics.field? "report_unresolved_values" 0 standard.reportUnresolved (·.boolean?)
    warningsAsErrors :=
      ← diagnostics.field? "warnings_as_errors" 1 standard.warningsAsErrors (·.boolean?) }

def ofText? (text : String) : Option Settings :=
  (Toml.read? text).bind ofFields?

variable {σ : Type} [Store σ]

/-- The settings in a file that must be there. -/
def readFile (store : σ) (path : SourcePath) : Except RunError Settings :=
  if Store.isPresent store path then
    match Store.read store path with
    | .error cause => .error (.access cause)
    | .ok text =>
      match ofText? text with
      | some settings => .ok settings
      | none => .error .malformedConfiguration
  else .error (.missingConfiguration path)

/-- Where settings are kept below a directory. -/
def location : SourcePath := ⟨"dtlink/config.toml"⟩

/-- The places where settings are looked for if the user chose none: the working directory,
then the directory for the settings of all programs. -/
def places (home : Option SourcePath) : List SourcePath :=
  location :: home.toList.map (·.join location)

/-- The settings in the file chosen, or else in the first that is there, or else standard. -/
def load (store : σ) (chosen home : Option SourcePath) : Except RunError Settings :=
  match chosen with
  | some path => readFile store path
  | none =>
    match (places home).find? (Store.isPresent store) with
    | some path => readFile store path
    | none => .ok standard

end Settings

end Devicetree
