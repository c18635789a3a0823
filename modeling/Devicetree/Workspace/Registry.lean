import Devicetree.Text.Span
import Devicetree.Workspace.SourcePath

/-!
# The registry of files

Each path gets a number when it is first seen, and keeps it, in the spelling first seen.
-/

namespace Devicetree

/-- A path as it was first seen, and its shortest spelling. -/
structure Registration where
  path : SourcePath
  canonical : String

structure Registry where
  entries : List Registration

namespace Registry

def empty : Registry := ⟨[]⟩

def paths (r : Registry) : List SourcePath :=
  r.entries.map (·.path)

def lookup? (r : Registry) (p : SourcePath) : Option FileId :=
  let canonical := p.canonical
  (r.entries.findIdx? (·.canonical = canonical)).map FileId.mk

def path? (r : Registry) (file : FileId) : Option SourcePath :=
  r.entries[file.index]?.map (·.path)

/-- The number of a path, and the registry that knows it. -/
def intern (r : Registry) (p : SourcePath) : FileId × Registry :=
  match r.lookup? p with
  | some file => (file, r)
  | none => (⟨r.entries.length⟩, ⟨r.entries ++ [⟨p, p.canonical⟩]⟩)

/-- Where a span begins, by path if its file is known. -/
def locate (r : Registry) (s : Span) : String :=
  match r.path? s.file with
  | some p => p.text ++ ":" ++ s.startPos.text
  | none => s.text

end Registry

end Devicetree
