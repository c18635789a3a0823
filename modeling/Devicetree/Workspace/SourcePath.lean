/-!
# Paths of source files

A path keeps the spelling it was given. Two paths are the same if they have the same
components: repeated slashes, a trailing slash and a `.` after the beginning do not count.
-/

namespace Devicetree

inductive Component
  | root
  | current
  | parent
  | normal (name : String)
deriving DecidableEq, Repr

def Component.text : Component → String
  | root => "/"
  | current => "."
  | parent => ".."
  | normal name => name

structure SourcePath where
  text : String
deriving DecidableEq, Repr

namespace SourcePath

/-- Whether the path begins at the root of the file system. -/
def isAbsolute (p : SourcePath) : Bool :=
  p.text.toList.head? == some '/'

/-- The texts between slashes, past the slash of an absolute path. -/
def segments (p : SourcePath) : List (List Char) :=
  match p.text.toList with
  | '/' :: rest => rest.splitOn '/'
  | cs => cs.splitOn '/'

/-- The component that a text between slashes stands for, if it counts. -/
def component? : List Char → Option Component
  | [] => none
  | ['.'] => none
  | ['.', '.'] => some .parent
  | name => some (.normal (String.ofList name))

def components (p : SourcePath) : List Component :=
  if p.isAbsolute then .root :: p.segments.filterMap component?
  else
    match p.segments with
    | ['.'] :: rest => .current :: rest.filterMap component?
    | segments => segments.filterMap component?

/-- The shortest spelling of the path. Paths are the same if it is the same. -/
def canonical (p : SourcePath) : String :=
  match p.components with
  | .root :: rest => "/" ++ "/".intercalate (rest.map Component.text)
  | components => "/".intercalate (components.map Component.text)

/-- The texts up to the last that counts; `first` tells whether a leading `.` counts. -/
def trimSegments (first : Bool) : List (List Char) → List (List Char)
  | [] => []
  | s :: rest =>
    match trimSegments false rest with
    | [] => if (component? s).isSome || (first && s == ['.']) then [s] else []
    | rest => s :: rest

/-- The path without its last component, which may be empty text; none of a root alone or
of a path without components. -/
def parent? (p : SourcePath) : Option SourcePath :=
  let first := !p.isAbsolute
  match trimSegments first p.segments with
  | [] => none
  | segments =>
    let rest := trimSegments first segments.dropLast
    let slash := if p.isAbsolute then "/" else ""
    some ⟨slash ++ "/".intercalate (rest.map String.ofList)⟩

/-- A path taken from a directory. An absolute path stays as it is. -/
def join (directory p : SourcePath) : SourcePath :=
  if p.isAbsolute then p
  else
    match directory.text.toList.getLast? with
    | none => p
    | some '/' => ⟨directory.text ++ p.text⟩
    | some _ => ⟨directory.text ++ "/" ++ p.text⟩

end SourcePath

end Devicetree
