import Devicetree.Workspace.Store

/-!
# File trees

Directories and files below a working directory. A path is followed one name at a time, and
every name but the last must be that of a directory. Outside of the working directory there
are directories only, of which no content is known.
-/

namespace Devicetree

inductive FileEntry
  | directory
  | file (content : ByteArray)

/-- What there is below the working directory, by the names on the way to it. -/
structure FileTree where
  entries : Table (List String) FileEntry

namespace FileTree

inductive Location
  | outside
  | inside (names : List String)

def empty : FileTree := ⟨.empty⟩

/-- The names in a path below the working directory. -/
def names (p : SourcePath) : List String :=
  p.components.filterMap fun
    | .normal name => some name
    | _ => none

/-- Adds a directory and those on the way to it. -/
def addDirectory (t : FileTree) (way : List String) : FileTree :=
  (List.range way.length).foldl
    (fun t n => ⟨t.entries.insert (way.take (n + 1)) .directory⟩) t

/-- Adds a file and the directories on the way to it. -/
def addFile (t : FileTree) (way : List String) (content : ByteArray) : FileTree :=
  let t := t.addDirectory way.dropLast
  ⟨t.entries.insert way (.file content)⟩

def entry? (t : FileTree) : Location → Option FileEntry
  | .outside => some .directory
  | .inside [] => some .directory
  | .inside way => t.entries.get? way

/-- The longest name, in bytes. -/
def nameLimit : Nat := 255

/-- No path has this many bytes. -/
def pathLimit : Nat := 4096

/-- Follows one text between slashes. -/
def follow (t : FileTree) (here : Location) (segment : List Char) : Except AccessError Location :=
  match t.entry? here with
  | some .directory =>
    match SourcePath.component? segment with
    | some (.normal name) =>
      if nameLimit < name.utf8ByteSize then .error .nameTooLong
      else
        match here with
        | .outside => .error .notFound
        | .inside way =>
          if t.entries.contains (way ++ [name]) then .ok (.inside (way ++ [name]))
          else .error .notFound
    | some .parent =>
      match here with
      | .outside => .ok .outside
      | .inside [] => .ok .outside
      | .inside way => .ok (.inside way.dropLast)
    | _ => .ok here
  | _ => .error .notDirectory

/-- Where a path leads. -/
def locate (t : FileTree) (p : SourcePath) : Except AccessError Location :=
  if '\x00' ∈ p.text.toList then .error .nulInName
  else if p.text.isEmpty then .error .notFound
  else if pathLimit ≤ p.text.utf8ByteSize then .error .nameTooLong
  else p.segments.foldlM t.follow (if p.isAbsolute then .outside else .inside [])

def find (t : FileTree) (p : SourcePath) : Except AccessError FileEntry :=
  match t.locate p with
  | .error e => .error e
  | .ok here =>
    match t.entry? here with
    | some entry => .ok entry
    | none => .error .notFound

/-- The number of code points. -/
def codePoints : Nat := 0x110000

/-- The path of a file has fewer bytes than the limit, and so fewer characters. Each of these is a
code point, and one letter more may stand for those that a shorter path lacks. -/
instance : Store FileTree where
  read t p :=
    match t.find p with
    | .error e => .error e
    | .ok .directory => .error .isDirectory
    | .ok (.file content) =>
      match String.fromUTF8? content with
      | some text => .ok text
      | none => .error .invalidText
  isFile t p :=
    match t.find p with
    | .ok (.file _) => true
    | _ => false
  isPresent t p := (t.find p).isOk
  extent _ := Nat.pow (codePoints + 1) pathLimit

end FileTree

end Devicetree
