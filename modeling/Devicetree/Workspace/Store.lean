import Devicetree.Table
import Devicetree.Workspace.SourcePath

/-!
# Stores of files

Where files are read from. A store in memory holds whole texts by path.
-/

namespace Devicetree

/-- Why a file cannot be read. -/
inductive AccessError
  | notFound
  | notDirectory
  | isDirectory
  | denied
  | nameTooLong
  | nulInName
  | invalidText
  /-- A store in memory does not hold the path. -/
  | notHeld (path : SourcePath)
  /-- Any other reason, in the words of the system. -/
  | other (reason : String)
deriving DecidableEq, Repr

def AccessError.message : AccessError → String
  | notFound => "No such file or directory (os error 2)"
  | notDirectory => "Not a directory (os error 20)"
  | isDirectory => "Is a directory (os error 21)"
  | denied => "Permission denied (os error 13)"
  | nameTooLong => "File name too long (os error 36)"
  | nulInName => "file name contained an unexpected NUL byte"
  | invalidText => "stream did not contain valid UTF-8"
  | notHeld path => "no in-memory source for `" ++ path.text ++ "`"
  | other reason => reason

class Store (σ : Type) where
  read : σ → SourcePath → Except AccessError String
  isFile : σ → SourcePath → Bool
  /-- Whether there is anything at a path, a directory included. -/
  isPresent : σ → SourcePath → Bool
  /-- The paths of files have no more shortest spellings than this. -/
  extent : σ → Nat

/-- Texts held in memory, by the shortest spelling of their paths. -/
structure MemoryFiles where
  texts : Table String String

namespace MemoryFiles

def empty : MemoryFiles := ⟨.empty⟩

def insert (m : MemoryFiles) (p : SourcePath) (text : String) : MemoryFiles :=
  ⟨m.texts.insert p.canonical text⟩

def text? (m : MemoryFiles) (p : SourcePath) : Option String :=
  m.texts.get? p.canonical

def remove (m : MemoryFiles) (p : SourcePath) : MemoryFiles :=
  ⟨m.texts.erase p.canonical⟩

instance : Store MemoryFiles where
  read m p :=
    match m.text? p with
    | some text => .ok text
    | none => .error (.notHeld p)
  isFile m p := (m.text? p).isSome
  isPresent m p := (m.text? p).isSome
  extent m := m.texts.entries.length

end MemoryFiles

end Devicetree
