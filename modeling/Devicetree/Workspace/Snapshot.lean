import Devicetree.Workspace.Basic

/-!
# Snapshots

What was found at some paths of a file system. A run on a snapshot shows which paths it lacks:
once it lacks none, the run is that on the file system itself.
-/

namespace Devicetree

/-- What was found at each path, by the text of the path. -/
structure Snapshot where
  contents : Table String (Except AccessError String)

namespace Snapshot

def empty : Snapshot := ⟨.empty⟩

def record (s : Snapshot) (p : SourcePath) (content : Except AccessError String) : Snapshot :=
  ⟨s.contents.insert p.text content⟩

def lacks (s : Snapshot) (p : SourcePath) : Bool :=
  !s.contents.contains p.text

/-- What was found at a path; nothing, if nobody looked. -/
def content (s : Snapshot) (p : SourcePath) : Except AccessError String :=
  (s.contents.get? p.text).getD (.error .notFound)

instance : Store Snapshot where
  read := content
  isFile s p :=
    match s.content p with
    | .ok _ => true
    | .error e => e = .denied ∨ e = .invalidText
  isPresent s p :=
    match s.content p with
    | .ok _ => true
    | .error e => e = .denied ∨ e = .invalidText ∨ e = .isDirectory
  extent s := s.contents.entries.length

end Snapshot

/-- The paths that a pass may look at, as far as they can be told from the files loaded. -/
def Workspace.wanted {σ : Type} [Store σ] (ws : Workspace σ) : List SourcePath :=
  ws.entryPaths ++ ws.loaded.entries.flatMap fun (file, loaded) =>
    match ws.registry.path? file with
    | some path => loaded.source.includes.flatMap (·.candidates path ws.settings.includePaths)
    | none => []

end Devicetree
