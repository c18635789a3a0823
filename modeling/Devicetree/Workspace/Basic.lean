import Devicetree.Config.Settings
import Devicetree.Linkage.Basic
import Devicetree.Workspace.Walk

/-!
# Workspaces

A root file, everything it includes, and the last linkage of them. Each pass links all files
anew; its outcome takes the place of the last only if it succeeds.
-/

namespace Devicetree

structure Workspace (σ : Type) where
  root : SourcePath
  store : σ
  settings : Settings
  registry : Registry
  loaded : Table FileId Loaded
  includeLinks : Table FileId (List (Span × SourcePath))
  includeWarnings : List Diagnostic
  /-- The last linkage. -/
  current : Option Linkage
  /-- The number of the last pass that succeeded. -/
  generation : Nat

namespace Workspace

variable {σ : Type} [Store σ]

/-- A workspace of which nothing was read yet. -/
def start (root : SourcePath) (store : σ) (settings : Settings) : Workspace σ where
  root := root
  store := store
  settings := settings
  registry := .empty
  loaded := .empty
  includeLinks := .empty
  includeWarnings := []
  current := none
  generation := 0

/-- The files that a pass begins with: the common ones, then the root. -/
def entryPaths (ws : Workspace σ) : List SourcePath :=
  ws.settings.common ++ [ws.root]

/-- The include walk from all entry files. Includes find files of the store only, but an entry
file may be loaded and no longer in the store: so a chain may be one file longer than the store
allows. -/
def walk (ws : Workspace σ) : Walk :=
  let depth := Store.extent ws.store + 1
  ws.entryPaths.foldl (fun w path => w.visit ws.store ws.settings.includePaths depth path)
    (.start ws.registry ws.loaded)

/-- Runs a pass. If it fails only what was registered and loaded is kept. -/
def rebuild (ws : Workspace σ) : Workspace σ × Except RunError Linkage :=
  let w := ws.walk
  let ws := { ws with registry := w.registry, loaded := w.loaded }
  match w.failure with
  | some failure => (ws, .error failure)
  | none =>
    let generation := ws.generation + 1
    let linkage := Linkage.link w.files ws.settings.reportUnresolved generation
    ({ ws with
        includeLinks := w.links
        includeWarnings := w.warnings
        current := some linkage
        generation := generation }, .ok linkage)

/-- The last linkage, from a first pass if there was none. -/
def linkage (ws : Workspace σ) : Workspace σ × Except RunError Linkage :=
  match ws.current with
  | some linkage => (ws, .ok linkage)
  | none => ws.rebuild

/-- Forgets what was read of a file, or of all files. -/
def forget (ws : Workspace σ) : Option SourcePath → Workspace σ
  | none => { ws with loaded := .empty }
  | some path =>
    match ws.registry.lookup? path with
    | some file => { ws with loaded := ws.loaded.erase file }
    | none => ws

/-- Runs a pass after a file, or any file, was changed. -/
def revaluate (ws : Workspace σ) (changed : Option SourcePath) :
    Workspace σ × Except RunError Linkage :=
  (ws.forget changed).rebuild

omit [Store σ]

/-- The text a file was last read from. -/
def text? (ws : Workspace σ) (file : FileId) : Option String :=
  (ws.loaded.get? file).map (·.text)

/-- Whether a path took part in the last pass. -/
def contains (ws : Workspace σ) (path : SourcePath) : Bool :=
  match ws.registry.lookup? path, ws.current with
  | some file, some l => (l.fileRank? file).isSome
  | _, _ => false

/-- The paths of the last pass, in order. -/
def orderedFiles (ws : Workspace σ) : List SourcePath :=
  match ws.current with
  | some l => l.fileOrder.filterMap ws.registry.path?
  | none => []

/-- The includes of a file that were found in the last pass. -/
def includesOf (ws : Workspace σ) (path : SourcePath) : List (Span × SourcePath) :=
  ((ws.registry.lookup? path).bind ws.includeLinks.get?).getD []

/-- All that the last pass reported: on each file in order, on includes, on linking. -/
def diagnostics (ws : Workspace σ) : List Diagnostic :=
  match ws.current with
  | some l =>
    (l.fileOrder.filterMap l.source?).flatMap (·.diagnostics) ++ ws.includeWarnings ++
      l.issues.map Issue.diagnostic
  | none => []

end Workspace

end Devicetree
