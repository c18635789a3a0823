import Devicetree.Source.Parser
import Devicetree.Workspace.Error
import Devicetree.Workspace.Include
import Devicetree.Workspace.Registry

/-!
# The include walk

Files are collected so that each comes after all it includes. A file seen before, also one
whose includes are still being walked, is passed over. A file that cannot be read ends the
walk; what was registered and loaded before stays known.
-/

namespace Devicetree

/-- A file as last read. -/
structure Loaded where
  text : String
  source : SourceFile

structure Walk where
  registry : Registry
  loaded : Table FileId Loaded
  visited : List FileId
  /-- The files walked through, each after all it includes. -/
  files : List SourceFile
  /-- The includes of each file that were found: the span of the path, and the file. -/
  links : Table FileId (List (Span × SourcePath))
  /-- The includes that were not found. -/
  warnings : List Diagnostic
  failure : Option RunError
  /-- Whether a file was left out for want of depth. It never is. -/
  exhausted : Bool

namespace Walk

def start (registry : Registry) (loaded : Table FileId Loaded) : Walk where
  registry := registry
  loaded := loaded
  visited := []
  files := []
  links := .empty
  warnings := []
  failure := none
  exhausted := false

def warn (w : Walk) (i : Include) : Walk :=
  let warning : Diagnostic := {
    severity := .warning
    code := some .unresolvedInclude
    message := "unable to resolve include `" ++ i.path.value ++ "`"
    labels := [⟨i.path.span, "not found in any include path", true⟩]
    help := none }
  { w with warnings := w.warnings ++ [warning] }

variable {σ : Type} [Store σ]

/-- The file under a number, read if it is not loaded yet. -/
def load (w : Walk) (store : σ) (file : FileId) (path : SourcePath) :
    Except RunError (Walk × SourceFile) :=
  match w.loaded.get? file with
  | some loaded => .ok (w, loaded.source)
  | none =>
    match Store.read store path with
    | .error cause => .error (.source path cause)
    | .ok text =>
      let source := SourceFile.read file text.toList
      .ok ({ w with loaded := w.loaded.insert file ⟨text, source⟩ }, source)

/-- Walks through a file and all it includes, at most `depth` files deep. A file that is passed
over takes no depth; one that lies deeper is left out, which is noted. -/
def visit (store : σ) (directories : List SourcePath) (depth : Nat) (path : SourcePath) (w : Walk) :
    Walk :=
  if w.failure.isSome then w
  else
    let (file, registry) := w.registry.intern path
    let w := { w with registry := registry }
    if file ∈ w.visited then w
    else
      match depth with
      | 0 => { w with exhausted := true }
      | depth + 1 =>
        match { w with visited := w.visited ++ [file] }.load store file path with
        | .error failure => { w with failure := some failure }
        | .ok (w, source) =>
          let w := source.includes.foldl
            (fun w i =>
              if w.failure.isSome then w
              else
                match i.resolve? store path directories with
                | some target =>
                  let w := { w with links := w.links.push file (i.path.span, target) }
                  visit store directories depth target w
                | none => w.warn i)
            w
          if w.failure.isSome then w else { w with files := w.files ++ [source] }

end Walk

end Devicetree
