import Devicetree.Command.LogLevel
import Devicetree.Command.Run
import Devicetree.Workspace.Snapshot

/-!
# The command line

Files are read into a snapshot until a run on it lacks none.
-/

namespace Devicetree.Main

def causeOf : IO.Error → AccessError
  | .noFileOrDirectory .. => .notFound
  | .inappropriateType none .. => .isDirectory
  | .inappropriateType (some _) .. => .notDirectory
  | .permissionDenied .. => .denied
  | .invalidArgument _ 22 _ => .nulInName
  | .invalidArgument .. => .nameTooLong
  | e => .other (toString e)

/-- What is at a path of the file system. -/
def probe (p : SourcePath) : BaseIO (Except AccessError String) := do
  match ← (IO.FS.readBinFile p.text).toBaseIO with
  | .error e => return .error (causeOf e)
  | .ok content =>
    match String.fromUTF8? content with
    | some text => return .ok text
    | none => return .error .invalidText

/-- The snapshot with those paths that it lacks, and whether there were any. -/
def extend (s : Snapshot) (paths : List SourcePath) : BaseIO (Snapshot × Bool) := do
  let missing := paths.filter s.lacks
  let s ← missing.foldlM (fun s p => return s.record p (← probe p)) s
  return (s, !missing.isEmpty)

/-- The paths that a run looks at, as far as they can be told. -/
def wanted (a : Arguments) (home : Option SourcePath) (s : Snapshot) : List SourcePath :=
  let settings := match a.config with
    | some path => [⟨path⟩]
    | none => Settings.places home
  settings ++ match a.settings s home with
    | .ok settings => (Workspace.start ⟨a.input⟩ s settings).linkage.1.wanted
    | .error _ => []

/-- A snapshot that a run lacks nothing of. -/
partial def collect (a : Arguments) (home : Option SourcePath) (s : Snapshot) :
    BaseIO Snapshot := do
  let (s, extended) ← extend s (wanted a home s)
  if extended then collect a home s else return s

/-- The directory for the settings of all programs. -/
def settingsHome : BaseIO (Option SourcePath) := do
  match ← IO.getEnv "XDG_CONFIG_HOME" with
  | some path =>
    if SourcePath.isAbsolute ⟨path⟩ then return some ⟨path⟩
  | none => pure ()
  return (← IO.getEnv "HOME").map fun path => SourcePath.join ⟨path⟩ ⟨".config"⟩

/-- The level to log at, with a note if its name is not known. -/
def logLevel (name : String) : IO LogLevel := do
  match LogLevel.ofText? name with
  | some level => return level
  | none =>
    IO.eprintln ("Invalid log level: " ++ name ++ ". Using 'warn' instead.")
    return LogLevel.fallback

def report (level : LogLevel) (r : Report) : IO Unit := do
  if level.admits (r.severity.getD .error) then IO.eprintln r.text

/-- Runs the command, and gives its exit status. -/
def run (arguments : List String) : IO UInt32 := do
  let home ← settingsHome
  let (s, level) ← match Arguments.read arguments with
    | .error e => do
      if e.isFault then IO.eprintln e.message
      pure (Snapshot.empty, LogLevel.off)
    | .ok a => do
      let level ← logLevel a.logLevel
      pure (← collect a home .empty, level)
  let c := Completion.run s home arguments
  c.reports.forM (report level)
  IO.print c.output
  return c.status

end Devicetree.Main

def main (arguments : List String) : IO UInt32 :=
  Devicetree.Main.run arguments
