import Devicetree.Workspace.Store

/-!
# Errors of a run

What keeps a pass from running at all. A malformed source file is no such error.
-/

namespace Devicetree

inductive RunError
  /-- Something other than a source file cannot be read. -/
  | access (cause : AccessError)
  /-- A source file cannot be read. -/
  | source (path : SourcePath) (cause : AccessError)
  /-- The configuration file chosen is not there. -/
  | missingConfiguration (path : SourcePath)
  /-- The configuration file is not well formed. -/
  | malformedConfiguration
deriving DecidableEq, Repr

namespace RunError

def message : RunError → String
  | access cause => "I/O error: " ++ cause.message
  | source path cause => "source file `" ++ path.text ++ "` is not available: " ++ cause.message
  | missingConfiguration path =>
    "Configuration error: Missing configuration file: " ++ path.text
  | malformedConfiguration => "Configuration error: Failed to parse TOML configuration"

def code : RunError → String
  | access _ => "dtlink::io"
  | source _ _ => "dtlink::source"
  | missingConfiguration _ => "dtlink::config"
  | malformedConfiguration => "dtlink::config"

def help : RunError → Option String
  | source _ _ => some "check the path and the configured common files"
  | _ => none

end RunError

end Devicetree
