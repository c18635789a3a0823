import Devicetree.Command.Arguments
import Devicetree.Config.Load
import Devicetree.Report
import Devicetree.Tree.Render

/-!
# Running the command

The command links a root file and reports on it. It fails if there is an error, and also on a
warning if the settings say so.
-/

namespace Devicetree

/-- What a run that could read all its files comes to. -/
structure Outcome (σ : Type) where
  workspace : Workspace σ
  linkage : Linkage

namespace Outcome

variable {σ : Type}

def diagnostics (o : Outcome σ) : List Diagnostic :=
  o.workspace.diagnostics

def errors (o : Outcome σ) : Nat :=
  o.diagnostics.countP (·.isError)

def warnings (o : Outcome σ) : Nat :=
  o.diagnostics.countP (!·.isError)

def failed (o : Outcome σ) : Bool :=
  0 < o.errors || (o.workspace.settings.warningsAsErrors && 0 < o.warnings)

def reports (o : Outcome σ) : List Report :=
  o.diagnostics.map (.ofWorkspace o.workspace)

/-- The tree as text, with places in files by path. -/
def tree (o : Outcome σ) : String :=
  o.linkage.tree.render o.workspace.registry.locate

end Outcome

namespace Arguments

variable {σ : Type} [Store σ]

/-- The settings in effect: what the arguments give comes after what is loaded. -/
def settings (a : Arguments) (store : σ) (home : Option SourcePath) : Except RunError Settings := do
  let loaded ← Settings.load store (a.config.map SourcePath.mk) home
  return { loaded with
    includePaths := loaded.includePaths ++ a.includePaths.map SourcePath.mk
    common := loaded.common ++ a.common.map SourcePath.mk }

/-- Links the root file under the settings in effect. -/
def run (a : Arguments) (store : σ) (home : Option SourcePath) : Except RunError (Outcome σ) := do
  let settings ← a.settings store home
  let (workspace, result) := (Workspace.start ⟨a.input⟩ store settings).linkage
  return ⟨workspace, ← result⟩

end Arguments

/-- What the command writes and its exit status. -/
structure Completion where
  status : UInt32
  output : String
  /-- What it has to report. -/
  reports : List Report

namespace Completion

def helpText : String :=
  "\n".intercalate [
    "Command-line checker for devicetree sources built on dtlink",
    "",
    "Usage: dtlink [OPTIONS] <INPUT>",
    "",
    "Arguments:",
    "  <INPUT>  Path to the root .dts file",
    "",
    "Options:",
    "  -c, --config <CONFIG>",
    "          Path to configuration file (TOML)",
    "  -I, --include-path <INCLUDE_PATH>",
    "          Directory searched for `#include` and `/include/` targets",
    "      --common <COMMON>",
    "          File resolved before the root file and its includes",
    "      --dump-tree",
    "          Print the resolved node tree after the diagnostics",
    "      --log-level <LOG_LEVEL>",
    "          Log level (off, error, warn, info, debug, trace) [default: info]",
    "  -h, --help",
    "          Print help",
    "  -V, --version",
    "          Print version",
    ""]

def versionText : String := "dtlink-cli 0.1.0\n"

/-- Help and the version are written out; any fault of the arguments gives the status two. -/
def ofUsageError : UsageError → Completion
  | .help => ⟨0, helpText, []⟩
  | .version => ⟨0, versionText, []⟩
  | _ => ⟨2, "", []⟩

/-- The tree is written out if it was asked for, also by a run that failed. -/
def ofRun {σ : Type} (a : Arguments) : Except RunError (Outcome σ) → Completion
  | .error e => ⟨1, "", [.ofError e]⟩
  | .ok o =>
    ⟨if o.failed then 1 else 0, if a.dumpTree then o.tree ++ "\n" else "", o.reports⟩

/-- Runs the command on its arguments. -/
def run {σ : Type} [Store σ] (store : σ) (home : Option SourcePath) (arguments : List String) :
    Completion :=
  match Arguments.read arguments with
  | .error e => ofUsageError e
  | .ok a => ofRun a (a.run store home)

end Completion

end Devicetree
