import Devicetree.Workspace.SourcePath

/-!
# Settings

What a user can choose: where includes are searched, which files come before all others,
and what is reported.
-/

namespace Devicetree

structure Settings where
  /-- Directories searched for includes, in order. -/
  includePaths : List SourcePath
  /-- Files linked before the root file, in order. -/
  common : List SourcePath
  /-- Whether references of property values that stay unresolved are reported. -/
  reportUnresolved : Bool
  /-- Whether a warning makes a run fail. -/
  warningsAsErrors : Bool
deriving DecidableEq, Repr

/-- The settings of a user who chooses nothing. -/
def Settings.standard : Settings where
  includePaths := []
  common := []
  reportUnresolved := true
  warningsAsErrors := false

end Devicetree
