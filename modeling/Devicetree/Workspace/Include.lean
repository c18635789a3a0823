import Devicetree.Source.Statement
import Devicetree.Workspace.Store

/-!
# Finding included files

An include in quotes is searched beside the including file first; every include is then
searched in the directories given. An absolute path is taken as it is.
-/

namespace Devicetree.Include

/-- The paths that an include may mean, in the order in which they are tried. -/
def candidates (i : Include) (including : SourcePath) (directories : List SourcePath) :
    List SourcePath :=
  let target : SourcePath := ⟨i.path.value⟩
  if target.isAbsolute then [target]
  else
    let beside := if i.quoted then including.parent?.toList else []
    (beside ++ directories).map (·.join target)

variable {σ : Type} [Store σ]

/-- The file that an include means. -/
def resolve? (i : Include) (store : σ) (including : SourcePath) (directories : List SourcePath) :
    Option SourcePath :=
  (i.candidates including directories).find? (Store.isFile store)

end Devicetree.Include
