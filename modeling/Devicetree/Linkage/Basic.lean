import Devicetree.Linkage.Pass

/-!
# Linking files

All files are linked in one pass. At its end the paths still without a target are tried once
more, what then remains unresolved is reported if wanted, and labels with several owners are
reported. The result is never changed afterwards.
-/

namespace Devicetree

/-- The outcome of a pass over some files. -/
structure Linkage extends Record where
  /-- The number of the pass. -/
  generation : Nat
  files : List SourceFile

namespace Linkage

def fileOrder (l : Linkage) : List FileId :=
  l.files.map (·.file)

/-- The place of a file in an order. -/
def rankIn? (order : List FileId) (file : FileId) : Option Nat :=
  order.findIdx? (· = file)

def fileRank? (l : Linkage) (file : FileId) : Option Nat :=
  rankIn? l.fileOrder file

/-- The first file of a number. -/
def source? (l : Linkage) (file : FileId) : Option SourceFile :=
  l.files.find? (·.file = file)

end Linkage

namespace Pass

/-- Tries a path once more. If it has no target still, its leading segments are noted. -/
def retryPath (reportUnresolved : Bool) (p : Pass) (path : PathRef) : Pass :=
  match p.linkPath? path with
  | some (p, _) => p
  | none =>
    let p := p.linkSegments path (p.walkPath path)
    if reportUnresolved then p.report .unresolvedReference path.span path.text [] else p

def retryPaths (p : Pass) (reportUnresolved : Bool) : Pass :=
  p.pendingPaths.foldl (retryPath reportUnresolved) { p with pendingPaths := [] }

/-- Reports the label references that never found a target. -/
def reportLabels (p : Pass) (reportUnresolved : Bool) : Pass :=
  if reportUnresolved then
    p.pendingLabels.foldl
      (fun p ref => p.report .unresolvedReference ref.span ref.label [])
      { p with pendingLabels := [] }
  else p

end Pass

/-- What a label is bound to. -/
inductive LabelOwner
  | node (id : NodeId)
  | property (id : NodeId) (name : String)
deriving DecidableEq, Repr

/-- A label on something live. -/
structure LabelUse where
  label : String
  span : Span
  owner : LabelOwner
deriving DecidableEq, Repr

namespace LabelUse

/-- The labels of a node and of its properties in force. -/
def ofNode (t : Tree) (id : NodeId) : List LabelUse :=
  (t.node id).labels.map (fun label => ⟨label.value, label.span, .node id⟩) ++
  (t.node id).properties.values.flatMap fun p =>
    p.definition.labels.map fun label => ⟨label.value, label.span, .property id p.name⟩

/-- All labels of a tree, in the order of its live nodes. -/
def ofTree (t : Tree) : List LabelUse :=
  t.liveNodes.flatMap (ofNode t)

/-- The distinct labels, in the order in which they first come. -/
def distinctLabels : List LabelUse → List String
  | [] => []
  | u :: us => u.label :: (distinctLabels us).filter (· ≠ u.label)

/-- An unknown file comes before all others. -/
def rankLe : Option Nat → Option Nat → Bool
  | none, _ => true
  | some _, none => false
  | some a, some b => a ≤ b

/-- Earlier in the order of files, then in the file. -/
def le (order : List FileId) (u v : LabelUse) : Bool :=
  let ru := Linkage.rankIn? order u.span.file
  let rv := Linkage.rankIn? order v.span.file
  if ru = rv then u.span.start ≤ v.span.start else rankLe ru rv

/-- The issue of one label's uses, if they have several owners. It is at the earliest. -/
def issue? (label : String) : List LabelUse → Option Issue
  | [] => none
  | u :: us =>
    if us.all (·.owner = u.owner) then none
    else some ⟨.labelInUse, u.span, label, us.map (·.span)⟩

/-- The issues of all labels with several owners. -/
def issues (order : List FileId) (uses : List LabelUse) : List Issue :=
  (distinctLabels uses).filterMap fun label =>
    issue? label ((uses.filter (·.label = label)).mergeSort (le order))

end LabelUse

namespace Linkage

/-- Links files in order. -/
def link (files : List SourceFile) (reportUnresolved : Bool) (generation : Nat) : Linkage :=
  let p := Pass.start.run (files.flatMap SourceFile.actions)
  let p := (p.retryPaths reportUnresolved).reportLabels reportUnresolved
  let order := files.map (·.file)
  { p.toRecord with
    issues := p.issues ++ LabelUse.issues order (LabelUse.ofTree p.tree)
    generation := generation
    files := files }

end Linkage

end Devicetree
