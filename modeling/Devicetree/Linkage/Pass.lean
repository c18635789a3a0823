import Devicetree.Linkage.Action
import Devicetree.Tree.Basic

/-!
# A linking pass

A pass performs one action after the other on a tree and its tables. No action fails: what
cannot be done is recorded as an issue. Below a reference block without a target a stand-in
node takes what its body says, and labels there are not bound.
-/

namespace Devicetree

/-- Everything that linking establishes. -/
structure Record where
  tree : Tree
  /-- The live node that each label names. -/
  labels : Table String NodeId
  /-- The node that each statement defines, or was applied to. -/
  owners : Table AstId NodeId
  /-- The node that each reference was resolved to. -/
  links : Table AstId NodeId
  roots : List AstRef
  referenceBlocks : List AstRef
  unlinkedReferenceBlocks : List AstRef
  globalDeletes : List AstRef
  unlinkedDeletes : List AstRef
  issues : List Issue

/-- The node that the statements of an open body apply to. -/
structure Scope where
  node : NodeId
  /-- Set below a reference block without a target. -/
  detached : Bool
deriving DecidableEq, Repr

/-- A pass under way: the record so far, the references of property values still without a
target, and the open bodies, innermost first. -/
structure Pass extends Record where
  pendingLabels : List LabelRef
  pendingPaths : List PathRef
  scopes : List Scope

namespace Pass

def start : Pass where
  tree := .start
  labels := .empty
  owners := .empty
  links := .empty
  roots := []
  referenceBlocks := []
  unlinkedReferenceBlocks := []
  globalDeletes := []
  unlinkedDeletes := []
  issues := []
  pendingLabels := []
  pendingPaths := []
  scopes := []

/-- The innermost open body; outside all blocks, that of the root. -/
def scope (p : Pass) : Scope :=
  match p.scopes with
  | [] => ⟨Tree.root, false⟩
  | scope :: _ => scope

def report (p : Pass) (kind : IssueKind) (span : Span) (subject : String) (related : List Span) :
    Pass :=
  { p with issues := p.issues ++ [⟨kind, span, subject, related⟩] }

def modifyNode (p : Pass) (id : NodeId) (f : Node → Node) : Pass :=
  { p with tree := p.tree.modify id f }

def own (p : Pass) (statement : AstId) (node : NodeId) : Pass :=
  { p with owners := p.owners.insert statement node }

/-! ### References -/

def linkLabel (p : Pass) (ref : LabelRef) (node : NodeId) : Pass :=
  let p := p.modifyNode node fun n =>
    { n with linkedLabels := n.linkedLabels ++ [⟨ref.id, ref.span⟩] }
  { p with links := p.links.insert ref.id node }

/-- The nodes that the leading segments of a path name, as far as they name any. -/
def walkPath (p : Pass) (path : PathRef) : List NodeId :=
  p.tree.descend Tree.root (path.segments.map (·.value))

/-- Notes each segment at the node it names. -/
def linkSegments (p : Pass) (path : PathRef) (nodes : List NodeId) : Pass :=
  (path.segments.zip nodes).foldl
    (fun p (segment, node) =>
      p.modifyNode node fun n =>
        { n with linkedPaths := n.linkedPaths ++ [⟨path.id, segment.span⟩] })
    p

/-- Resolves a path of which every segment names a node; otherwise nothing is noted. -/
def linkPath? (p : Pass) (path : PathRef) : Option (Pass × NodeId) :=
  let nodes := p.walkPath path
  if nodes.length = path.segments.length then
    let target := nodes.getLast?.getD Tree.root
    let p := p.linkSegments path nodes
    some ({ p with links := p.links.insert path.id target }, target)
  else none

/-- Resolves a reference, if it has a target now. -/
def linkReference? (p : Pass) : Reference → Option (Pass × NodeId)
  | .label ref => (p.labels.get? ref.label).map fun node => (p.linkLabel ref node, node)
  | .path ref => p.linkPath? ref

/-- Resolves a reference of a property value, now or later. -/
def linkValue (p : Pass) (ref : Reference) : Pass :=
  match p.linkReference? ref with
  | some (p, _) => p
  | none =>
    match ref with
    | .label ref => { p with pendingLabels := p.pendingLabels ++ [ref] }
    | .path ref => { p with pendingPaths := p.pendingPaths ++ [ref] }

/-- Resolves the references that waited for a label. -/
def linkPendingLabels (p : Pass) (label : String) (node : NodeId) : Pass :=
  let waiting := p.pendingLabels.filter (·.label = label)
  let p := { p with pendingLabels := p.pendingLabels.filter (·.label ≠ label) }
  waiting.foldl (fun p ref => p.linkLabel ref node) p

/-! ### Blocks -/

/-- Gives a node a label. In a detached body the label is not bound. -/
def bindLabel (p : Pass) (node : NodeId) (detached : Bool) (label : Label) : Pass :=
  let p := p.modifyNode node fun n => { n with labels := n.labels ++ [label] }
  if detached then p
  else { p with labels := p.labels.insert label.value node }.linkPendingLabels label.value node

/-- Records a block as a definition of a node and opens its body. -/
def define (p : Pass) (head : BlockHead) (node : NodeId) (detached : Bool) : Pass :=
  let p := p.modifyNode node fun n => { n with definitions := n.definitions ++ [head.ref] }
  let p := p.own head.id node
  let p := head.labels.foldl (fun p label => p.bindLabel node detached label) p
  { p with scopes := ⟨node, detached⟩ :: p.scopes }

/-- The child of a name, created if it is not there. -/
def childFor (p : Pass) (parent : NodeId) (name : UnitName) : Pass × NodeId :=
  match p.tree.findChild? parent name with
  | some child => (p, child)
  | none => ({ p with tree := p.tree.addChild parent name }, p.tree.nextId)

def enter (p : Pass) (head : BlockHead) : Pass :=
  match head.target with
  | .root _ => { p with roots := p.roots ++ [head.ref] }.define head Tree.root false
  | .child name =>
    let scope := p.scope
    let (p, node) := p.childFor scope.node name.value
    p.define head node scope.detached
  | .reference ref =>
    match p.linkReference? ref with
    | some (p, node) =>
      let p := { p with referenceBlocks := p.referenceBlocks ++ [head.ref] }
      let p := p.modifyNode node fun n => { n with referencedBy := n.referencedBy ++ [head.ref] }
      p.define head node false
    | none =>
      let p := { p with unlinkedReferenceBlocks := p.unlinkedReferenceBlocks ++ [head.ref] }
      let p := p.report .unresolvedReference ref.span ref.subject []
      let node := p.tree.nextId
      { p with tree := p.tree.addStandIn }.define head node true

def leave (p : Pass) : Pass :=
  { p with scopes := p.scopes.tail }

/-! ### Properties and deletes -/

def setProperty (p : Pass) (definition : PropertyDef) : Pass :=
  let node := p.scope.node
  let p := p.own definition.id node
  let p := p.modifyNode node fun n => n.define definition
  definition.references.foldl linkValue p

/-- Deletes a node and unbinds every label in its subtree. -/
def removeNode? (p : Pass) (target : NodeId) (deletedBy : AstRef) : Option Pass :=
  (p.tree.deleteNode? target deletedBy).map fun tree =>
    let doomed := tree.subtree target
    { p with tree := tree, labels := p.labels.filterValues fun node => !doomed.contains node }

/-- Deletes a node found by reference. The root cannot be deleted. -/
def removeGlobal (p : Pass) (target : Option NodeId) (deletedBy : AstRef) (ref : Reference) :
    Pass :=
  match target.bind fun node => p.removeNode? node deletedBy with
  | some p => { p with globalDeletes := p.globalDeletes ++ [deletedBy] }
  | none =>
    { p with unlinkedDeletes := p.unlinkedDeletes ++ [deletedBy] }.report
      .unresolvedReference ref.span ref.subject []

def deleteNode (p : Pass) (delete : DeleteNode) : Pass :=
  let node := p.scope.node
  let p := p.own delete.id node
  match delete.target with
  | .name name =>
    match (p.tree.findChild? node name.value).bind fun child => p.removeNode? child delete.ref with
    | some p => p
    | none => p.report .missingNode name.span name.value.text []
  | .reference ref =>
    match p.linkReference? ref with
    | some (p, target) => p.removeGlobal (some target) delete.ref ref
    | none => p.removeGlobal none delete.ref ref

def deleteProperty (p : Pass) (delete : DeleteProperty) : Pass :=
  let node := p.scope.node
  let p := p.own delete.id node
  match (p.tree.node node).undefine? delete.name.value delete.ref with
  | some changed => p.modifyNode node fun _ => changed
  | none => p.report .missingProperty delete.name.span delete.name.value []

/-- Performs one action. -/
def step (p : Pass) : Action → Pass
  | .clash name first => p.report .duplicateNodeName name.span name.value.text [first]
  | .enter head => p.enter head
  | .leave => p.leave
  | .property definition => p.setProperty definition
  | .deleteNode delete => p.deleteNode delete
  | .deleteProperty delete => p.deleteProperty delete

/-- Performs actions in order. -/
def run (p : Pass) (actions : List Action) : Pass :=
  actions.foldl step p

@[simp] theorem run_nil (p : Pass) : p.run [] = p := rfl

@[simp] theorem run_cons (p : Pass) (a : Action) (as : List Action) :
    p.run (a :: as) = (p.step a).run as := rfl

theorem run_append (p : Pass) (as bs : List Action) : p.run (as ++ bs) = (p.run as).run bs := by
  simp [run, List.foldl_append]

end Pass

end Devicetree
