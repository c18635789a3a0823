import Devicetree.Tree.Node

/-!
# Trees

All nodes ever created, in order of creation. The first is the root. A parent is created
before its children, so walks up and down a tree end. A node without a parent that is not
the root stands in for one that could not be found; it and all below it are not live.
-/

namespace Devicetree

structure Tree where
  nodes : Array Node
deriving Repr

namespace Tree

def root : NodeId := ⟨0⟩

/-- The tree of a root alone. -/
def start : Tree :=
  ⟨#[.blank ⟨"/", none⟩ none]⟩

def size (t : Tree) : Nat :=
  t.nodes.size

/-- The node at a place; a blank one past the end. -/
def node (t : Tree) (id : NodeId) : Node :=
  (t.nodes[id.index]?).getD (.blank ⟨"", none⟩ none)

/-- All places, in order of creation. -/
def ids (t : Tree) : List NodeId :=
  (List.range t.size).map NodeId.mk

def modify (t : Tree) (id : NodeId) (f : Node → Node) : Tree :=
  ⟨t.nodes.modify id.index f⟩

/-- The place that the next node will take. -/
def nextId (t : Tree) : NodeId :=
  ⟨t.size⟩

def addChild (t : Tree) (parent : NodeId) (name : UnitName) : Tree :=
  let t' : Tree := ⟨t.nodes.push (.blank name (some parent))⟩
  t'.modify parent fun n => { n with children := n.children ++ [t.nextId] }

/-- Adds a node that stands in for one that could not be found. -/
def addStandIn (t : Tree) : Tree :=
  ⟨t.nodes.push (.blank ⟨"", none⟩ none)⟩

/-- The child in force with exactly this name. -/
def findChild? (t : Tree) (parent : NodeId) (name : UnitName) : Option NodeId :=
  (t.node parent).children.find? fun child => (t.node child).name = name

/-- The first of some nodes that a path segment names. Without a unit address it names a
node without one, or else the first of that name. -/
def select? (t : Tree) (candidates : List NodeId) (segment : UnitName) : Option NodeId :=
  match candidates.find? fun child => (t.node child).name = segment with
  | some child => some child
  | none =>
    match segment.address with
    | some _ => none
    | none => candidates.find? fun child => (t.node child).name.name = segment.name

/-- The child in force that a path segment names. -/
def lookup? (t : Tree) (parent : NodeId) (segment : UnitName) : Option NodeId :=
  t.select? (t.node parent).children segment

/-- A node and its ancestors, from the node up. -/
def lineage (t : Tree) (id : NodeId) : List NodeId :=
  match (t.node id).parent with
  | none => [id]
  | some parent => if parent.index < id.index then id :: t.lineage parent else [id]
termination_by id.index

/-- Whether a lineage ends at the root, and every member passes the test. -/
def reachesRoot (t : Tree) (id : NodeId) (holds : NodeId → Bool) : Bool :=
  (t.lineage id).all holds && (t.lineage id).getLast? == some root

/-- Whether a node hangs off the root through children in force. -/
def isLive (t : Tree) (id : NodeId) : Bool :=
  t.reachesRoot id fun member => !(t.node member).deleted

/-- The absolute path of a node. -/
def path (t : Tree) (id : NodeId) : String :=
  match (t.lineage id).dropLast with
  | [] => "/"
  | members => String.join (members.reverse.map fun member => "/" ++ (t.node member).name.text)

/-- A node and all below it through children in force, parents first. -/
def subtree (t : Tree) (id : NodeId) : List NodeId :=
  id :: (t.node id).children.flatMap fun child =>
    if id.index < child.index ∧ child.index < t.size then t.subtree child else []
termination_by t.size - id.index

/-- All live nodes, parents first. -/
def liveNodes (t : Tree) : List NodeId :=
  t.subtree root

/-- Takes a node out of its parent's children and leaves a tombstone there. A node without
a parent cannot be deleted. -/
def deleteNode? (t : Tree) (target : NodeId) (deletedBy : AstRef) : Option Tree :=
  (t.node target).parent.map fun parent =>
    let t' := t.modify parent fun n =>
      { n with
        children := n.children.filter (· ≠ target)
        deletedNodes := n.deletedNodes ++ [⟨target, deletedBy⟩] }
    t'.modify target fun n => { n with deleted := true }

/-- The first tombstone of a node in its parent. -/
def tombstone? (t : Tree) (target : NodeId) : Option (Tombstone NodeId) :=
  (t.node target).parent.bind fun parent =>
    (t.node parent).deletedNodes.find? (·.target = target)

/-- The nodes that the leading segments of a path name, as far as they name any. -/
def descend (t : Tree) (start : NodeId) : List UnitName → List NodeId
  | [] => []
  | segment :: rest =>
    match t.lookup? start segment with
    | some next => next :: t.descend next rest
    | none => []

end Tree

end Devicetree
