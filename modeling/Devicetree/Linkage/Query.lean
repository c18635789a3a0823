import Devicetree.Linkage.Basic
import Devicetree.Source.Element

/-!
# Questions about a linkage

Looking up nodes by label, by path and by phandle, and the element at a position.
-/

namespace Devicetree.Linkage

def node (l : Linkage) (id : NodeId) : Node :=
  l.tree.node id

def label? (l : Linkage) (label : String) : Option NodeId :=
  l.labels.get? label

/-- The node that a statement defines, or was applied to. -/
def owner? (l : Linkage) (statement : AstId) : Option NodeId :=
  l.owners.get? statement

/-- The node that a reference was resolved to. -/
def linked? (l : Linkage) (ref : AstId) : Option NodeId :=
  l.links.get? ref

/-- The node where a path begins: the root for `/`, or a labelled node for `&label`. -/
def startNode? (labelled : String → Option NodeId) (segment : String) : Option NodeId :=
  match segment.toList with
  | ['/'] => some Tree.root
  | '&' :: label => labelled (String.ofList label)
  | _ => none

/-- Follows a path given as segments, the first of which says where it begins. -/
def followPath? (labelled : String → Option NodeId) (next : NodeId → UnitName → Option NodeId) :
    List String → Option NodeId
  | [] => none
  | first :: rest => do
    let start ← startNode? labelled first
    rest.foldlM (fun node segment => next node (UnitName.read segment)) start

/-- The node that a list of segments names. -/
def resolveSegments? (l : Linkage) (segments : List String) : Option NodeId :=
  followPath? l.label? l.tree.lookup? segments

/-- The segments of a written path; empty ones are dropped. -/
def pathSegments (path : String) : List String :=
  let (head, rest) := match path.toList with
    | '/' :: rest => ("/", rest)
    | cs =>
      let head := cs.takeWhile (· ≠ '/')
      (String.ofList head, cs.drop (head.length + 1))
  head :: ((rest.splitOn '/').filter (!·.isEmpty)).map String.ofList

/-- The node that a path such as `/a/b@1` or `&label/a` names. -/
def resolve? (l : Linkage) (path : String) : Option NodeId :=
  l.resolveSegments? (pathSegments path)

/-- The properties that hold a phandle. -/
def phandleProperties : List String :=
  ["phandle", "linux,phandle"]

/-- The live nodes with a phandle, in the order of the tree. -/
def nodesWithPhandle (l : Linkage) (value : UInt64) : List NodeId :=
  l.tree.liveNodes.filter fun id =>
    phandleProperties.any fun name =>
      ((l.node id).property? name).bind (·.definition.firstCell?) = some value

/-- The element at a position, the statement it belongs to, and that statement's node. -/
structure Deepest where
  node : NodeId
  statement : Statement
  element : Element

def deepest? (l : Linkage) (c : Cursor) : Option Deepest := do
  let chain := ((← l.source? c.file).ancestry c.position).reverse
  let element ← chain.head?
  let statement ← chain.findSome? fun
    | .statement s => some s
    | _ => none
  let node ← l.owner? statement.id
  return ⟨node, statement, element⟩

end Devicetree.Linkage
