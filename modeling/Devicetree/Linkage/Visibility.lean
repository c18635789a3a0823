import Devicetree.Linkage.Query

/-!
# What is visible at a cursor

A span is in scope at a cursor if it ends there at the latest, or lies in a file that comes
earlier. Files see each other wholly or not at all. What was deleted or replaced later is
still visible, and what was deleted before is not.
-/

namespace Devicetree

/-- Whether a span is in scope at a cursor. A file outside the order sees nothing of others. -/
def inScope (order : List FileId) (c : Cursor) (s : Span) : Bool :=
  if s.file = c.file then decide (s.stopPos ≤ c.position)
  else
    match Linkage.rankIn? order s.file, Linkage.rankIn? order c.file with
    | some rank, some own => rank < own
    | _, _ => false

namespace Linkage

def inScope (l : Linkage) (c : Cursor) (s : Span) : Bool :=
  Devicetree.inScope l.fileOrder c s

/-- Whether a node was deleted by a statement in scope. -/
def deletedAt (l : Linkage) (c : Cursor) (id : NodeId) : Bool :=
  (l.node id).deleted && match l.tree.tombstone? id with
    | some tombstone => l.inScope c tombstone.deletedBy.span
    | none => false

/-- Whether a node hangs off the root at a cursor. -/
def visibleAt (l : Linkage) (c : Cursor) (id : NodeId) : Bool :=
  l.tree.reachesRoot id fun member => !l.deletedAt c member

/-- Whether some block about a node is in scope. -/
def definedAt (l : Linkage) (c : Cursor) (id : NodeId) : Bool :=
  (l.node id).definitions.any fun ref => l.inScope c ref.span

/-- A list without the members that came before. -/
def distinct {α : Type} [DecidableEq α] : List α → List α
  | [] => []
  | a :: as => a :: (distinct as).filter (· ≠ a)

/-- The labels in scope, each with the node it names. -/
def visibleLabels (l : Linkage) (c : Cursor) : List (String × NodeId) :=
  distinct ((l.tree.ids.filter (l.visibleAt c)).flatMap fun id =>
    ((l.node id).labels.filter fun label => l.inScope c label.span).map fun label =>
      (label.value, id))

/-- The children of a node that are defined before a cursor and not yet deleted there. -/
def visibleChildren (l : Linkage) (c : Cursor) (id : NodeId) : List NodeId :=
  let n := l.node id
  (n.children ++ n.deletedNodes.map (·.target)).filter fun child =>
    l.visibleAt c child && l.definedAt c child

/-- The properties of a node not yet deleted at a cursor. -/
def undeletedProperties (l : Linkage) (c : Cursor) (id : NodeId) : List Property :=
  let n := l.node id
  n.properties.values ++
    (n.deletedProperties.filter fun s => !l.inScope c s.deletedBy.span).map (·.target)

/-- The newest definition in scope of each, one for each name. -/
def newestInScope (l : Linkage) (c : Cursor) : List Property → List PropertyDef
  | [] => []
  | p :: ps =>
    match p.history.find? fun q => l.inScope c q.span with
    | some q => q.definition :: (newestInScope l c ps).filter (·.name.value ≠ p.name)
    | none => newestInScope l c ps

/-- The properties of a node as they are seen from a cursor. -/
def visibleProperties (l : Linkage) (c : Cursor) (id : NodeId) : List PropertyDef :=
  l.newestInScope c (l.undeletedProperties c id)

/-- The node that a list of segments names as seen from a cursor. Of several nodes with a
label the last counts. -/
def resolveAt? (l : Linkage) (c : Cursor) (segments : List String) : Option NodeId :=
  let labelled (label : String) : Option NodeId :=
    ((l.visibleLabels c).reverse.find? (·.1 = label)).map (·.2)
  followPath? labelled (fun id segment => l.tree.select? (l.visibleChildren c id) segment) segments

end Linkage

end Devicetree
