import Devicetree.Linkage.Basic

/-!
# Overlays

What files say, told without an arena: a tree that is a value, and a table that gives for each
label the path of the node it names. A path holds the names and unit addresses from the root
down, so it stays the same whatever else comes and goes. Top-level statements act on such an
overlay one after the other, and each acts at the path of its target.
-/

namespace Devicetree

/-- The names and unit addresses that lead from the root down to a node. -/
abbrev NodePath := List UnitName

/-- A node with everything in force about it and below it. -/
structure Rose where
  name : UnitName
  /-- The texts of its labels, in the order of binding. -/
  labels : List String
  /-- The definitions in force, by name. -/
  properties : Table String PropertyDef
  children : List Rose

namespace Rose

/-- A node of which nothing is said yet. -/
def leaf (name : UnitName) : Rose := ⟨name, [], .empty, []⟩

def child? (name : UnitName) (r : Rose) : Option Rose :=
  r.children.find? (·.name = name)

/-- The child that a path segment names: the one of that name and unit address or, if the
segment has no address, the first of that name. -/
def lookup? (segment : UnitName) (r : Rose) : Option Rose :=
  match r.child? segment with
  | some child => some child
  | none =>
    match segment.address with
    | some _ => none
    | none => r.children.find? (·.name.name = segment.name)

/-- The path that the segments of a path reference lead along. -/
def resolve? : List UnitName → Rose → Option NodePath
  | [], _ => some []
  | segment :: rest, r =>
    (r.lookup? segment).bind fun child => (child.resolve? rest).map (child.name :: ·)

/-- Whether there is a node at a path. -/
def contains : NodePath → Rose → Bool
  | [], _ => true
  | name :: path, r => (r.child? name).any (contains path)

/-- Changes the node at a path. -/
def update (f : Rose → Rose) : NodePath → Rose → Rose
  | [], r => f r
  | name :: path, r =>
    { r with
      children := r.children.map fun child =>
        if child.name = name then child.update f path else child }

def addLabels (labels : List Label) (r : Rose) : Rose :=
  { r with labels := r.labels ++ labels.map (·.value) }

/-- Adds a child at the end, unless there is one of that name and unit address. -/
def adopt (name : UnitName) (r : Rose) : Rose :=
  if (r.child? name).isSome then r else { r with children := r.children ++ [leaf name] }

def dropChild (name : UnitName) (r : Rose) : Rose :=
  { r with children := r.children.filter (·.name ≠ name) }

/-- Puts a definition in force. One of the same name is replaced and keeps its place. -/
def setProperty (definition : PropertyDef) (r : Rose) : Rose :=
  { r with properties := r.properties.insert definition.name.value definition }

def dropProperty (name : String) (r : Rose) : Rose :=
  { r with properties := r.properties.erase name }

end Rose

/-- A tree and the paths that its labels name. -/
structure Overlay where
  tree : Rose
  labels : Table String NodePath

namespace Overlay

/-- The overlay of no files. -/
def start : Overlay := ⟨.leaf ⟨"/", none⟩, .empty⟩

/-- Changes the node at a path. -/
def update (v : Overlay) (path : NodePath) (f : Rose → Rose) : Overlay :=
  { v with tree := v.tree.update f path }

/-- Binds labels to the node at a path. -/
def bind (v : Overlay) (path : NodePath) (bound : List Label) : Overlay where
  tree := v.tree.update (·.addLabels bound) path
  labels := bound.foldl (fun table label => table.insert label.value path) v.labels

/-- The path that a reference names. -/
def target? (v : Overlay) : Reference → Option NodePath
  | .label ref => v.labels.get? ref.label
  | .path ref => v.tree.resolve? (ref.segments.map (·.value))

/-- Removes the subtree at a path and every label whose path lies in it. The root stays. -/
def remove (v : Overlay) (path : NodePath) : Overlay :=
  match path.getLast? with
  | none => v
  | some name =>
    { tree := v.tree.update (·.dropChild name) path.dropLast
      labels := v.labels.filterValues fun other => !path.isPrefixOf other }

/-- The path that a delete names in the body of the node at a path. -/
def doomed? (v : Overlay) (path : NodePath) : DeleteTarget → Option NodePath
  | .name name =>
    if v.tree.contains (path ++ [name.value]) then some (path ++ [name.value]) else none
  | .reference ref => v.target? ref

/-- A property or a delete in the body of the node at a path. -/
def leaf (v : Overlay) (path : NodePath) : Statement → Overlay
  | .block _ _ => v
  | .property definition => v.update path (·.setProperty definition)
  | .deleteNode delete =>
    match v.doomed? path delete.target with
    | some doomed => v.remove doomed
    | none => v
  | .deleteProperty delete => v.update path (·.dropProperty delete.name.value)

mutual

/-- A block about the node at a path: its labels are bound, then the blocks of its body are
applied in order, and then its properties and deletes in order. -/
def block (v : Overlay) (path : NodePath) : Statement → Overlay
  | .block head body => body.foldl (leaf · path) ((v.bind path head.labels).blocks path body)
  | _ => v

/-- The child blocks in the body of the node at a path. -/
def blocks (v : Overlay) (path : NodePath) : List Statement → Overlay
  | [] => v
  | s :: ss =>
    match s with
    | .block ⟨_, _, .child name, _⟩ _ =>
      (((v.update path (·.adopt name.value)).block (path ++ [name.value]) s).blocks path ss)
    | _ => v.blocks path ss

end

/-- A top-level statement. It stands in the body of the root, but a block may have another
target. One whose target is not found changes nothing. -/
def apply (v : Overlay) (s : Statement) : Overlay :=
  match s with
  | .block ⟨_, _, .root _, _⟩ _ => v.block [] s
  | .block ⟨_, _, .reference ref, _⟩ _ =>
    match v.target? ref with
    | some path => v.block path s
    | none => v
  | .block ⟨_, _, .child _, _⟩ _ => v.blocks [] [s]
  | _ => v.leaf [] s

/-- What files say, statement by statement. -/
def ofFiles (files : List SourceFile) : Overlay :=
  (files.flatMap (·.statements)).foldl apply start

end Overlay

namespace Statement

mutual

/-- Whether a statement of a body speaks of the node it is about and of nodes below it only. -/
def isLocal : Statement → Bool
  | .block head body =>
    (match head.target with
      | .child _ => true
      | _ => false) && areLocal body
  | .deleteNode delete =>
    match delete.target with
    | .name _ => true
    | .reference _ => false
  | _ => true

def areLocal : List Statement → Bool
  | [] => true
  | s :: ss => s.isLocal && areLocal ss

end

/-- Whether root blocks, reference blocks and deletes of a reference occur in a statement at the
top level only. -/
def isLayered : Statement → Bool
  | .block _ body => areLocal body
  | _ => true

end Statement

end Devicetree
