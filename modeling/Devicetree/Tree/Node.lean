import Devicetree.Source.Statement
import Devicetree.Table

/-!
# Nodes and properties

A node gathers everything that blocks in several places say about it. What is replaced or
deleted is kept, with the statement that did it, so that earlier states can be told.
-/

namespace Devicetree

/-- A node's place in the order of creation. -/
structure NodeId where
  index : Nat
deriving DecidableEq, Repr, Inhabited

/-- The written form `node#3`. -/
def NodeId.text (id : NodeId) : String :=
  "node#" ++ Nat.repr id.index

/-- Something deleted, and the statement that deleted it. -/
structure Tombstone (α : Type) where
  target : α
  deletedBy : AstRef
deriving Repr

/-- A definition of a property, and the properties it replaced, oldest first. -/
structure Property where
  definition : PropertyDef
  replaced : List Property
deriving Repr

namespace Property

/-- A property that replaced nothing. -/
def fresh (definition : PropertyDef) : Property :=
  ⟨definition, []⟩

def name (p : Property) : String :=
  p.definition.name.value

def id (p : Property) : AstId :=
  p.definition.id

def span (p : Property) : Span :=
  p.definition.span

/-- The property in place of a previous one: it takes over what that replaced, and then replaces
that one itself. -/
def supersede (p previous : Property) : Property :=
  { p with replaced := previous.replaced ++ [{ previous with replaced := [] }] }

/-- The property and all it replaced, newest first. -/
def history (p : Property) : List Property :=
  p :: p.replaced.reverse

end Property

structure Node where
  name : UnitName
  parent : Option NodeId
  /-- The children in force, in order of creation. -/
  children : List NodeId
  /-- The properties in force, by name. -/
  properties : Table String Property
  /-- The blocks that say something about the node. -/
  definitions : List AstRef
  labels : List Label
  deletedNodes : List (Tombstone NodeId)
  deletedProperties : List (Tombstone Property)
  /-- The reference blocks among the definitions. -/
  referencedBy : List AstRef
  /-- The label references that were resolved to the node. -/
  linkedLabels : List AstRef
  /-- The path segments that were resolved to the node. -/
  linkedPaths : List AstRef
  deleted : Bool
deriving Repr

namespace Node

/-- A node of which nothing is said yet. -/
def blank (name : UnitName) (parent : Option NodeId) : Node where
  name := name
  parent := parent
  children := []
  properties := .empty
  definitions := []
  labels := []
  deletedNodes := []
  deletedProperties := []
  referencedBy := []
  linkedLabels := []
  linkedPaths := []
  deleted := false

def property? (n : Node) (name : String) : Option Property :=
  n.properties.get? name

def hasLabel (n : Node) (label : String) : Bool :=
  n.labels.any (·.value == label)

/-- The span of the first block that says something about the node. -/
def firstDefinition? (n : Node) : Option Span :=
  n.definitions.head?.map (·.span)

/-- Puts a definition in force. One of the same name is replaced and keeps its place. -/
def define (n : Node) (p : PropertyDef) : Node :=
  let property := match n.property? p.name.value with
    | some previous => (Property.fresh p).supersede previous
    | none => .fresh p
  { n with properties := n.properties.insert p.name.value property }

/-- Takes a property out of force, if there is one of that name. -/
def undefine? (n : Node) (name : String) (deletedBy : AstRef) : Option Node :=
  (n.property? name).map fun p =>
    { n with
      properties := n.properties.erase name
      deletedProperties := n.deletedProperties ++ [⟨p, deletedBy⟩] }

end Node

end Devicetree
