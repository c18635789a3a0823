import Devicetree.Tree.Basic

/-!
# Trees as source

A live tree is written in source form. How many definitions a property replaced, and what
was deleted where, is told in comments.
-/

namespace Devicetree.Tree

/-- Four spaces for each level. -/
def indent (depth : Nat) : String :=
  String.ofList (List.replicate (4 * depth) ' ')

def labelsText (labels : List Label) : String :=
  String.join (labels.map fun label => label.value ++ ": ")

def valuesText : List Value → String
  | [] => ""
  | values => " = " ++ ", ".intercalate (values.map Value.text)

def replacedText : Nat → String
  | 0 => ""
  | 1 => " // replaces 1 definition"
  | n => " // replaces " ++ Nat.repr n ++ " definitions"

def propertyLine (depth : Nat) (p : Property) : String :=
  indent depth ++ labelsText p.definition.labels ++ p.name ++ valuesText p.definition.values ++
    ";" ++ replacedText p.replaced.length

/-- A node without a parent is written as the root. -/
def openLine (depth : Nat) (n : Node) : String :=
  let name := if n.parent.isNone then "/" else n.name.text
  indent depth ++ labelsText n.labels ++ name ++ " \x7b"

def deletionLine (depth : Nat) (kind name place : String) : String :=
  indent depth ++ "// deleted " ++ kind ++ " " ++ name ++ " at " ++ place

/-- The lines of a node and all below it. -/
def lines (t : Tree) (locate : Span → String) (depth : Nat) (id : NodeId) : List String :=
  let n := t.node id
  let children := n.children.flatMap fun child =>
    if id.index < child.index ∧ child.index < t.size then t.lines locate (depth + 1) child else []
  [openLine depth n] ++
  n.properties.values.map (propertyLine (depth + 1)) ++
  children ++
  n.deletedProperties.map (fun s =>
    deletionLine (depth + 1) "property" s.target.name (locate s.deletedBy.span)) ++
  n.deletedNodes.map (fun s =>
    deletionLine (depth + 1) "node" (t.node s.target).name.text (locate s.deletedBy.span)) ++
  [indent depth ++ "\x7d;"]
termination_by t.size - id.index

/-- The whole tree. Spans are written as `locate` tells. -/
def render (t : Tree) (locate : Span → String) : String :=
  String.join ((t.lines locate 0 root).map (· ++ "\n"))

end Devicetree.Tree
