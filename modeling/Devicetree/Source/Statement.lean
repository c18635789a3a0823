import Devicetree.Diagnostic
import Devicetree.Source.Name

/-!
# Statements

The tree that a source file is read into. Statements and references have numbers of their
own, so that what is learnt about them later can be kept beside the tree.
-/

namespace Devicetree

/-- The number of a statement or a reference in its file. It has no bound, and agrees with one of
thirty-two bits in a file with fewer than `2 ^ 32` statements and references. -/
structure AstId where
  file : FileId
  index : Nat
deriving DecidableEq, Repr, Inhabited

/-- A numbered place of a tree and its span. -/
structure AstRef where
  id : AstId
  span : Span
deriving DecidableEq, Repr

/-- The reference `&label`. -/
structure LabelRef where
  id : AstId
  label : String
  span : Span
deriving DecidableEq, Repr

/-- The reference `&{/path}`. No segment at all names the root. -/
structure PathRef where
  id : AstId
  segments : List NodeName
  span : Span
deriving DecidableEq, Repr

/-- The written form `/soc/uart@1000`. -/
def PathRef.text (path : PathRef) : String :=
  match path.segments with
  | [] => "/"
  | segments => String.join (segments.map fun segment => "/" ++ segment.value.text)

inductive Reference
  | label (ref : LabelRef)
  | path (ref : PathRef)
deriving DecidableEq, Repr

namespace Reference

def id : Reference → AstId
  | label ref => ref.id
  | path ref => ref.id

def span : Reference → Span
  | label ref => ref.span
  | path ref => ref.span

/-- What is referred to: the bare label, or the path. -/
def subject : Reference → String
  | label ref => ref.label
  | path ref => ref.text

def text : Reference → String
  | label ref => "&" ++ ref.label
  | path ref => "&\x7b" ++ ref.text ++ "\x7d"

def withId (id : AstId) : Reference → Reference
  | label ref => label { ref with id := id }
  | path ref => path { ref with id := id }

end Reference

/-- One element of a cell list. A symbol is a name left by a preprocessor. -/
inductive Cell
  | number (value : Spanned UInt64)
  | symbol (name : Spanned String)
  | reference (ref : Reference)
deriving DecidableEq, Repr

namespace Cell

def span : Cell → Span
  | number value => value.span
  | symbol name => name.span
  | reference ref => ref.span

def text : Cell → String
  | number value => Numeral.cellText value.value
  | symbol name => name.value
  | reference ref => ref.text

def reference? : Cell → Option Reference
  | reference ref => some ref
  | _ => none

end Cell

/-- One comma-separated part of a property's value. -/
inductive Value
  | string (content : Spanned String)
  | cells (cells : List Cell) (span : Span)
  | bytes (content : Spanned (List UInt8))
  | reference (ref : Reference)
deriving DecidableEq, Repr

namespace Value

def span : Value → Span
  | string content => content.span
  | cells _ span => span
  | bytes content => content.span
  | reference ref => ref.span

def text : Value → String
  | string content => "\"" ++ content.value ++ "\""
  | cells cs _ => "<" ++ " ".intercalate (cs.map Cell.text) ++ ">"
  | bytes content => "[" ++ " ".intercalate (content.value.map Numeral.byteText) ++ "]"
  | reference ref => ref.text

/-- The references of a value, in the order in which they are written. -/
def references : Value → List Reference
  | reference ref => [ref]
  | cells cs _ => cs.filterMap Cell.reference?
  | _ => []

/-- The number that a cell list begins with. -/
def firstNumber? : Value → Option UInt64
  | cells (.number n :: _) _ => some n.value
  | _ => none

end Value

/-- The definition `label: name = values;`. -/
structure PropertyDef where
  id : AstId
  labels : List Label
  name : Spanned String
  values : List Value
  span : Span
deriving DecidableEq, Repr

namespace PropertyDef

def references (p : PropertyDef) : List Reference :=
  p.values.flatMap Value.references

/-- The number that the first cell list with a leading number begins with. -/
def firstCell? (p : PropertyDef) : Option UInt64 :=
  p.values.findSome? Value.firstNumber?

def ref (p : PropertyDef) : AstRef :=
  ⟨p.id, p.span⟩

end PropertyDef

inductive DeleteTarget
  | name (name : NodeName)
  | reference (ref : Reference)
deriving DecidableEq, Repr

namespace DeleteTarget

def span : DeleteTarget → Span
  | name n => n.span
  | reference ref => ref.span

def text : DeleteTarget → String
  | name n => n.value.text
  | reference ref => ref.text

end DeleteTarget

/-- The statement `/delete-node/ target;`. -/
structure DeleteNode where
  id : AstId
  keyword : Span
  target : DeleteTarget
  span : Span
deriving DecidableEq, Repr

def DeleteNode.ref (d : DeleteNode) : AstRef :=
  ⟨d.id, d.span⟩

/-- The statement `/delete-property/ name;`. -/
structure DeleteProperty where
  id : AstId
  keyword : Span
  name : Spanned String
  span : Span
deriving DecidableEq, Repr

def DeleteProperty.ref (d : DeleteProperty) : AstRef :=
  ⟨d.id, d.span⟩

/-- The node that a block is about: the root, a child of the enclosing node, or a node
referred to. -/
inductive BlockTarget
  | root (slash : Span)
  | child (name : NodeName)
  | reference (ref : Reference)
deriving DecidableEq, Repr

namespace BlockTarget

def span : BlockTarget → Span
  | root slash => slash
  | child name => name.span
  | reference ref => ref.span

def text : BlockTarget → String
  | root _ => "/"
  | child name => name.value.text
  | reference ref => ref.text

end BlockTarget

/-- Everything of a block but its body. -/
structure BlockHead where
  id : AstId
  labels : List Label
  target : BlockTarget
  span : Span
deriving DecidableEq, Repr

def BlockHead.ref (b : BlockHead) : AstRef :=
  ⟨b.id, b.span⟩

inductive Statement
  | block (head : BlockHead) (body : List Statement)
  | property (definition : PropertyDef)
  | deleteNode (delete : DeleteNode)
  | deleteProperty (delete : DeleteProperty)
deriving Repr

namespace Statement

def id : Statement → AstId
  | block head _ => head.id
  | property p => p.id
  | deleteNode d => d.id
  | deleteProperty d => d.id

def span : Statement → Span
  | block head _ => head.span
  | property p => p.span
  | deleteNode d => d.span
  | deleteProperty d => d.span

def isBlock : Statement → Bool
  | block _ _ => true
  | _ => false

/-- The references written in a statement itself, its body left out. -/
def references : Statement → List Reference
  | block head _ =>
    match head.target with
    | .reference ref => [ref]
    | _ => []
  | property p => p.references
  | deleteNode d =>
    match d.target with
    | .reference ref => [ref]
    | .name _ => []
  | deleteProperty _ => []

mutual

/-- A statement and all below it, each with its depth, in the order of writing. -/
def preorder (depth : Nat) : Statement → List (Nat × Statement)
  | .block head body => (depth, .block head body) :: preorderAll (depth + 1) body
  | .property p => [(depth, .property p)]
  | .deleteNode d => [(depth, .deleteNode d)]
  | .deleteProperty d => [(depth, .deleteProperty d)]

def preorderAll (depth : Nat) : List Statement → List (Nat × Statement)
  | [] => []
  | s :: ss => preorder depth s ++ preorderAll depth ss

end

end Statement

/-- An include: the path written, and whether it stood in quotes. -/
structure Include where
  path : Spanned String
  quoted : Bool
  span : Span
deriving DecidableEq, Repr

/-- A source file as read: what could be made out, and what could not. -/
structure SourceFile where
  file : FileId
  statements : List Statement
  includes : List Include
  diagnostics : List Diagnostic

end Devicetree
