import Devicetree.Diagnostic

/-!
# Issues

What linking finds wrong. An issue names its subject and its places; its wording is given
here alone.
-/

namespace Devicetree

inductive IssueKind
  /-- Two blocks of one body define the same child. -/
  | duplicateNodeName
  /-- A label is bound to more than one owner. -/
  | labelInUse
  /-- A reference has no target. -/
  | unresolvedReference
  /-- A node to be deleted is not there. -/
  | missingNode
  /-- A property to be deleted is not there. -/
  | missingProperty
deriving DecidableEq, Repr

namespace IssueKind

def code : IssueKind → Code
  | duplicateNodeName => .duplicateNodeName
  | labelInUse => .labelInUse
  | unresolvedReference => .unresolvedReference
  | missingNode => .missingNode
  | missingProperty => .missingProperty

def text : IssueKind → String
  | duplicateNodeName => "DUPLICATE_NODE_NAME"
  | labelInUse => "LABEL_ALREADY_IN_USE"
  | unresolvedReference => "UNABLE_TO_RESOLVE_CHILD_NODE"
  | missingNode => "NODE_DOES_NOT_EXIST"
  | missingProperty => "PROPERTY_DOES_NOT_EXIST"

def message (subject : String) : IssueKind → String
  | duplicateNodeName => "duplicate node name `" ++ subject ++ "`"
  | labelInUse => "label `" ++ subject ++ "` is already in use"
  | unresolvedReference => "unable to resolve `" ++ subject ++ "`"
  | missingNode => "node `" ++ subject ++ "` does not exist"
  | missingProperty => "property `" ++ subject ++ "` does not exist"

/-- The remark at the place of the issue. -/
def remark : IssueKind → String
  | duplicateNodeName => "defined again here"
  | labelInUse => "first assigned here"
  | unresolvedReference => "unresolved reference"
  | missingNode => "no such node in this scope"
  | missingProperty => "no such property on this node"

/-- The remark at the places it has to do with. -/
def relatedRemark : IssueKind → String
  | duplicateNodeName => "first defined here"
  | labelInUse => "also assigned here"
  | _ => "related"

def help : IssueKind → Option String
  | duplicateNodeName => some "merge the two bodies or give the nodes distinct unit addresses"
  | labelInUse => some "labels must be unique across the whole tree"
  | unresolvedReference =>
    some "check that the label or path is defined in this file or an earlier one"
  | missingNode => none
  | missingProperty => none

end IssueKind

structure Issue where
  kind : IssueKind
  span : Span
  subject : String
  related : List Span
deriving DecidableEq, Repr

namespace Issue

/-- Every issue is an error. -/
def severity (_ : Issue) : Severity :=
  .error

def message (i : Issue) : String :=
  i.kind.message i.subject

def text (i : Issue) : String :=
  i.kind.text ++ " at " ++ i.span.text ++ ": " ++ i.message

def diagnostic (i : Issue) : Diagnostic where
  severity := i.severity
  code := some i.kind.code
  message := i.message
  labels := ⟨i.span, i.kind.remark, true⟩ ::
    i.related.map fun span => ⟨span, i.kind.relatedRemark, false⟩
  help := i.kind.help

end Issue

end Devicetree
