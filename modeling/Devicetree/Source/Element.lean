import Devicetree.Source.Statement

/-!
# Elements

Any part of a source tree, seen as a node with a span and children. The chain at a position
goes down from a statement, each time to the last child that covers the position.
-/

namespace Devicetree

inductive Element
  | statement (statement : Statement)
  | name (name : NodeName)
  | label (label : Label)
  | reference (ref : Reference)
  | propertyName (name : Spanned String)
  | value (value : Value)
  | cell (cell : Cell)
  | keyword (span : Span)

namespace Element

def span : Element → Span
  | statement s => s.span
  | name n => n.span
  | label l => l.span
  | reference ref => ref.span
  | propertyName n => n.span
  | value v => v.span
  | cell c => c.span
  | keyword span => span

/-- The written form; statements and keywords have none. -/
def text : Element → String
  | statement _ => ""
  | name n => n.value.text
  | label l => l.value
  | reference (.label ref) => ref.label
  | reference (.path ref) => ref.text
  | propertyName n => n.value
  | value v => v.text
  | cell c => c.text
  | keyword _ => ""

def ofBlockTarget : BlockTarget → Element
  | .root slash => keyword slash
  | .child n => name n
  | .reference ref => reference ref

def ofDeleteTarget : DeleteTarget → Element
  | .name n => name n
  | .reference ref => reference ref

/-- The direct parts of an element, in the order in which they are written. -/
def children : Element → List Element
  | statement (.block head body) =>
    head.labels.map label ++ ofBlockTarget head.target :: body.map statement
  | statement (.property p) => p.labels.map label ++ propertyName p.name :: p.values.map value
  | statement (.deleteNode d) => [keyword d.keyword, ofDeleteTarget d.target]
  | statement (.deleteProperty d) => [keyword d.keyword, propertyName d.name]
  | value (.cells cs _) => cs.map cell
  | value (.reference ref) => [reference ref]
  | cell (.reference ref) => [reference ref]
  | reference (.path ref) => ref.segments.map name
  | _ => []

theorem sizeOf_ofBlockTarget_le (t : BlockTarget) : sizeOf (ofBlockTarget t) ≤ sizeOf t := by
  cases t <;> simp [ofBlockTarget]

theorem sizeOf_ofDeleteTarget_le (t : DeleteTarget) : sizeOf (ofDeleteTarget t) ≤ sizeOf t := by
  cases t <;> simp [ofDeleteTarget]

theorem sizeOf_lt_of_mem_children {e c : Element} (h : c ∈ e.children) : sizeOf c < sizeOf e := by
  unfold children at h
  split at h
  · rename_i head body
    cases head
    simp only [List.mem_append, List.mem_map, List.mem_cons] at h
    rcases h with ⟨l, hl, rfl⟩ | rfl | ⟨s, hs, rfl⟩
    · have := List.sizeOf_lt_of_mem hl
      simp
      omega
    · rename_i target _
      have := sizeOf_ofBlockTarget_le target
      simp
      omega
    · have := List.sizeOf_lt_of_mem hs
      simp
      omega
  · rename_i p
    cases p
    simp only [List.mem_append, List.mem_map, List.mem_cons] at h
    rcases h with ⟨l, hl, rfl⟩ | rfl | ⟨v, hv, rfl⟩
    · have := List.sizeOf_lt_of_mem hl
      simp
      omega
    · simp
      omega
    · have := List.sizeOf_lt_of_mem hv
      simp
      omega
  · rename_i d
    cases d
    simp only [List.mem_cons, List.not_mem_nil, or_false] at h
    rcases h with rfl | rfl
    · simp
      omega
    · rename_i target _
      have := sizeOf_ofDeleteTarget_le target
      simp
      omega
  · rename_i d
    cases d
    simp only [List.mem_cons, List.not_mem_nil, or_false] at h
    rcases h with rfl | rfl <;> simp <;> omega
  · obtain ⟨d, hd, rfl⟩ := List.mem_map.mp h
    have := List.sizeOf_lt_of_mem hd
    simp
    omega
  · obtain rfl := List.mem_singleton.mp h
    simp
  · obtain rfl := List.mem_singleton.mp h
    simp
  · rename_i ref
    cases ref
    obtain ⟨n, hn, rfl⟩ := List.mem_map.mp h
    have := List.sizeOf_lt_of_mem hn
    simp at *
    omega
  · simp at h

/-- The last element of a list that covers a position. -/
def lastCovering? (file : FileId) (p : Position) (es : List Element) : Option Element :=
  es.reverse.find? (·.span.covers file p)

theorem mem_of_lastCovering? {file : FileId} {p : Position} {es : List Element} {e : Element}
    (h : lastCovering? file p es = some e) : e ∈ es :=
  List.mem_reverse.mp (List.mem_of_find?_eq_some h)

/-- An element and, below it, the chain of last children that cover a position. -/
def chain (file : FileId) (p : Position) (e : Element) : List Element :=
  e :: match h : lastCovering? file p e.children with
    | none => []
    | some child =>
      have := sizeOf_lt_of_mem_children (mem_of_lastCovering? h)
      child.chain file p
termination_by e

end Element

/-- The elements that cover a position, outermost first. -/
def SourceFile.ancestry (f : SourceFile) (p : Position) : List Element :=
  match Element.lastCovering? f.file p (f.statements.map .statement) with
  | none => []
  | some e => e.chain f.file p

end Devicetree
