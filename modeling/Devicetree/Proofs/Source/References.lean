import Devicetree.Proofs.Source.Traversal

/-!
# Where references stand

The references of a file, listed in the order of writing, follow one another: none is empty,
and none begins before the one before it has ended. So no two of them share a span, and a span
tells which reference is meant.
-/

namespace Devicetree

def BlockTarget.references : BlockTarget → List Reference
  | .reference ref => [ref]
  | _ => []

/-- The spans of the references in a value. -/
def Value.referenceSpans (v : Value) : List Span :=
  v.references.map (·.span)

def Value.referenceSpansIn (vs : List Value) : List Span :=
  (vs.flatMap references).map (·.span)

@[simp] theorem Statement.references_block (head : BlockHead) (body : List Statement) :
    (block head body).references = head.target.references := by
  obtain ⟨id, labels, target, span⟩ := head
  cases target <;> rfl

section LaidOut

variable {file : FileId} {text : Text}

theorem Cell.referenceSpans_sublist (cs : List Cell) :
    ((cs.filterMap reference?).map (·.span)).Sublist (cs.map span) := by
  induction cs with
  | nil => exact .slnil
  | cons c cs ih =>
      cases c with
      | number value => exact ih.cons _
      | symbol name => exact ih.cons _
      | reference ref => exact ih.cons_cons _

theorem Value.row_references {v : Value} (h : (Element.value v).LaidOut file text) :
    Span.Row file v.span.first v.span.last v.referenceSpans := by
  obtain ⟨hfaithful, hrow, -⟩ := h _ .refl
  cases v with
  | string content => exact .nil
  | bytes content => exact .nil
  | reference ref => exact .one hfaithful.within
  | cells cs span =>
      rw [Element.children, List.map_map] at hrow
      exact hrow.of_sublist (Cell.referenceSpans_sublist cs)

theorem Value.row_referencesIn {lo hi : Edge} {vs : List Value}
    (h : Element.Row file text lo hi (vs.map .value)) :
    Span.Row file lo hi (referenceSpansIn vs) := by
  induction vs generalizing lo with
  | nil => exact .nil
  | cons v vs ih =>
      have hv := (row_references h.head).mono h.within.lo_le (Edge.le_refl _)
      rw [referenceSpansIn, List.flatMap_cons, List.map_append]
      exact hv.append (ih h.tail) h.within.lo_le_last h.within.le_hi

end LaidOut

/-- The references of statements follow one another. -/
theorem Statement.successive_references : Successive fun s => s.references.map (·.span) where
  block head body := by
    rw [references_block]
    refine List.Sublist.trans ?_ (List.sublist_append_right _ _)
    cases head.target with
    | reference ref => exact List.Sublist.refl _
    | _ => exact List.nil_sublist _
  leaf {s file text} hs hlaid := by
    obtain ⟨⟨-, hrow, -⟩, hparts⟩ := Element.laidOut_iff.mp hlaid
    cases s with
    | block head body => cases hs
    | property p =>
        have hvalues : (p.values.map Element.value).Sublist
            (Element.statement (.property p)).children :=
          (List.sublist_cons_self _ _).trans (List.sublist_append_right _ _)
        exact Value.row_referencesIn (Element.Row.of_sublist ⟨hrow, hparts⟩ hvalues)
    | deleteNode delete =>
        obtain ⟨id, keyword, target, span⟩ := delete
        cases target with
        | name name => exact .nil
        | reference ref => exact hrow.of_sublist (List.sublist_cons_self _ _)
    | deleteProperty delete => exact .nil

end Devicetree
