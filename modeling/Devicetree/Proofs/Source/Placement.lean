import Devicetree.Proofs.Source.Elements

/-!
# Where statements stand

A statement as read goes from the first of its lexemes to the last, and everything written in
it lies between. The statements at the top level of a file follow one another. Both hold for
every text, whatever had to be skipped on the way.
-/

namespace Devicetree

namespace Statement

mutual

/-- The spans of a statement and of all below it, those of node labels included. -/
def spans : Statement → List Span
  | .block head body => head.span :: head.labels.map (·.span) ++ spansAll body
  | .property p => [p.span]
  | .deleteNode d => [d.span]
  | .deleteProperty d => [d.span]

def spansAll : List Statement → List Span
  | [] => []
  | s :: ss => spans s ++ spansAll ss

end

/-- A statement that goes from one edge to another. -/
structure Placed (file : FileId) (lo hi : Edge) (s : Statement) : Prop where
  file_eq : s.span.file = file
  first_eq : s.span.first = lo
  last_eq : s.span.last = hi
  spans_within : ∀ t ∈ s.spans, t.Within file lo hi

theorem span_mem_spans (s : Statement) : s.span ∈ s.spans := by
  cases s <;> simp [spans, span]

theorem Placed.lo_lt {file : FileId} {lo hi : Edge} {s : Statement} (h : s.Placed file lo hi) :
    lo < hi :=
  (h.spans_within _ s.span_mem_spans).lo_lt

/-- Statements of a file that follow one another from an edge on. -/
def InOrder (file : FileId) : Edge → List Statement → Prop
  | _, [] => True
  | lo, s :: ss =>
    lo ≤ s.span.first ∧ s.Placed file s.span.first s.span.last ∧ InOrder file s.span.last ss

section LaidOut

variable {file : FileId} {text : Text}

mutual

/-- What is written in a statement that is laid out lies between its ends. -/
theorem within_of_mem_spans : ∀ s : Statement, (Element.statement s).LaidOut file text →
    ∀ t ∈ s.spans, t.Within file s.span.first s.span.last
  | .block head body, h => by
      obtain ⟨⟨hfaithful, hrow, -⟩, hparts⟩ := Element.laidOut_iff.mp h
      have hbody : (body.map Element.statement).Sublist
          (Element.statement (.block head body)).children :=
        (List.sublist_cons_self _ _).trans (List.sublist_append_right _ _)
      intro t ht
      rw [spans, List.cons_append, List.mem_cons, List.mem_append, List.mem_map] at ht
      rcases ht with rfl | ⟨label, hm, rfl⟩ | ht
      · exact hfaithful.within
      · apply hrow.within
        rw [Element.children, List.map_append]
        exact List.mem_append_left _ (List.mem_map_of_mem (List.mem_map_of_mem hm))
      · exact within_of_mem_spansAll body (Element.Row.of_sublist ⟨hrow, hparts⟩ hbody) t ht
  | .property p, h => fun _ ht => by
      rw [List.mem_singleton.mp ht]
      exact (h _ .refl).faithful.within
  | .deleteNode d, h => fun _ ht => by
      rw [List.mem_singleton.mp ht]
      exact (h _ .refl).faithful.within
  | .deleteProperty d, h => fun _ ht => by
      rw [List.mem_singleton.mp ht]
      exact (h _ .refl).faithful.within

theorem within_of_mem_spansAll {lo hi : Edge} : ∀ ss : List Statement,
    Element.Row file text lo hi (ss.map .statement) → ∀ t ∈ spansAll ss, t.Within file lo hi
  | [], _ => List.forall_mem_nil _
  | s :: ss, h => by
      intro t ht
      rcases List.mem_append.mp ht with ht | ht
      · exact (within_of_mem_spans s h.head t ht).mono h.within.lo_le h.within.le_hi
      · exact (within_of_mem_spansAll ss h.tail t ht).mono h.within.lo_le_last (Edge.le_refl _)

end

theorem inOrder_of_row {lo hi : Edge} {ss : List Statement}
    (h : Element.Row file text lo hi (ss.map .statement)) : InOrder file lo ss := by
  induction ss generalizing lo with
  | nil => trivial
  | cons s ss ih =>
      have hspans := within_of_mem_spans s h.head
      exact ⟨h.within.lo_le, ⟨h.within.file_eq, rfl, rfl, hspans⟩, ih h.tail⟩

end LaidOut

end Statement

/-- The statements of a file as read follow one another, each from its first lexeme to its
last. -/
theorem SourceFile.inOrder_read (file : FileId) (text : Text) :
    Statement.InOrder file Place.origin.edge (SourceFile.read file text).statements := by
  obtain ⟨hi, hrow⟩ := SourceFile.row_statements file text
  exact Statement.inOrder_of_row hrow

end Devicetree
