import Devicetree.Proofs.Source.Elements
import Devicetree.Proofs.Source.Numbering

/-!
# Spans in the order of writing

Some of the spans in a statement are its own: those of its references, or of its labels. Those of
a block stand before its body. So if the own spans of each statement follow one another, then
those of a whole file do, listed statement by statement, and no two of them begin at one place.
-/

namespace Devicetree

/-- Where a span begins. -/
def Span.site (s : Span) : FileId × Nat :=
  (s.file, s.start)

namespace Span.Row

variable {file : FileId} {lo hi : Edge} {ss ts : List Span} {s : Span}

/-- Up to one of its spans a row is a row that ends there. -/
theorem up_to (h : Row file lo hi (ss ++ s :: ts)) : Row file lo s.last (ss ++ [s]) := by
  have hsub : (ss ++ [s]).Sublist (ss ++ s :: ts) :=
    (List.Sublist.refl ss).append (List.singleton_sublist.mpr List.mem_cons_self)
  have hs := h.within s (List.mem_append_right _ List.mem_cons_self)
  refine ⟨fun r hr => ?_, h.ordered.sublist hsub⟩
  have hwithin := h.within r (hsub.subset hr)
  rcases List.mem_append.mp hr with hr | hr
  · have hle := (List.pairwise_append.mp h.ordered).2.2 r hr s List.mem_cons_self
    exact ⟨hwithin.file_eq, hwithin.lo_le, hwithin.first_lt,
      Edge.le_trans hle (Edge.le_of_lt hs.first_lt)⟩
  · exact List.mem_singleton.mp hr ▸ hs.up_to_last

/-- What is not empty begins before all that follows. -/
theorem nodup_sites (h : Row file lo hi ss) : (ss.map site).Nodup := by
  refine List.pairwise_map.mpr (h.ordered.imp_of_mem ?_)
  rintro s t hs - hle heq
  have hlt : s.start < t.start := (Edge.lt_of_lt_of_le (h.within s hs).first_lt hle).1
  exact Nat.ne_of_lt hlt (congrArg Prod.snd heq)

end Span.Row

namespace Statement

/-- Spans of statements that follow one another, those of a block before its body. -/
structure Successive (own : Statement → List Span) : Prop where
  block : ∀ head body, (own (.block head body)).Sublist
    (head.labels.map (·.span) ++ [(Element.ofBlockTarget head.target).span])
  leaf : ∀ {s : Statement} {file : FileId} {text : Text}, s.isBlock = false →
    (Element.statement s).LaidOut file text → Span.Row file s.span.first s.span.last (own s)

namespace Successive

variable {own : Statement → List Span} {file : FileId} {text : Text}

mutual

/-- The own spans of a statement and of all below it follow one another between its ends. -/
theorem row_all (h : Successive own) : ∀ s : Statement, (Element.statement s).LaidOut file text →
    Span.Row file s.span.first s.span.last (s.all.flatMap own)
  | .block head body, hlaid => by
      obtain ⟨⟨-, hrow, -⟩, hparts⟩ := Element.laidOut_iff.mp hlaid
      have hbody : Element.Row file text head.span.first head.span.last
          (.ofBlockTarget head.target :: body.map .statement) :=
        Element.Row.of_sublist ⟨hrow, hparts⟩ (List.sublist_append_right _ _)
      have hwithin := hbody.within
      rw [Element.children, List.map_append, List.map_map] at hrow
      have hown := hrow.up_to.of_sublist (h.block head body)
      rw [all_block, List.flatMap_cons]
      exact hown.append (row_allIn h body hbody.tail) hwithin.lo_le_last hwithin.le_hi
  | .property p, hlaid => by
      rw [all_property, List.flatMap_singleton]
      exact h.leaf rfl hlaid
  | .deleteNode d, hlaid => by
      rw [all_deleteNode, List.flatMap_singleton]
      exact h.leaf rfl hlaid
  | .deleteProperty d, hlaid => by
      rw [all_deleteProperty, List.flatMap_singleton]
      exact h.leaf rfl hlaid

theorem row_allIn (h : Successive own) {lo hi : Edge} : ∀ ss : List Statement,
    Element.Row file text lo hi (ss.map .statement) →
      Span.Row file lo hi ((allIn ss).flatMap own)
  | [], _ => .nil
  | s :: ss, hrow => by
      have hs := (row_all h s hrow.head).mono hrow.within.lo_le (Edge.le_refl _)
      rw [allIn_cons, List.flatMap_append]
      exact hs.append (row_allIn h ss hrow.tail) hrow.within.lo_le_last hrow.within.le_hi

end

/-- The own spans of the statements of a file as read follow one another. -/
theorem row_read (h : Successive own) (file : FileId) (text : Text) :
    ∃ hi, Span.Row file Place.origin.edge hi
      ((allIn (SourceFile.read file text).statements).flatMap own) := by
  obtain ⟨hi, hrow⟩ := SourceFile.row_statements file text
  exact ⟨hi, h.row_allIn _ hrow⟩

end Successive

end Statement

end Devicetree
