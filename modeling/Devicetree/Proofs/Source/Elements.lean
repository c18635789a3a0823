import Devicetree.Proofs.Source.Layout

/-!
# The elements of a file

Numbering gives statements and references their numbers and moves nothing, so a file is laid out
as its statements were read. Every element of it can be traced back to the characters it was read
from.
-/

namespace Devicetree

namespace Element

variable {file : FileId} {text : Text} {e e' : Element} {es es' : List Element}

/-- An element that can stand for another one: it has the same span and is laid out as well. -/
structure StandsFor (file : FileId) (text : Text) (e' e : Element) : Prop where
  span_eq : e'.span = e.span
  laidOut : e.LaidOut file text → e'.LaidOut file text

theorem StandsFor.refl (e : Element) : StandsFor file text e e :=
  ⟨rfl, id⟩

theorem map_span_of_standsFor (h : List.Forall₂ (StandsFor file text) es' es) :
    es'.map span = es.map span := by
  induction h with
  | nil => rfl
  | cons hc _ ih => rw [List.map_cons, List.map_cons, hc.span_eq, ih]

theorem laidOut_of_standsFor (h : List.Forall₂ (StandsFor file text) es' es)
    (hes : ∀ e ∈ es, e.LaidOut file text) : ∀ e ∈ es', e.LaidOut file text := by
  induction h with
  | nil => exact List.forall_mem_nil _
  | cons hc _ ih =>
      obtain ⟨he, hes⟩ := List.forall_mem_cons.mp hes
      exact List.forall_mem_cons.mpr ⟨hc.laidOut he, ih hes⟩

theorem Row.of_standsFor {lo hi : Edge} (h : Row file text lo hi es)
    (hes : List.Forall₂ (StandsFor file text) es' es) : Row file text lo hi es' := by
  constructor
  · rw [map_span_of_standsFor hes]
    exact h.row
  · exact laidOut_of_standsFor hes h.laidOut

/-- An element stands for another one if its parts do. -/
theorem StandsFor.of_children (hspan : e'.span = e.span)
    (hchildren : List.Forall₂ (StandsFor file text) e'.children e.children)
    (hwritten : e.Written text → e'.Written text) : StandsFor file text e' e := by
  refine ⟨hspan, fun he => ?_⟩
  obtain ⟨hlaid, hparts⟩ := laidOut_iff.mp he
  refine laidOut_iff.mpr ⟨⟨?_, ?_, hwritten hlaid.written⟩, laidOut_of_standsFor hchildren hparts⟩
  · exact hspan ▸ hlaid.faithful
  · rw [hspan, map_span_of_standsFor hchildren]
    exact hlaid.row

theorem standsFor_withId (file : FileId) (text : Text) (id : AstId) (ref : Reference) :
    StandsFor file text (.reference (ref.withId id)) (.reference ref) := by
  cases ref with
  | label ref => exact .of_children rfl .nil fun _ => trivial
  | path ref =>
      exact .of_children rfl (List.forall₂_same.mpr fun c _ => .refl c) fun hwritten => hwritten

end Element

section Numbering

open Element (StandsFor standsFor_withId)

variable {text : Text} (file : FileId)

theorem Cell.standsFor_numberAll (next : Nat) (cs : List Cell) :
    List.Forall₂ (StandsFor file text) ((numberAll file next cs).1.map .cell) (cs.map .cell) := by
  induction cs generalizing next with
  | nil => exact .nil
  | cons c cs ih =>
      refine .cons ?_ (ih _)
      cases c with
      | number value => exact .refl _
      | symbol name => exact .refl _
      | reference ref =>
          have href := standsFor_withId file text ⟨file, next⟩ ref
          exact .of_children href.span_eq (.cons href .nil) fun _ => trivial

theorem Value.standsFor_number (next : Nat) (v : Value) :
    StandsFor file text (.value (v.number file next).1) (.value v) := by
  cases v with
  | string content => exact .refl _
  | bytes content => exact .refl _
  | cells cs span =>
      exact .of_children rfl (Cell.standsFor_numberAll file next cs) fun _ => trivial
  | reference ref =>
      have href := standsFor_withId file text ⟨file, next⟩ ref
      exact .of_children href.span_eq (.cons href .nil) fun _ => trivial

theorem Value.standsFor_numberAll (next : Nat) (vs : List Value) :
    List.Forall₂ (StandsFor file text) ((numberAll file next vs).1.map .value)
      (vs.map .value) := by
  induction vs generalizing next with
  | nil => exact .nil
  | cons v vs ih => exact .cons (v.standsFor_number file next) (ih _)

theorem BlockTarget.standsFor_number (next : Nat) (target : BlockTarget) :
    StandsFor file text (.ofBlockTarget (target.number file next).1)
      (.ofBlockTarget target) := by
  cases target with
  | root slash => exact .refl _
  | child name => exact .refl _
  | reference ref => exact standsFor_withId file text _ ref

theorem DeleteTarget.standsFor_number (next : Nat) (target : DeleteTarget) :
    StandsFor file text (.ofDeleteTarget (target.number file next).1)
      (.ofDeleteTarget target) := by
  cases target with
  | name name => exact .refl _
  | reference ref => exact standsFor_withId file text _ ref

namespace Statement

theorem standsFor_labels (labels : List Label) :
    List.Forall₂ (StandsFor file text) (labels.map .label) (labels.map .label) :=
  List.forall₂_same.mpr fun c _ => .refl c

mutual

/-- A numbered statement is laid out as it was before. -/
theorem standsFor_number (next : Nat) :
    ∀ s : Statement, StandsFor file text (.statement (number file next s).1) (.statement s)
  | .block head body => by
      apply StandsFor.of_children
      · rfl
      · simp only [number, Element.children]
        apply List.rel_append (standsFor_labels file head.labels)
        exact .cons (head.target.standsFor_number file (next + 1)) (standsFor_numberAll _ body)
      · exact fun _ => trivial
  | .property p => by
      apply StandsFor.of_children
      · rfl
      · simp only [number, Element.children]
        apply List.rel_append (standsFor_labels file p.labels)
        exact .cons (.refl _) (Value.standsFor_numberAll file (next + 1) p.values)
      · exact fun _ => trivial
  | .deleteNode d => by
      apply StandsFor.of_children
      · rfl
      · exact .cons (.refl _) (.cons (d.target.standsFor_number file (next + 1)) .nil)
      · exact fun _ => trivial
  | .deleteProperty d => by
      apply StandsFor.of_children
      · rfl
      · exact .cons (.refl _) (.cons (.refl _) .nil)
      · exact fun _ => trivial

theorem standsFor_numberAll (next : Nat) :
    ∀ ss : List Statement, List.Forall₂ (StandsFor file text)
      ((numberAll file next ss).1.map .statement) (ss.map .statement)
  | [] => .nil
  | s :: ss => by
      simp only [numberAll, List.map_cons]
      exact .cons (standsFor_number next s) (standsFor_numberAll _ ss)

end

end Statement

end Numbering

namespace SourceFile

/-- The elements of a file: its statements and all their parts. -/
def Holds (f : SourceFile) (e : Element) : Prop :=
  ∃ s ∈ f.statements, (Element.statement s).Holds e

/-- The statements of a file as read are laid out one after another. -/
theorem row_statements (file : FileId) (text : Text) :
    ∃ hi, Element.Row file text Place.origin.edge hi
      ((SourceFile.read file text).statements.map .statement) := by
  have hrun : Lexeme.Run file text Place.origin.edge
      ((Tokens.read file text).lexemes.filter fun l => !l.token.isTrivia) :=
    ⟨(Tokens.chain_read file text).filter _,
      fun l hl => Tokens.stands_read file text l (List.mem_filter.mp hl).1⟩
  obtain ⟨hi, -, hrow⟩ := lays_items _ hrun
  exact ⟨hi, hrow.of_standsFor (Statement.standsFor_numberAll file 0 _)⟩

/-- Every element of a file as read has a span of that file, which is not empty and whose ends lie
between characters of the text at the positions they say. The parts of an element lie in its span,
each after the one before, by bytes as well as by positions. A path reference has a segment for
each part of its path that is not empty, and the span of the segment cuts out that part. -/
theorem element_spans_faithful (file : FileId) (text : Text) {e : Element}
    (h : (SourceFile.read file text).Holds e) :
    e.span.Faithful file text ∧
      (∀ c ∈ e.children, e.span.first ≤ c.span.first ∧ c.span.last ≤ e.span.last) ∧
      (e.children.Pairwise fun c d => c.span.last ≤ d.span.first) ∧
      e.Written text := by
  obtain ⟨s, hs, he⟩ := h
  obtain ⟨hi, hstatements⟩ := row_statements file text
  have hlaid := hstatements.laidOut _ (List.mem_map_of_mem hs)
  obtain ⟨hfaithful, hrow, hwritten⟩ := hlaid e he
  refine ⟨hfaithful, fun c hc => ?_, List.pairwise_map.mp hrow.ordered, hwritten⟩
  have hwithin := hrow.within c.span (List.mem_map_of_mem hc)
  exact ⟨hwithin.lo_le, hwithin.le_hi⟩

/-- A path on the second line, with a character of two bytes before it and one in it. -/
def accentedPath : Text :=
  "// é\n/ \x7b a = &\x7b/sé/u@1\x7d; \x7d;".toList

theorem accentedPath_spans_faithful :
    ∃ e, (SourceFile.read ⟨0⟩ accentedPath).Holds e ∧
      e.children.map Element.span =
        [⟨⟨0⟩, 17, 20, ⟨1, 11⟩, ⟨1, 13⟩⟩, ⟨⟨0⟩, 21, 24, ⟨1, 14⟩, ⟨1, 17⟩⟩] ∧
      e.span.Faithful ⟨0⟩ accentedPath ∧
      (∀ c ∈ e.children, e.span.first ≤ c.span.first ∧ c.span.last ≤ e.span.last) ∧
      (e.children.Pairwise fun c d => c.span.last ≤ d.span.first) ∧
      e.Written accentedPath := by
  have hpath : ∃ s ∈ (SourceFile.read ⟨0⟩ accentedPath).statements,
      ∃ p ∈ (Element.statement s).children, ∃ v ∈ p.children, ∃ e ∈ v.children,
        e.children.map Element.span =
          [⟨⟨0⟩, 17, 20, ⟨1, 11⟩, ⟨1, 13⟩⟩, ⟨⟨0⟩, 21, 24, ⟨1, 14⟩, ⟨1, 17⟩⟩] := by
    decide +kernel
  obtain ⟨s, hs, p, hp, v, hv, e, he, hspans⟩ := hpath
  have hholds : (SourceFile.read ⟨0⟩ accentedPath).Holds e :=
    ⟨s, hs, .tail (.tail (.tail .refl hp) hv) he⟩
  exact ⟨e, hholds, hspans, element_spans_faithful ⟨0⟩ accentedPath hholds⟩

end SourceFile

end Devicetree
