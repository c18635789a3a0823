import Mathlib.Data.List.Forall2
import Devicetree.Proofs.Token.Verbatim

/-!
# The segments of a path

A path reference stands on one line, and its segments are the parts of the path between slashes
that are not empty. Each segment has the span of the characters that its name was read from,
counted from the beginning of the file, whatever characters come before it.
-/

namespace Devicetree

/-- A name that was read from some characters, which its span cuts out of the text. -/
def NodeName.IsReadFrom (text part : Text) (name : NodeName) : Prop :=
  name.value = UnitName.read (String.ofList part) ∧
    text.slice? name.span.start name.span.stop = some part

/-- Names that were read from parts of a text, one after another between two edges. -/
structure NodeName.Lined (file : FileId) (text : Text) (lo hi : Edge) (parts : List Text)
    (names : List NodeName) : Prop where
  read : List.Forall₂ (NodeName.IsReadFrom text) parts names
  faithful : ∀ name ∈ names, name.span.Faithful file text
  row : Span.Row file lo hi (names.map (·.span))

namespace NodeName.Lined

variable {file : FileId} {text : Text} {lo lo' hi : Edge} {parts : List Text}
  {names : List NodeName}

theorem nil : Lined file text lo hi [] [] :=
  ⟨.nil, List.forall_mem_nil _, .nil⟩

theorem mono (h : Lined file text lo hi parts names) (hlo : lo' ≤ lo) :
    Lined file text lo' hi parts names :=
  ⟨h.read, h.faithful, h.row.mono hlo (Edge.le_refl _)⟩

/-- One more name, read from characters that stand before the others. -/
theorem cons {before part after : Text}
    (h : Lined file (before ++ part ++ after) (Place.origin.walk (before ++ part)).edge hi parts
      names)
    (hpart : part ≠ []) (hhi : (Place.origin.walk (before ++ part)).edge ≤ hi) :
    Lined file (before ++ part ++ after) (Place.origin.walk before).edge hi (part :: parts)
      (⟨UnitName.read (String.ofList part), Text.spanOf file before part⟩ :: names) := by
  have hwithin := Text.within_spanOf file before hpart
  constructor
  · exact .cons ⟨rfl, Text.slice?_spanOf file before part after⟩ h.read
  · exact List.forall_mem_cons.mpr ⟨Text.faithful_spanOf file before part after hpart, h.faithful⟩
  · exact (Span.Row.one hwithin).append h.row (Edge.le_of_lt hwithin.lo_lt) hhi

end NodeName.Lined

namespace PathRef

variable (file : FileId) (before after : Text) {whole : Text}

/-- A segment is left out if it is empty, and otherwise stands before those that follow it. -/
theorem lined_segmentsFrom_cons (hline : '\n' ∉ whole) {a segment b : Text}
    (hwhole : whole = a ++ segment ++ b) {rest : List Text}
    (hrest : NodeName.Lined file (before ++ whole ++ after)
      (Place.origin.walk (before ++ a ++ segment)).edge (Place.origin.walk (before ++ whole)).edge
      (rest.filter (!·.isEmpty))
      (segmentsFrom (Text.spanOf file before whole) whole ((a ++ segment).size + 1) rest)) :
    NodeName.Lined file (before ++ whole ++ after) (Place.origin.walk (before ++ a)).edge
      (Place.origin.walk (before ++ whole)).edge ((segment :: rest).filter (!·.isEmpty))
      (segmentsFrom (Text.spanOf file before whole) whole a.size (segment :: rest)) := by
  subst hwhole
  have hlo : (Place.origin.walk (before ++ a)).edge ≤
      (Place.origin.walk (before ++ a ++ segment)).edge := by
    rw [Place.walk_append _ (before ++ a)]
    exact Place.le_walk _ _
  have hhi : (Place.origin.walk (before ++ a ++ segment)).edge ≤
      (Place.origin.walk (before ++ (a ++ segment ++ b))).edge := by
    rw [← List.append_assoc, ← List.append_assoc, Place.walk_append _ (before ++ a ++ segment)]
    exact Place.le_walk _ _
  have hsplit : before ++ (a ++ segment ++ b) ++ after =
      before ++ a ++ segment ++ (b ++ after) := by
    simp only [List.append_assoc]
  rw [segmentsFrom, ← Text.size_append]
  by_cases hempty : segment = []
  · subst hempty
    exact hrest.mono hlo
  · have hfalse : segment.isEmpty = false := List.isEmpty_eq_false_iff.mpr hempty
    rw [List.filter_cons_of_pos (by simp [hfalse]), hfalse, Text.part_spanOf file before hline]
    rw [hsplit] at hrest ⊢
    exact hrest.cons hempty hhi

/-- The segments of a path after some of it has been passed. -/
theorem lined_segmentsFrom (hline : '\n' ∉ whole) {a segment b : Text} {rest : List Text}
    (hwhole : whole = a ++ segment ++ rest.flatMap ('/' :: ·) ++ b) :
    NodeName.Lined file (before ++ whole ++ after) (Place.origin.walk (before ++ a)).edge
      (Place.origin.walk (before ++ whole)).edge ((segment :: rest).filter (!·.isEmpty))
      (segmentsFrom (Text.spanOf file before whole) whole a.size (segment :: rest)) := by
  induction rest generalizing a segment with
  | nil =>
      apply lined_segmentsFrom_cons file before after hline (b := b)
      · rw [hwhole, List.flatMap_nil, List.append_nil]
      · exact .nil
  | cons next rest ih =>
      apply lined_segmentsFrom_cons file before after hline
        (b := '/' :: next ++ rest.flatMap ('/' :: ·) ++ b)
      · rw [hwhole, List.flatMap_cons]
        simp only [List.append_assoc]
      · have hpassed : whole = a ++ segment ++ ['/'] ++ next ++ rest.flatMap ('/' :: ·) ++ b := by
          rw [hwhole, List.flatMap_cons]
          simp only [List.append_assoc, List.cons_append, List.nil_append]
        have hnext := ih hpassed
        have hsize : (a ++ segment ++ ['/']).size = (a ++ segment).size + 1 := by
          rw [Text.size_append]
          rfl
        rw [hsize] at hnext
        apply hnext.mono
        rw [← List.append_assoc, ← List.append_assoc, Place.walk_append _ (before ++ a ++ segment)]
        exact Place.le_walk _ _

/-- A reference that is written `&{path}`, with a segment for each part of the path between
slashes that is not empty. -/
def Written (text : Text) (ref : PathRef) : Prop :=
  ∃ path : Text,
    text.slice? ref.span.start ref.span.stop = some (['&', '\x7b'] ++ path ++ ['\x7d']) ∧
    List.Forall₂ (NodeName.IsReadFrom text) ((path.splitOn '/').filter (!·.isEmpty)) ref.segments

/-- A path reference is read where it is written, and its segments stand in it. -/
theorem lined_read {file : FileId} {text : Text} {l : Lexeme} (hl : l.Stands file text)
    {path : String} (hpath : l.token = .pathRef path) :
    (PathRef.read path l.span).Written text ∧
      (∀ name ∈ (PathRef.read path l.span).segments, name.span.Faithful file text) ∧
      Span.Row file l.span.first l.span.last
        ((PathRef.read path l.span).segments.map (·.span)) := by
  obtain ⟨hspelled, before, whole, after, rfl, -, hspan, hwhole⟩ := hl
  rw [hpath, Token.toList_text_pathRef] at hwhole
  rw [hpath] at hspelled
  have hwhole := hwhole rfl
  have hline : '\n' ∉ whole := by
    rw [hwhole]
    simp only [List.mem_append, List.mem_cons, List.not_mem_nil, or_false, not_or]
    exact ⟨⟨by decide, fun h => (hspelled _ h).2 rfl⟩, by decide⟩
  obtain ⟨segment, rest, hsplit⟩ := List.exists_cons_of_ne_nil
    (List.splitOn_ne_nil '/' path.toList)
  have hsegments : path.toList = segment ++ rest.flatMap ('/' :: ·) := by
    have hjoin := cons_intercalate '/' segment rest
    rw [← hsplit, List.intercalate_splitOn, hsplit, List.flatMap_cons, List.cons_append] at hjoin
    exact (List.cons.inj hjoin).2
  have hparts : whole = ['&', '\x7b'] ++ segment ++ rest.flatMap ('/' :: ·) ++ ['\x7d'] := by
    rw [hwhole, hsegments]
    simp only [List.append_assoc]
  have hlined := lined_segmentsFrom file before after hline hparts
  have hread : (PathRef.read path l.span).segments =
      segmentsFrom (Text.spanOf file before whole) whole 2 (segment :: rest) := by
    rw [PathRef.read, Token.toList_text_pathRef, ← hwhole, hspan, hsplit]
  refine ⟨⟨path.toList, ?_, ?_⟩, ?_, ?_⟩
  · rw [← hwhole]
    exact hspan ▸ Text.slice?_spanOf file before whole after
  · rw [hread, hsplit]
    exact hlined.read
  · rw [hread]
    exact hlined.faithful
  · rw [hread, hspan]
    refine hlined.row.mono ?_ (Edge.le_refl _)
    rw [Place.walk_append]
    exact Place.le_walk _ _

end PathRef

end Devicetree
