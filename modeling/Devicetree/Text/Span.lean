import Devicetree.Text.Position

/-!
# Spans

A span is a half-open byte range of one file together with the positions of its two ends.
Byte offsets serve slicing; positions serve every comparison of places.
-/

namespace Devicetree

/-- A byte range of one file and the positions of its ends; `stop` is exclusive. -/
structure Span where
  file : FileId
  start : Nat
  stop : Nat
  startPos : Position
  stopPos : Position
deriving DecidableEq, Repr, Inhabited

namespace Span

/-- The empty span at the beginning of the first file. -/
def origin : Span := ⟨⟨0⟩, 0, 0, Position.origin, Position.origin⟩

/-- Number of bytes. -/
def length (s : Span) : Nat :=
  s.stop - s.start

def isEmpty (s : Span) : Bool :=
  s.start == s.stop

/-- The smallest span holding both; the file is that of the first. -/
def union (s t : Span) : Span :=
  let (start, startPos) :=
    if t.start < s.start then (t.start, t.startPos) else (s.start, s.startPos)
  let (stop, stopPos) := if s.stop < t.stop then (t.stop, t.stopPos) else (s.stop, s.stopPos)
  ⟨s.file, start, stop, startPos, stopPos⟩

/-- Whether a position of a file lies in the span, both ends included. -/
def covers (s : Span) (file : FileId) (p : Position) : Bool :=
  s.file == file && decide (s.startPos ≤ p) && decide (p ≤ s.stopPos)

/-- The written form `file#0:line:column` of the first character. -/
def text (s : Span) : String :=
  s.file.text ++ ":" ++ s.startPos.text

theorem covers_iff {s : Span} {file : FileId} {p : Position} :
    s.covers file p = true ↔ s.file = file ∧ s.startPos ≤ p ∧ p ≤ s.stopPos := by
  simp [covers, and_assoc]

end Span

/-- A value and the span it was read from. -/
structure Spanned (α : Type) where
  value : α
  span : Span
deriving DecidableEq, Repr

/-- A place of a syntax tree seen from outside: a position of one file. -/
structure Cursor where
  file : FileId
  position : Position
deriving DecidableEq, Repr

end Devicetree
