import Devicetree.Text.Span

/-!
# Walking a text

A text is a list of characters; its offsets count UTF-8 bytes. A place is where a walk over
a text stands. Every conversion between offsets and positions is such a walk, so a reader
that moves along a text needs no table of lines.
-/

namespace Devicetree

abbrev Text := List Char

/-- Number of UTF-8 bytes. -/
def Text.size : Text → Nat
  | [] => 0
  | c :: rest => c.utf8Size + Text.size rest

@[simp] theorem Text.size_nil : Text.size [] = 0 := rfl

@[simp] theorem Text.size_cons (c : Char) (rest : Text) :
    Text.size (c :: rest) = c.utf8Size + Text.size rest := rfl

@[simp] theorem Text.size_append (s t : Text) : Text.size (s ++ t) = Text.size s + Text.size t := by
  induction s with
  | nil => simp
  | cons c s ih => simp [ih, Nat.add_assoc]

theorem Text.length_le_size (cs : Text) : cs.length ≤ Text.size cs := by
  induction cs with
  | nil => exact Nat.le_refl _
  | cons c cs ih =>
      have hc := c.utf8Size_pos
      rw [List.length_cons, Text.size_cons]
      omega

theorem Text.utf8ByteSize_ofList (cs : Text) : (String.ofList cs).utf8ByteSize = Text.size cs := by
  induction cs with
  | nil => rfl
  | cons c cs ih =>
      rw [String.ofList_cons, String.utf8ByteSize_append, String.utf8ByteSize_singleton, ih,
        Text.size_cons]

/-- Where a walk stands: bytes passed, position, and the offset at which the line began. -/
structure Place where
  offset : Nat
  position : Position
  lineStart : Nat
deriving DecidableEq, Repr

namespace Place

/-- Before the first character. -/
def origin : Place := ⟨0, Position.origin, 0⟩

/-- Past one more character. A newline opens the next line. -/
def step (p : Place) (c : Char) : Place :=
  let offset := p.offset + c.utf8Size
  if c = '\n' then ⟨offset, ⟨p.position.line + 1, 0⟩, offset⟩
  else ⟨offset, ⟨p.position.line, p.position.column + 1⟩, p.lineStart⟩

/-- Past all characters of a text. -/
def walk (p : Place) (cs : Text) : Place :=
  cs.foldl step p

@[simp] theorem walk_nil (p : Place) : p.walk [] = p := rfl

@[simp] theorem walk_cons (p : Place) (c : Char) (cs : Text) :
    p.walk (c :: cs) = (p.step c).walk cs := rfl

theorem walk_append (p : Place) (s t : Text) : p.walk (s ++ t) = (p.walk s).walk t := by
  simp [walk, List.foldl_append]

@[simp] theorem step_offset (p : Place) (c : Char) :
    (p.step c).offset = p.offset + c.utf8Size := by
  unfold step
  split <;> rfl

theorem walk_offset (p : Place) (cs : Text) : (p.walk cs).offset = p.offset + cs.size := by
  induction cs generalizing p with
  | nil => rfl
  | cons c cs ih => simp [ih, Nat.add_assoc]

/-- The position of an offset at or after the place, in the text that follows it. An offset
inside a character counts its column in bytes, and one past the text is that of its end. -/
def positionOf (p : Place) (offset : Nat) : Text → Position
  | [] => p.position
  | c :: cs =>
    if p.offset + c.utf8Size ≤ offset then (p.step c).positionOf offset cs
    else if p.offset < offset then ⟨p.position.line, offset - p.lineStart⟩
    else p.position

/-- The last offset at or after the place whose position does not exceed the given one. -/
def offsetOf (p : Place) (position : Position) : Text → Nat
  | [] => p.offset
  | c :: cs => if (p.step c).position ≤ position then (p.step c).offsetOf position cs else p.offset

/-- The span between two places of one walk. -/
def spanTo (start stop : Place) (file : FileId) : Span :=
  ⟨file, start.offset, stop.offset, start.position, stop.position⟩

end Place

namespace Text

/-- The position of a byte offset. -/
def position (text : Text) (offset : Nat) : Position :=
  Place.origin.positionOf offset text

/-- The byte offset of a position, clamped to the end of its line and of the text. -/
def offset (text : Text) (position : Position) : Nat :=
  Place.origin.offsetOf position text

/-- The span of a byte range. The range itself is kept as given. -/
def span (text : Text) (file : FileId) (start stop : Nat) : Span :=
  ⟨file, start, stop, text.position start, text.position stop⟩

/-- Number of characters in the first `n` bytes, if a character ends there. -/
def charsIn? : Text → Nat → Option Nat
  | _, 0 => some 0
  | [], _ + 1 => none
  | c :: cs, n + 1 =>
    if c.utf8Size ≤ n + 1 then (charsIn? cs (n + 1 - c.utf8Size)).map (· + 1) else none

/-- The text without its first `n` bytes, if a character begins there. -/
def dropBytes? : Text → Nat → Option Text
  | cs, 0 => some cs
  | [], _ + 1 => none
  | c :: cs, n + 1 => if c.utf8Size ≤ n + 1 then dropBytes? cs (n + 1 - c.utf8Size) else none

/-- The text of a byte range whose ends fall between characters. -/
def slice? (text : Text) (start stop : Nat) : Option Text := do
  let rest ← text.dropBytes? start
  let count ← charsIn? rest (stop - start)
  return rest.take count

end Text

/-- The part of a one-line span given by a byte range of its text. An end that falls inside
a character, or past the text, counts its column in bytes. -/
def Span.part (s : Span) (text : Text) (start stop : Nat) : Span :=
  let column (offset : Nat) : Position :=
    ⟨s.startPos.line, s.startPos.column + (text.charsIn? offset).getD offset⟩
  ⟨s.file, s.start + start, s.start + stop, column start, column stop⟩

end Devicetree
