import Devicetree.Text.Place

/-!
# Offsets between characters

A walk over the beginning of a text stops between two of its characters. The offset reached there
has the position that the walk has, and between two such offsets the text can be cut out. A span
is faithful to a text if its ends are such offsets with their own positions.
-/

namespace Devicetree

namespace Text

/-- An offset at which no character is cut in two. -/
def IsBoundary (text : Text) (offset : Nat) : Prop :=
  ∃ before after, text = before ++ after ∧ before.size = offset

theorem IsBoundary.le_size {text : Text} {offset : Nat} (h : text.IsBoundary offset) :
    offset ≤ text.size := by
  obtain ⟨before, after, rfl, rfl⟩ := h
  rw [size_append]
  exact Nat.le_add_right _ _

theorem size_pos {text : Text} (h : text ≠ []) : 0 < text.size := by
  obtain ⟨c, rest, rfl⟩ := List.exists_cons_of_ne_nil h
  exact Nat.lt_of_lt_of_le c.utf8Size_pos (Nat.le_add_right _ _)

/-! ### Cutting -/

/-- A text in three parts, the second of which has so many characters, if there are as many. -/
theorem append_split (before cs : Text) (count : Nat) :
    before ++ cs = before ++ cs.take count ++ cs.drop count := by
  rw [List.append_assoc, List.take_append_drop]

theorem dropBytes?_cons (c : Char) (cs : Text) (n : Nat) :
    dropBytes? (c :: cs) (c.utf8Size + n) = dropBytes? cs n := by
  obtain ⟨m, hm⟩ := Nat.exists_eq_succ_of_ne_zero (Nat.ne_of_gt c.utf8Size_pos)
  have hsum : c.utf8Size + n = m + n + 1 := by omega
  have hrest : m + n + 1 - c.utf8Size = n := by omega
  rw [hsum, dropBytes?, if_pos (by omega), hrest]

theorem charsIn?_cons (c : Char) (cs : Text) (n : Nat) :
    charsIn? (c :: cs) (c.utf8Size + n) = (charsIn? cs n).map (· + 1) := by
  obtain ⟨m, hm⟩ := Nat.exists_eq_succ_of_ne_zero (Nat.ne_of_gt c.utf8Size_pos)
  have hsum : c.utf8Size + n = m + n + 1 := by omega
  have hrest : m + n + 1 - c.utf8Size = n := by omega
  rw [hsum, charsIn?, if_pos (by omega), hrest]

theorem dropBytes?_append (before after : Text) :
    (before ++ after).dropBytes? before.size = some after := by
  induction before with
  | nil =>
      rw [List.nil_append, size_nil]
      cases after <;> rfl
  | cons c before ih => rw [List.cons_append, size_cons, dropBytes?_cons, ih]

theorem charsIn?_append (before after : Text) :
    (before ++ after).charsIn? before.size = some before.length := by
  induction before with
  | nil =>
      rw [List.nil_append, size_nil]
      cases after <;> rfl
  | cons c before ih =>
      rw [List.cons_append, size_cons, charsIn?_cons, ih]
      rfl

theorem slice?_append (before cs after : Text) :
    (before ++ cs ++ after).slice? before.size (before ++ cs).size = some cs := by
  have hlength : (before ++ cs).size - before.size = cs.size := by
    rw [size_append]
    omega
  rw [slice?, List.append_assoc, dropBytes?_append, hlength, Option.bind_eq_bind,
    Option.bind_some, charsIn?_append]
  exact congrArg some List.take_left

end Text

/-! ### Positions along a walk -/

namespace Place

variable (p : Place)

/-- The offset that a walk has reached has the position that the walk has. -/
theorem positionOf_walk (cs rest : Text) :
    p.positionOf (p.walk cs).offset (cs ++ rest) = (p.walk cs).position := by
  induction cs generalizing p with
  | nil =>
      rw [walk_nil, List.nil_append]
      cases rest with
      | nil => rfl
      | cons c rest =>
          have hc := c.utf8Size_pos
          rw [positionOf, if_neg (by omega), if_neg (Nat.lt_irrefl _)]
  | cons c cs ih =>
      have hpast : p.offset + c.utf8Size ≤ ((p.step c).walk cs).offset := by
        rw [walk_offset, step_offset]
        exact Nat.le_add_right _ _
      rw [walk_cons, List.cons_append, positionOf, if_pos hpast, ih]

/-- Without a newline a walk stays on its line. -/
theorem walk_position_of_line {cs : Text} (h : '\n' ∉ cs) :
    (p.walk cs).position = ⟨p.position.line, p.position.column + cs.length⟩ := by
  induction cs generalizing p with
  | nil => rfl
  | cons c cs ih =>
      have hc : c ≠ '\n' := (List.ne_of_not_mem_cons h).symm
      have hcs : '\n' ∉ cs := List.not_mem_of_not_mem_cons h
      have hstep : (p.step c).position = ⟨p.position.line, p.position.column + 1⟩ := by
        rw [step, if_neg hc]
      calc ((p.step c).walk cs).position
          = ⟨(p.step c).position.line, (p.step c).position.column + cs.length⟩ := ih _ hcs
        _ = ⟨p.position.line, p.position.column + 1 + cs.length⟩ := by rw [hstep]
        _ = ⟨p.position.line, p.position.column + (c :: cs).length⟩ := by
              rw [List.length_cons, Nat.add_assoc, Nat.add_comm 1]

theorem part_spanTo (file : FileId) {a b c : Text} (hline : '\n' ∉ a ++ b ++ c) :
    (p.spanTo (p.walk (a ++ b ++ c)) file).part (a ++ b ++ c) a.size (a ++ b).size =
      (p.walk a).spanTo (p.walk (a ++ b)) file := by
  have hab : '\n' ∉ a ++ b := fun h => hline (List.mem_append_left _ h)
  have ha : '\n' ∉ a := fun h => hab (List.mem_append_left _ h)
  have hfirst : (a ++ b ++ c).charsIn? a.size = some a.length := by
    rw [List.append_assoc]
    exact Text.charsIn?_append a (b ++ c)
  simp only [Span.part, spanTo, hfirst, Text.charsIn?_append, Option.getD_some, walk_offset,
    walk_position_of_line _ ha, walk_position_of_line _ hab]

end Place

/-- From the beginning of a text a walk has passed the bytes that it went over. -/
theorem Place.offset_origin_walk (cs : Text) : (origin.walk cs).offset = cs.size := by
  rw [walk_offset]
  exact Nat.zero_add _

theorem Text.position_append (before after : Text) :
    (before ++ after).position before.size = (Place.origin.walk before).position := by
  rw [Text.position, ← Place.offset_origin_walk]
  exact Place.origin.positionOf_walk before after

/-! ### Faithful spans -/

namespace Span

/-- A span of a file that says where some characters of its text stand. -/
structure Faithful (file : FileId) (text : Text) (s : Span) : Prop where
  file_eq : s.file = file
  start_lt : s.start < s.stop
  stop_le : s.stop ≤ text.size
  start_boundary : text.IsBoundary s.start
  stop_boundary : text.IsBoundary s.stop
  startPos_eq : s.startPos = text.position s.start
  stopPos_eq : s.stopPos = text.position s.stop

namespace Faithful

variable {file : FileId} {text : Text} {s t : Span}

theorem union (hs : s.Faithful file text) (ht : t.Faithful file text) (hst : s.stop ≤ t.start) :
    (s.union t).Faithful file text := by
  have hstart : ¬ t.start < s.start := by
    have := hs.start_lt
    omega
  have hstop : s.stop < t.stop := Nat.lt_of_le_of_lt hst ht.start_lt
  rw [Span.union, if_neg hstart, if_pos hstop]
  exact ⟨hs.file_eq, Nat.lt_trans hs.start_lt hstop, ht.stop_le, hs.start_boundary,
    ht.stop_boundary, hs.startPos_eq, ht.stopPos_eq⟩

end Faithful

end Span

/-- The span of some characters, given what stands before them. -/
def Text.spanOf (file : FileId) (before cs : Text) : Span :=
  (Place.origin.walk before).spanTo (Place.origin.walk (before ++ cs)) file

namespace Text

variable (file : FileId) (before cs after : Text)

theorem spanOf_start : (spanOf file before cs).start = before.size :=
  Place.offset_origin_walk before

theorem spanOf_stop : (spanOf file before cs).stop = (before ++ cs).size :=
  Place.offset_origin_walk (before ++ cs)

theorem faithful_spanOf (h : cs ≠ []) :
    (spanOf file before cs).Faithful file (before ++ cs ++ after) := by
  have hsplit : before ++ cs ++ after = before ++ (cs ++ after) := List.append_assoc _ _ _
  have hpos := size_pos h
  have hstop : (before ++ cs ++ after).IsBoundary (spanOf file before cs).stop :=
    ⟨before ++ cs, after, rfl, (spanOf_stop file before cs).symm⟩
  constructor
  · rfl
  · rw [spanOf_start, spanOf_stop, size_append]
    omega
  · exact hstop.le_size
  · exact ⟨before, cs ++ after, hsplit, (spanOf_start file before cs).symm⟩
  · exact hstop
  · rw [spanOf_start, hsplit, position_append]
    rfl
  · rw [spanOf_stop, position_append]
    rfl

/-- A part of a span on one line is the span of a part of its characters. -/
theorem part_spanOf {a b c : Text} (hline : '\n' ∉ a ++ b ++ c) :
    (spanOf file before (a ++ b ++ c)).part (a ++ b ++ c) a.size (a ++ b).size =
      spanOf file (before ++ a) b := by
  have hpart := (Place.origin.walk before).part_spanTo file hline
  rw [← Place.walk_append, ← Place.walk_append, ← Place.walk_append, ← List.append_assoc before a b]
    at hpart
  exact hpart

/-- A span of some characters cuts them out of the text. -/
theorem slice?_spanOf :
    (before ++ cs ++ after).slice? (spanOf file before cs).start (spanOf file before cs).stop =
      some cs := by
  rw [spanOf_start, spanOf_stop, slice?_append]

end Text

end Devicetree
