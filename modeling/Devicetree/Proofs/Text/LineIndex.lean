import Mathlib.Data.List.Induction
import Mathlib.Order.Bounds.Defs
import Devicetree.Proofs.Token.Tiling

/-!
# Positions and offsets

Along a walk positions grow with the offsets, so the positions of the offsets between characters are
in the order of these. The way back takes any position to the last of these offsets whose position
does not exceed it.

A walk over a text finds a position or an offset without a table. A line index has one: it keeps the
offsets at which lines begin, searches them by halves, and counts characters on one line only. Its
lines and columns have thirty-two bits. On texts short enough for these it gives the same answers.
-/

namespace Devicetree

/-! ### The order of positions -/

theorem Position.origin_le (p : Position) : origin ≤ p := by
  rw [le_def]
  have hline : origin.line = 0 := rfl
  have hcolumn : origin.column = 0 := rfl
  omega

namespace Place

variable (p : Place)

theorem position_le_walk (cs : Text) : p.position ≤ (p.walk cs).position :=
  (p.le_walk cs).2

theorem position_lt_walk_cons (c : Char) (cs : Text) :
    p.position < (p.walk (c :: cs)).position :=
  (p.lt_walk_cons c cs).2

/-- The way to an offset goes on over all characters before it. -/
theorem offsetOf_append {q : Position} {cs : Text} (h : (p.walk cs).position ≤ q) (rest : Text) :
    p.offsetOf q (cs ++ rest) = (p.walk cs).offsetOf q rest := by
  induction cs generalizing p with
  | nil => rfl
  | cons c cs ih =>
      have hstep : (p.step c).position ≤ q := Position.le_trans ((p.step c).position_le_walk cs) h
      rw [List.cons_append, offsetOf, if_pos hstep, ih (p.step c) h, walk_cons]

/-- It ends where one more character would lead past the position. -/
theorem offsetOf_eq_of_stop {q : Position} {before after : Text}
    (hle : (p.walk before).position ≤ q)
    (hstop : ∀ c ∈ after.head?, ¬ ((p.walk before).step c).position ≤ q) :
    p.offsetOf q (before ++ after) = (p.walk before).offset := by
  rw [p.offsetOf_append hle]
  cases after with
  | nil => rfl
  | cons c rest => rw [offsetOf, if_neg (hstop c rfl)]

/-- There is such a place. -/
theorem exists_stop {q : Position} (h : p.position ≤ q) (cs : Text) :
    ∃ before after, cs = before ++ after ∧ (p.walk before).position ≤ q ∧
      ∀ c ∈ after.head?, ¬ ((p.walk before).step c).position ≤ q := by
  induction cs generalizing p with
  | nil => exact ⟨[], [], rfl, h, nofun⟩
  | cons c cs ih =>
      by_cases hstep : (p.step c).position ≤ q
      · obtain ⟨before, after, rfl, hle, hstop⟩ := ih (p.step c) hstep
        exact ⟨c :: before, after, rfl, hle, hstop⟩
      · refine ⟨[], c :: cs, rfl, h, ?_⟩
        rintro d ⟨⟩
        exact hstep

end Place

namespace Text

/-- Of two beginnings of a text the one with fewer bytes is followed by a character. -/
theorem exists_cons_of_size_lt {s t s' t' : Text} (h : s ++ t = s' ++ t') (hlt : s.size < s'.size) :
    ∃ c cs, s' = s ++ c :: cs ∧ t = c :: cs ++ t' := by
  rcases List.append_eq_append_iff.mp h with ⟨cs, rfl, rfl⟩ | ⟨cs, rfl, rfl⟩
  · cases cs with
    | nil => simp at hlt
    | cons c cs => exact ⟨c, cs, rfl, rfl⟩
  · rw [size_append] at hlt
    omega

variable {text : Text}

theorem position_lt_position {o o' : Nat} (ho : text.IsBoundary o) (ho' : text.IsBoundary o')
    (hlt : o < o') : text.position o < text.position o' := by
  obtain ⟨before, after, rfl, rfl⟩ := ho
  obtain ⟨before', after', hsplit, rfl⟩ := ho'
  obtain ⟨c, cs, rfl, -⟩ := exists_cons_of_size_lt hsplit hlt
  rw [position_append, hsplit, position_append, Place.walk_append]
  exact Place.position_lt_walk_cons _ c cs

theorem offset_position {o : Nat} (ho : text.IsBoundary o) : text.offset (text.position o) = o := by
  obtain ⟨before, after, rfl, rfl⟩ := ho
  rw [position_append, offset, Place.offsetOf_eq_of_stop _ (Position.le_refl _),
    Place.offset_origin_walk]
  intro c _
  exact Position.lt_iff_not_le.mp (Place.position_lt_walk_cons _ c [])

/-- The offset of a position is the last between characters whose position does not exceed it. -/
theorem isGreatest_offset (p : Position) :
    IsGreatest {o | text.IsBoundary o ∧ text.position o ≤ p} (text.offset p) := by
  obtain ⟨before, after, rfl, hle, hstop⟩ := Place.origin.exists_stop (Position.origin_le p) text
  have hoffset : (before ++ after).offset p = before.size := by
    rw [offset, Place.offsetOf_eq_of_stop _ hle hstop, Place.offset_origin_walk]
  rw [hoffset]
  refine ⟨⟨⟨before, after, rfl, rfl⟩, by rwa [position_append]⟩, ?_⟩
  rintro o ⟨⟨before', after', hsplit, rfl⟩, hposition⟩
  -- Past the place where the walk stops every position is too great.
  by_contra hlt
  obtain ⟨c, cs, rfl, rfl⟩ := exists_cons_of_size_lt hsplit (Nat.lt_of_not_le hlt)
  rw [hsplit, position_append, Place.walk_append] at hposition
  exact hstop c rfl (Position.le_trans (Place.position_le_walk _ cs) hposition)

end Text

/-! ### A table of lines -/

/-- The offsets past the newlines of a text that begins at an offset. -/
def Text.startsAfter (offset : Nat) : Text → List Nat
  | [] => []
  | c :: cs =>
    let later := startsAfter (offset + c.utf8Size) cs
    if c = '\n' then (offset + c.utf8Size) :: later else later

/-- The offsets at which the lines of a text begin. -/
def Text.lineStarts (text : Text) : List Nat :=
  0 :: startsAfter 0 text

/-- The first line of a text, at most up to a column. -/
def Text.lineUpTo (text : Text) (column : Nat) : Text :=
  (text.takeWhile (· ≠ '\n')).take column

/-- A text and the table of its lines. -/
structure LineIndex where
  text : Text
  starts : Array Nat
  starts_eq : starts = text.lineStarts.toArray

namespace LineIndex

def ofText (text : Text) : LineIndex :=
  ⟨text, text.lineStarts.toArray, rfl⟩

/-- The place of a key in a table, or else where it would have to stand, found by halving the part
of the table from `lo` up to `hi`. -/
def search (table : Array Nat) (key lo hi : Nat) (h : hi ≤ table.size) : Except Nat Nat :=
  if hlt : lo < hi then
    let mid := lo + (hi - lo) / 2
    have hmid : mid < table.size := by omega
    if table[mid] = key then .ok mid
    else if table[mid] < key then search table key (mid + 1) hi h
    else search table key lo mid (by omega)
  else .error lo
termination_by hi - lo
decreasing_by all_goals omega

/-- The line of an offset: the one that begins there, or the one before the next that begins. -/
def lineOf (table : Array Nat) (offset : Nat) : Nat :=
  match search table offset 0 table.size (Nat.le_refl _) with
  | .ok line => line
  | .error next => next - 1

/-- The position of an offset, its line and column cut to thirty-two bits. The column counts
characters, or bytes if a character is cut. -/
def position (index : LineIndex) (offset : Nat) : Position :=
  let offset := min offset index.text.size
  let line := lineOf index.starts offset
  let start := index.starts.getD line 0
  let column := ((index.text.slice? start offset).map List.length).getD (offset - start)
  ⟨(UInt32.ofNat line).toNat, (UInt32.ofNat column).toNat⟩

/-- The offset of a position, at most at the end of its line. -/
def offset (index : LineIndex) (p : Position) : Nat :=
  match index.starts[p.line]? with
  | none => index.text.size
  | some start => start + (((index.text.dropBytes? start).getD []).lineUpTo p.column).size

end LineIndex

/-! ### Where lines begin -/

namespace Text

theorem startsAfter_append (offset : Nat) (s t : Text) :
    startsAfter offset (s ++ t) = startsAfter offset s ++ startsAfter (offset + s.size) t := by
  induction s generalizing offset with
  | nil => rfl
  | cons c s ih =>
      simp only [List.cons_append, startsAfter, ih, size_cons, Nat.add_assoc]
      split <;> rfl

theorem lineStarts_append (before after : Text) :
    lineStarts (before ++ after) = lineStarts before ++ startsAfter before.size after := by
  rw [lineStarts, startsAfter_append, Nat.zero_add]
  rfl

theorem mem_startsAfter_cons {offset start : Nat} {c : Char} {cs : Text} :
    start ∈ startsAfter offset (c :: cs) ↔
      (c = '\n' ∧ start = offset + c.utf8Size) ∨ start ∈ startsAfter (offset + c.utf8Size) cs := by
  rw [startsAfter]
  split <;> simp_all

theorem bounds_of_mem_startsAfter {offset start : Nat} {cs : Text}
    (h : start ∈ startsAfter offset cs) : offset < start ∧ start ≤ offset + cs.size := by
  induction cs generalizing offset with
  | nil => cases h
  | cons c cs ih =>
      have hc := c.utf8Size_pos
      rw [size_cons]
      rcases mem_startsAfter_cons.mp h with ⟨-, rfl⟩ | h
      · omega
      · have := ih h
        omega

/-- No line begins before the next character has ended. -/
theorem le_of_mem_startsAfter_cons {offset start : Nat} {c : Char} {cs : Text}
    (h : start ∈ startsAfter offset (c :: cs)) : offset + c.utf8Size ≤ start := by
  rcases mem_startsAfter_cons.mp h with ⟨-, rfl⟩ | h
  · exact Nat.le_refl _
  · exact Nat.le_of_lt (bounds_of_mem_startsAfter h).1

theorem pairwise_startsAfter (offset : Nat) (cs : Text) :
    (startsAfter offset cs).Pairwise (· < ·) := by
  induction cs generalizing offset with
  | nil => exact .nil
  | cons c cs ih =>
      rw [startsAfter]
      split
      · exact .cons (fun _ h => (bounds_of_mem_startsAfter h).1) (ih _)
      · exact ih _

theorem pairwise_lineStarts (text : Text) : text.lineStarts.Pairwise (· < ·) :=
  .cons (fun _ h => (bounds_of_mem_startsAfter h).1) (pairwise_startsAfter 0 text)

theorem le_size_of_mem_lineStarts {text : Text} {start : Nat} (h : start ∈ text.lineStarts) :
    start ≤ text.size := by
  rcases List.mem_cons.mp h with rfl | h
  · exact Nat.zero_le _
  · have := bounds_of_mem_startsAfter h
    omega

theorem length_startsAfter_le (offset : Nat) (cs : Text) :
    (startsAfter offset cs).length ≤ cs.size := by
  induction cs generalizing offset with
  | nil => exact Nat.le_refl _
  | cons c cs ih =>
      have hc := c.utf8Size_pos
      have := ih (offset + c.utf8Size)
      rw [startsAfter, size_cons]
      split
      · rw [List.length_cons]
        omega
      · omega

theorem newline_not_mem_lineUpTo (text : Text) (column : Nat) : '\n' ∉ text.lineUpTo column := by
  intro hmem
  have hline := List.all_eq_true.mp List.all_takeWhile _ (List.mem_of_mem_take hmem)
  exact of_decide_eq_true hline rfl

/-- What follows the part of a line up to a column begins with a newline, or the column has been
reached. -/
theorem exists_lineUpTo_append (text : Text) (column : Nat) :
    ∃ after, text = text.lineUpTo column ++ after ∧
      ∀ c ∈ after.head?, c = '\n' ∨ (text.lineUpTo column).length = column := by
  refine ⟨(text.takeWhile (· ≠ '\n')).drop column ++ text.dropWhile (· ≠ '\n'), ?_, ?_⟩
  · rw [lineUpTo, ← List.append_assoc, List.take_append_drop, List.takeWhile_append_dropWhile]
  · intro c hc
    rcases Nat.lt_or_ge column (text.takeWhile (· ≠ '\n')).length with hlt | hge
    · exact .inr (List.length_take_of_le (Nat.le_of_lt hlt))
    · rw [List.drop_eq_nil_of_le hge, List.nil_append] at hc
      have hstop := List.head?_dropWhile_not (· ≠ '\n') text
      rw [Option.mem_def.mp hc] at hstop
      exact .inl (by simpa using hstop)

end Text

namespace Place

variable (p : Place)

/-- A walk has entered as many lines as begin on it. -/
theorem walk_line (cs : Text) :
    (p.walk cs).position.line = p.position.line + (Text.startsAfter p.offset cs).length := by
  induction cs generalizing p with
  | nil => rfl
  | cons c cs ih =>
      rw [walk_cons, ih, Text.startsAfter, step_offset, step]
      split
      · exact Nat.succ_add_eq_add_succ _ _
      · rfl

/-- It stands on the last of them. -/
theorem walk_lineStart (cs : Text) :
    (p.lineStart :: Text.startsAfter p.offset cs).getLast? = some (p.walk cs).lineStart := by
  induction cs generalizing p with
  | nil => rfl
  | cons c cs ih =>
      rw [walk_cons, ← ih, Text.startsAfter, step_offset, step]
      split
      · rw [List.getLast?_cons_cons]
      · rfl

/-- Where a line begins, a walk stands at its first column. -/
theorem exists_walk_of_startsAfter {cs : Text} {k start : Nat}
    (h : (Text.startsAfter p.offset cs)[k]? = some start) :
    ∃ head rest, cs = head ++ rest ∧ (p.walk head).offset = start ∧
      (p.walk head).position = ⟨p.position.line + (k + 1), 0⟩ := by
  induction cs generalizing p k with
  | nil => simp [Text.startsAfter] at h
  | cons c cs ih =>
      rw [Text.startsAfter, ← step_offset] at h
      by_cases hc : c = '\n'
      · have hstep : (p.step c).position = ⟨p.position.line + 1, 0⟩ := by rw [step, if_pos hc]
        rw [if_pos hc] at h
        cases k with
        | zero => exact ⟨[c], cs, rfl, Option.some_inj.mp h, hstep⟩
        | succ k =>
            obtain ⟨head, rest, rfl, hoffset, hposition⟩ := ih (p.step c) h
            refine ⟨c :: head, rest, rfl, hoffset, hposition.trans ?_⟩
            rw [hstep, Nat.add_assoc, Nat.add_comm 1]
      · have hstep : (p.step c).position.line = p.position.line := by rw [step, if_neg hc]
        rw [if_neg hc] at h
        obtain ⟨head, rest, rfl, hoffset, hposition⟩ := ih (p.step c) h
        exact ⟨c :: head, rest, rfl, hoffset, hposition.trans (by rw [hstep])⟩

/-- What is walked over ends with the characters of the line. -/
theorem walk_split (before : Text) :
    ∃ head tail, before = head ++ tail ∧ (origin.walk before).lineStart = head.size ∧
      (origin.walk before).position.column = tail.length := by
  induction before using List.reverseRecOn with
  | nil => exact ⟨[], [], rfl, rfl, rfl⟩
  | append_singleton before c ih =>
      obtain ⟨head, tail, hsplit, hstart, hcolumn⟩ := ih
      rw [walk_append, walk_cons, walk_nil, step]
      split
      · refine ⟨before ++ [c], [], (List.append_nil _).symm, ?_, rfl⟩
        rw [offset_origin_walk, Text.size_append]
        rfl
      · refine ⟨head, tail ++ [c], by rw [hsplit, List.append_assoc], hstart, ?_⟩
        rw [List.length_append]
        exact congrArg (· + 1) hcolumn

end Place

/-! ### Searching the table -/

namespace LineIndex

/-- What a search of a table answers: a place of the key, or the place at which it would keep the
table in order. -/
def Answers (table : List Nat) (key : Nat) : Except Nat Nat → Prop
  | .ok i => table[i]? = some key
  | .error i => i ≤ table.length ∧ (∀ x ∈ table.take i, x < key) ∧ ∀ x ∈ table.drop i, key < x

theorem le_of_mem_take {table : List Nat} (hsorted : table.Pairwise (· < ·)) {i x : Nat}
    (hi : i < table.length) (hx : x ∈ table.take (i + 1)) : x ≤ table[i] := by
  obtain ⟨j, hj, rfl⟩ := List.mem_iff_getElem.mp hx
  rw [List.getElem_take]
  rw [List.length_take] at hj
  rcases Nat.lt_or_eq_of_le (Nat.le_of_lt_succ (Nat.lt_of_lt_of_le hj (Nat.min_le_left _ _))) with
    hlt | rfl
  · exact Nat.le_of_lt (List.pairwise_iff_getElem.mp hsorted j i _ hi hlt)
  · exact Nat.le_refl _

theorem le_of_mem_drop {table : List Nat} (hsorted : table.Pairwise (· < ·)) {i x : Nat}
    (hi : i < table.length) (hx : x ∈ table.drop i) : table[i] ≤ x := by
  rw [List.drop_eq_getElem_cons hi] at hx
  rcases List.mem_cons.mp hx with rfl | hx
  · exact Nat.le_refl _
  · have hcons : (table[i] :: table.drop (i + 1)).Pairwise (· < ·) := by
      rw [← List.drop_eq_getElem_cons hi]
      exact hsorted.drop
    exact Nat.le_of_lt (List.rel_of_pairwise_cons hcons hx)

/-- Each half that is left out lies on one side of the key. -/
theorem answers_search {table : Array Nat} (hsorted : table.toList.Pairwise (· < ·))
    {key lo hi : Nat} {h : hi ≤ table.size} (hle : lo ≤ hi)
    (hlow : ∀ x ∈ table.toList.take lo, x < key) (hhigh : ∀ x ∈ table.toList.drop hi, key < x) :
    Answers table.toList key (search table key lo hi h) := by
  fun_induction search table key lo hi h with
  | case1 lo hi h hlt mid hmid heq =>
      rw [Answers, List.getElem?_eq_getElem hmid, Array.getElem_toList, heq]
  | case2 lo hi h hlt mid hmid hne hless ih =>
      apply ih (by omega) _ hhigh
      intro x hx
      exact Nat.lt_of_le_of_lt (le_of_mem_take hsorted hmid hx) hless
  | case3 lo hi h hlt mid hmid hne hless ih =>
      apply ih (Nat.le_add_right _ _) hlow
      intro x hx
      have hmore : key < table[mid] := by omega
      exact Nat.lt_of_lt_of_le hmore (le_of_mem_drop hsorted hmid hx)
  | case4 lo hi h hlt =>
      obtain rfl : lo = hi := Nat.le_antisymm hle (Nat.le_of_not_lt hlt)
      exact ⟨h, hlow, hhigh⟩

section Parted

/-! A table in two parts, of which the first does not exceed the offset and the second does. -/

variable {init later : List Nat} {offset : Nat}

theorem succ_eq_of_answers_ok (hsorted : (init ++ later).Pairwise (· < ·))
    (hinit : ∀ x ∈ init, x ≤ offset) (hlater : ∀ x ∈ later, offset < x) {line : Nat}
    (h : Answers (init ++ later) offset (.ok line)) : line + 1 = init.length := by
  have hfirst : line < init.length := by
    by_contra hle
    rw [Answers, List.getElem?_append_right (Nat.le_of_not_lt hle)] at h
    exact Nat.lt_irrefl _ (hlater _ (List.mem_of_getElem? h))
  by_contra hne
  have hnext : line + 1 < init.length := by omega
  rw [Answers, List.getElem?_append_left hfirst, List.getElem?_eq_getElem hfirst] at h
  have hless := List.pairwise_iff_getElem.mp (List.pairwise_append.mp hsorted).1 line (line + 1)
    hfirst hnext (Nat.lt_succ_self _)
  rw [Option.some_inj.mp h] at hless
  exact Nat.not_le_of_lt hless (hinit _ (List.getElem_mem hnext))

theorem eq_of_answers_error (hinit : ∀ x ∈ init, x ≤ offset) (hlater : ∀ x ∈ later, offset < x)
    {next : Nat} (h : Answers (init ++ later) offset (.error next)) : next = init.length := by
  obtain ⟨hle, hlow, hhigh⟩ := h
  rcases Nat.lt_trichotomy next init.length with hlt | heq | hgt
  · have hmem : init[next] ∈ (init ++ later).drop next := by
      rw [List.drop_append_of_le_length (Nat.le_of_lt hlt), List.drop_eq_getElem_cons hlt]
      exact List.mem_cons_self
    exact absurd (hinit _ (List.getElem_mem hlt)) (Nat.not_le_of_lt (hhigh _ hmem))
  · exact heq
  · obtain ⟨more, rfl⟩ := Nat.exists_eq_add_of_lt hgt
    cases later with
    | nil =>
        rw [List.append_nil] at hle
        exact absurd hle (Nat.not_le_of_lt hgt)
    | cons x later =>
        have hmem : x ∈ (init ++ x :: later).take (init.length + more + 1) := by
          rw [Nat.add_assoc, List.take_length_add_append, List.take_succ_cons]
          exact List.mem_append_right _ List.mem_cons_self
        exact absurd (hlow _ hmem) (Nat.lt_asymm (hlater _ List.mem_cons_self))

/-- The line of an offset is the last that does not begin after it. -/
theorem lineOf_append (hsorted : (init ++ later).Pairwise (· < ·))
    (hinit : ∀ x ∈ init, x ≤ offset) (hlater : ∀ x ∈ later, offset < x) :
    lineOf (init ++ later).toArray offset = init.length - 1 := by
  have hanswer : Answers (init ++ later) offset (search (init ++ later).toArray offset 0
      (init ++ later).toArray.size (Nat.le_refl _)) := by
    apply answers_search hsorted (Nat.zero_le _)
    · simp
    · simp
  unfold lineOf
  split
  · rename_i line hline
    rw [hline] at hanswer
    exact Nat.eq_sub_of_add_eq (succ_eq_of_answers_ok hsorted hinit hlater hanswer)
  · rename_i next hnext
    rw [hnext] at hanswer
    rw [eq_of_answers_error hinit hlater hanswer]

end Parted

/-- The table has the beginning of the line on which a walk stands at the place of that line. -/
theorem lineStarts_getD (before after : Text) :
    (Text.lineStarts (before ++ after)).toArray.getD (Place.origin.walk before).position.line 0 =
      (Place.origin.walk before).lineStart := by
  have hline : (Place.origin.walk before).position.line = (Text.startsAfter 0 before).length :=
    (Place.walk_line _ _).trans (Nat.zero_add _)
  have hlast : before.lineStarts.getLast? = some (Place.origin.walk before).lineStart :=
    Place.origin.walk_lineStart before
  rw [List.getLast?_eq_getElem?] at hlast
  rw [Array.getD_eq_getD_getElem?, List.getElem?_toArray, Text.lineStarts_append, hline,
    List.getElem?_append_left (Nat.lt_succ_self _)]
  exact congrArg (·.getD 0) hlast

end LineIndex

/-! ### Offsets between and inside characters -/

namespace Text

/-- Where an offset stands: past some characters of a text, and perhaps inside the next. -/
inductive Stands : Text → Nat → Text → Prop
  | between (before after : Text) : Stands (before ++ after) before.size before
  | inside {before rest : Text} {c : Char} {offset : Nat} (hlow : before.size < offset)
      (hhigh : offset < before.size + c.utf8Size) : Stands (before ++ c :: rest) offset before

theorem exists_stands {text : Text} {offset : Nat} (h : offset ≤ text.size) :
    ∃ before, text.Stands offset before := by
  induction text generalizing offset with
  | nil =>
      obtain rfl := Nat.le_zero.mp h
      exact ⟨[], .between [] []⟩
  | cons c text ih =>
      rcases Nat.eq_zero_or_pos offset with rfl | hpos
      · exact ⟨[], .between [] (c :: text)⟩
      rcases Nat.lt_or_ge offset c.utf8Size with hlt | hge
      · exact ⟨[], .inside hpos (by rwa [size_nil, Nat.zero_add])⟩
      obtain ⟨more, rfl⟩ := Nat.exists_eq_add_of_le hge
      rw [size_cons] at h
      obtain ⟨before, hstands⟩ := ih (Nat.le_of_add_le_add_left h)
      cases hstands with
      | between before after => exact ⟨_, .between (c :: before) after⟩
      | inside hlow hhigh =>
          refine ⟨c :: before, ?_⟩
          rw [← List.cons_append]
          apply Stands.inside
          · exact Nat.add_lt_add_left hlow _
          · rw [size_cons, Nat.add_assoc]
            exact Nat.add_lt_add_left hhigh _

/-- No characters fill a part of another. -/
theorem charsIn?_inside {tail rest : Text} {c : Char} {n : Nat} (hpos : 0 < n)
    (hlt : n < c.utf8Size) : (tail ++ c :: rest).charsIn? (tail.size + n) = none := by
  induction tail with
  | nil =>
      obtain ⟨m, rfl⟩ := Nat.exists_eq_succ_of_ne_zero (Nat.ne_of_gt hpos)
      rw [size_nil, Nat.zero_add, List.nil_append, charsIn?, if_neg (Nat.not_le_of_lt hlt)]
  | cons d tail ih =>
      rw [List.cons_append, size_cons, Nat.add_assoc, charsIn?_cons, ih]
      rfl

theorem slice?_inside {head tail rest : Text} {c : Char} {offset : Nat}
    (hlow : (head ++ tail).size < offset) (hhigh : offset < (head ++ tail).size + c.utf8Size) :
    (head ++ tail ++ c :: rest).slice? head.size offset = none := by
  rw [size_append] at hlow hhigh
  have hwidth : offset - head.size = tail.size + (offset - head.size - tail.size) := by omega
  rw [slice?, List.append_assoc, dropBytes?_append, Option.bind_eq_bind, Option.bind_some,
    hwidth, charsIn?_inside (by omega) (by omega)]
  rfl

theorem position_inside {before rest : Text} {c : Char} {offset : Nat} (hlow : before.size < offset)
    (hhigh : offset < before.size + c.utf8Size) :
    (before ++ c :: rest).position offset =
      ⟨(Place.origin.walk before).position.line,
        offset - (Place.origin.walk before).lineStart⟩ := by
  have hreached := Place.offset_origin_walk before
  rw [position, Place.positionOf_append _ (by omega), Place.positionOf, if_neg (by omega),
    if_pos (by omega)]

theorem position_of_size_le {text : Text} {offset : Nat} (h : text.size ≤ offset) :
    text.position offset = text.position text.size := by
  have hle : (Place.origin.walk text).offset ≤ offset := by rwa [Place.offset_origin_walk]
  have hpast := Place.origin.positionOf_append hle []
  have hend := position_append text []
  rw [List.append_nil] at hpast hend
  exact hpast.trans hend.symm

namespace Stands

variable {text before : Text} {offset : Nat}

theorem line_eq (h : text.Stands offset before) :
    (text.position offset).line = (Place.origin.walk before).position.line := by
  cases h with
  | between => rw [position_append]
  | inside hlow hhigh => rw [position_inside hlow hhigh]

/-- The column is the number of characters since the line began, or of bytes inside one. -/
theorem column_eq (h : text.Stands offset before) :
    (text.position offset).column =
      ((text.slice? (Place.origin.walk before).lineStart offset).map List.length).getD
        (offset - (Place.origin.walk before).lineStart) := by
  obtain ⟨head, tail, hsplit, hstart, hcolumn⟩ := Place.walk_split before
  cases h with
  | between _ after =>
      have hslice : (before ++ after).slice? head.size before.size = some tail := by
        rw [hsplit]
        exact slice?_append head tail after
      rw [position_append, hstart, hslice, hcolumn]
      rfl
  | @inside _ rest c _ hlow hhigh =>
      have hslice : (before ++ c :: rest).slice? head.size offset = none := by
        rw [hsplit] at hlow hhigh ⊢
        exact slice?_inside hlow hhigh
      rw [position_inside hlow hhigh, hstart, hslice]
      rfl

theorem lineOf_eq (h : text.Stands offset before) :
    LineIndex.lineOf text.lineStarts.toArray offset = (Place.origin.walk before).position.line := by
  -- The table of the characters before the offset is the part that does not exceed it.
  obtain ⟨after, rfl, hle, hlater⟩ : ∃ after, text = before ++ after ∧ before.size ≤ offset ∧
      ∀ x ∈ startsAfter before.size after, offset < x := by
    cases h with
    | between _ after =>
        exact ⟨after, rfl, Nat.le_refl _, fun x hx => (bounds_of_mem_startsAfter hx).1⟩
    | inside hlow hhigh =>
        exact ⟨_, rfl, Nat.le_of_lt hlow, fun x hx =>
          Nat.lt_of_lt_of_le hhigh (le_of_mem_startsAfter_cons hx)⟩
  have hsorted := pairwise_lineStarts (before ++ after)
  rw [lineStarts_append] at hsorted ⊢
  rw [LineIndex.lineOf_append hsorted _ hlater, Place.walk_line]
  · exact (Nat.zero_add _).symm
  · exact fun x hx => Nat.le_trans (le_size_of_mem_lineStarts hx) hle

theorem lineStart_eq (h : text.Stands offset before) :
    text.lineStarts.toArray.getD (Place.origin.walk before).position.line 0 =
      (Place.origin.walk before).lineStart := by
  cases h <;> exact LineIndex.lineStarts_getD _ _

theorem line_le (h : text.Stands offset before) : (text.position offset).line ≤ text.size := by
  have hline : (Place.origin.walk before).position.line ≤ before.size := by
    rw [Place.walk_line]
    exact (Nat.zero_add _).trans_le (length_startsAfter_le _ _)
  rw [h.line_eq]
  cases h <;> rw [size_append] <;> omega

theorem column_le (h : text.Stands offset before) : (text.position offset).column ≤ text.size := by
  cases h with
  | between _ after =>
      obtain ⟨head, tail, rfl, -, hcolumn⟩ := Place.walk_split before
      have := length_le_size tail
      rw [position_append, hcolumn, size_append, size_append]
      omega
  | inside hlow hhigh =>
      rw [position_inside hlow hhigh, size_append, size_cons]
      dsimp only
      omega

end Stands

end Text

/-! ### The same answers -/

namespace LineIndex

/-- Lines and columns that fit are those of the walk. -/
theorem position_eq (index : LineIndex) (hsize : index.text.size < UInt32.size) (offset : Nat) :
    index.position offset = index.text.position offset := by
  obtain ⟨text, starts, rfl⟩ := index
  have hclamp : text.position offset = text.position (min offset text.size) := by
    rcases Nat.le_total offset text.size with hle | hge
    · rw [Nat.min_eq_left hle]
    · rw [Nat.min_eq_right hge, Text.position_of_size_le hge]
  obtain ⟨before, h⟩ := Text.exists_stands (Nat.min_le_right offset text.size)
  have hline := Nat.lt_of_le_of_lt h.line_le hsize
  have hcolumn := Nat.lt_of_le_of_lt h.column_le hsize
  simp only [position]
  rw [hclamp, h.lineOf_eq, h.lineStart_eq, ← h.column_eq, ← h.line_eq,
    UInt32.toNat_ofNat_of_lt' hline, UInt32.toNat_ofNat_of_lt' hcolumn]

theorem exists_head_of_lineStarts {text : Text} {line start : Nat}
    (h : text.lineStarts[line]? = some start) :
    ∃ head rest, text = head ++ rest ∧ head.size = start ∧
      (Place.origin.walk head).position = ⟨line, 0⟩ := by
  cases line with
  | zero => exact ⟨[], text, rfl, Option.some_inj.mp h, rfl⟩
  | succ line =>
      obtain ⟨head, rest, rfl, hoffset, hposition⟩ := Place.origin.exists_walk_of_startsAfter h
      exact ⟨head, rest, rfl, (Place.offset_origin_walk head).symm.trans hoffset,
        hposition.trans (congrArg (Position.mk · 0) (Nat.zero_add _))⟩

/-- The walk to a position stops where the table says that it does. -/
theorem offset_eq (index : LineIndex) (p : Position) : index.offset p = index.text.offset p := by
  obtain ⟨text, starts, rfl⟩ := index
  unfold offset
  split
  · rename_i hnone
    -- There are not so many lines, and the walk goes to the end.
    have hline : (Place.origin.walk text).position.line < p.line := by
      rw [List.getElem?_toArray, List.getElem?_eq_none_iff] at hnone
      rw [Place.walk_line]
      exact Nat.lt_of_lt_of_le (Nat.lt_succ_of_le (Nat.zero_add _).le) hnone
    have hend : Place.origin.offsetOf p (text ++ []) = (Place.origin.walk text).offset :=
      Place.origin.offsetOf_eq_of_stop (.inl hline) nofun
    rw [List.append_nil, Place.offset_origin_walk] at hend
    exact hend.symm
  · rename_i start hstart
    rw [List.getElem?_toArray] at hstart
    obtain ⟨head, rest, rfl, rfl, hposition⟩ := exists_head_of_lineStarts hstart
    obtain ⟨after, hrest, hnext⟩ := Text.exists_lineUpTo_append rest p.column
    have hwalk : (Place.origin.walk (head ++ rest.lineUpTo p.column)).position =
        ⟨p.line, (rest.lineUpTo p.column).length⟩ := by
      rw [Place.walk_append, Place.walk_position_of_line _ (rest.newline_not_mem_lineUpTo _),
        hposition, Nat.zero_add]
    have hle : (rest.lineUpTo p.column).length ≤ p.column := List.length_take_le _ _
    have hstop : ∀ c ∈ after.head?,
        ¬ ((Place.origin.walk (head ++ rest.lineUpTo p.column)).step c).position ≤ p := by
      intro c hc
      rw [Position.le_def, Place.step, hwalk]
      rcases hnext c hc with rfl | hreached
      · rw [if_pos rfl]
        dsimp only
        omega
      · split <;> dsimp only <;> omega
    have hoffset := Place.origin.offsetOf_eq_of_stop (hwalk ▸ .inr ⟨rfl, hle⟩) hstop
    rw [List.append_assoc, ← hrest, Place.offset_origin_walk, Text.size_append] at hoffset
    rw [Text.dropBytes?_append, Option.getD_some]
    exact hoffset.symm

end LineIndex

namespace Text

/-- Positions are in the order of the offsets between characters, and from each of them the way back
leads to its offset. It leads from any position to the greatest offset whose position does not
exceed it. The line index of a text that thirty-two bits suffice for finds the same positions and
offsets. -/
theorem positions_embed_offsets (text : Text) (hsize : text.size < UInt32.size) :
    (∀ o o', text.IsBoundary o → text.IsBoundary o' → o < o' →
      text.position o < text.position o') ∧
    (∀ o, text.IsBoundary o → text.offset (text.position o) = o) ∧
    (∀ p, IsGreatest {o | text.IsBoundary o ∧ text.position o ≤ p} (text.offset p)) ∧
    (∀ o, (LineIndex.ofText text).position o = text.position o) ∧
    ∀ p, (LineIndex.ofText text).offset p = text.offset p :=
  ⟨fun _ _ => position_lt_position, fun _ => offset_position, isGreatest_offset,
    (LineIndex.ofText text).position_eq hsize, (LineIndex.ofText text).offset_eq⟩

/-- A character of two bytes and a carriage return, an empty line, and a line without an end. -/
def unevenLines : Text :=
  "é\r\n\nb".toList

/-- Offset 1 is inside a character, and line 0 has no column 9. -/
theorem unevenLines_positions :
    unevenLines.size < UInt32.size ∧ unevenLines.IsBoundary 3 ∧ unevenLines.IsBoundary 5 ∧
    unevenLines.position 3 < unevenLines.position 5 ∧
    unevenLines.offset (unevenLines.position 5) = 5 ∧
    IsGreatest {o | unevenLines.IsBoundary o ∧ unevenLines.position o ≤ ⟨0, 9⟩} 3 ∧
    (LineIndex.ofText unevenLines).position 1 = ⟨0, 1⟩ := by
  have hsize : unevenLines.size < UInt32.size := by decide
  have hthree : unevenLines.IsBoundary 3 := ⟨['é', '\r'], ['\n', '\n', 'b'], rfl, rfl⟩
  have hfive : unevenLines.IsBoundary 5 := ⟨['é', '\r', '\n', '\n'], ['b'], rfl, rfl⟩
  obtain ⟨hlt, hback, hgreatest, hposition, -⟩ := positions_embed_offsets unevenLines hsize
  exact ⟨hsize, hthree, hfive, hlt 3 5 hthree hfive (by decide), hback 5 hfive, hgreatest ⟨0, 9⟩,
    hposition 1⟩

end Text

end Devicetree
