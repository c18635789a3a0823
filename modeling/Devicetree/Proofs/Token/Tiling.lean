import Devicetree.Proofs.Token.Faults

/-!
# Tokens and gaps tile a text

Nothing of a text is lost in reading it, and nothing is read twice: the spans of its tokens and the
gaps that are given up with a report lie side by side from the first byte to the last. A gap begins
where its report points and ends one character past the point where the fault was noticed, or with
the text.
-/

namespace Devicetree

/-! ### Offsets inside a text -/

namespace Place

variable (p : Place)

/-- An offset past a walk is found by going on from where the walk stopped. -/
theorem positionOf_append {cs : Text} {offset : Nat} (h : (p.walk cs).offset ≤ offset)
    (rest : Text) : p.positionOf offset (cs ++ rest) = (p.walk cs).positionOf offset rest := by
  induction cs generalizing p with
  | nil => rfl
  | cons c cs ih =>
      have hpast : p.offset + c.utf8Size ≤ offset := by
        rw [walk_cons, walk_offset, step_offset] at h
        omega
      rw [List.cons_append, positionOf, if_pos hpast, ih (p.step c) h]
      rfl

/-- The position one byte on depends on the next character alone. -/
theorem positionOf_succ (c : Char) (rest : Text) :
    p.positionOf (p.offset + 1) (c :: rest) = p.positionOf (p.offset + 1) [c] := by
  rw [positionOf, positionOf]
  split
  · rename_i hsize
    have hoffset : p.offset + 1 = (p.step c).offset := by
      have := c.utf8Size_pos
      rw [step_offset]
      omega
    rw [hoffset]
    exact (p.step c).positionOf_walk [] rest
  · rfl

end Place

/-- The offset past the character at an offset; at the end of the text, that end. -/
def Text.next? (text : Text) (offset : Nat) : Option Nat :=
  (text.dropBytes? offset).map fun rest => offset + Text.size (rest.take 1)

theorem Text.next?_append (before rest : Text) :
    (before ++ rest).next? before.size = some (before ++ rest.take 1).size := by
  rw [next?, dropBytes?_append, size_append]
  rfl

/-- The span of a fault is that of its bytes: up to where it was noticed, or of one byte. -/
theorem Fault.span_eq (fault : Fault) (file : FileId) (before : Text) (c : Char) (rest : Text)
    (reach : Nat) :
    fault.span file (Place.origin.walk before) c
        (Place.origin.walk (before ++ (c :: rest).take reach)) =
      (before ++ c :: rest).span file before.size
        (if fault = .unexpectedCharacter then before.size + 1
          else (before ++ (c :: rest).take reach).size) := by
  have hstart := Place.offset_origin_walk before
  have hreached := Place.offset_origin_walk (before ++ (c :: rest).take reach)
  have hnext : (before ++ c :: rest).position (before.size + 1) =
      (Place.origin.walk before).positionOf ((Place.origin.walk before).offset + 1) [c] := by
    rw [← Place.positionOf_succ _ c rest, hstart]
    exact Place.origin.positionOf_append (by omega) _
  have hsplit := Text.append_split before (c :: rest) reach
  have hlast : (before ++ c :: rest).position (before ++ (c :: rest).take reach).size =
      (Place.origin.walk (before ++ (c :: rest).take reach)).position := by
    rw [hsplit]
    exact Text.position_append _ _
  have hfirst := Text.position_append before (c :: rest)
  cases fault with
  | unexpectedCharacter =>
      simp only [Fault.span, Text.span, if_true, hfirst, hnext, hstart]
  | _ => simp only [Fault.span, Text.span, Place.spanTo, reduceCtorEq, if_false, hfirst, hlast,
      hstart, hreached]

/-! ### Tiles -/

/-- A stretch of a text that is given up: the report about it, where it begins, where reading
failed, and where reading goes on. -/
structure Gap where
  report : Diagnostic
  start : Nat
  failure : Nat
  stop : Nat

/-- A gap begins where the primary span of its report does, with a fault that is noticed at the
point of failure. It ends past the character there, or with the text. -/
structure Gap.Fits (file : FileId) (text : Text) (g : Gap) : Prop where
  noticed : ∃ (fault : Fault) (rest : Text) (reach : Nat), g.report.code = some fault.code ∧
    text.dropBytes? g.start = some rest ∧ fault.Noticed rest reach ∧
    g.failure = g.start + Text.size (rest.take reach)
  primary : g.report.primarySpan? = some (text.span file g.start
    (if g.report.code = some .unexpectedCharacter then g.start + 1 else g.failure))
  next : text.next? g.failure = some g.stop

/-- What reading makes of a stretch of a text. -/
inductive Tile
  | token (lexeme : Lexeme)
  | gap (gap : Gap)

namespace Tile

def start : Tile → Nat
  | token l => l.span.start
  | gap g => g.start

def stop : Tile → Nat
  | token l => l.span.stop
  | gap g => g.stop

def lexeme? : Tile → Option Lexeme
  | token l => some l
  | gap _ => none

def report? : Tile → Option Diagnostic
  | token _ => none
  | gap g => some g.report

/-- A token has a faithful span, which cuts its written form out of the text if the token is
written as such. -/
def Fits (file : FileId) (text : Text) : Tile → Prop
  | token l => l.span.Faithful file text ∧ (l.token.isVerbatim = true →
      text.slice? l.span.start l.span.stop = some l.token.text.toList)
  | gap g => g.Fits file text

/-- Tiles that lie side by side from one offset to another. None of them is empty. -/
def Cover : Nat → List Tile → Nat → Prop
  | lo, [], hi => lo = hi
  | lo, t :: ts, hi => t.start = lo ∧ lo < t.stop ∧ Cover t.stop ts hi

/-- A tile over the next characters goes before a cover of what follows them. -/
theorem cover_cons {t : Tile} {ts : List Tile} {before cs : Text} {hi : Nat} (hcs : cs ≠ [])
    (hstart : t.start = before.size) (hstop : t.stop = (before ++ cs).size)
    (hcover : Cover (before ++ cs).size ts hi) : Cover before.size (t :: ts) hi := by
  rw [← hstop] at hcover
  refine ⟨hstart, ?_, hcover⟩
  have hpos := Text.size_pos hcs
  rw [hstop, Text.size_append]
  omega

theorem fits_token {file : FileId} {text : Text} {l : Lexeme} (h : l.Stands file text) :
    (token l).Fits file text := by
  refine ⟨h.faithful, fun htoken => ?_⟩
  obtain ⟨before, cs, after, rfl, -, hspan, hcs⟩ := h.covers
  rw [hspan, Text.slice?_spanOf, hcs htoken]

end Tile

/-- What a fault gives up after the beginning of a text. -/
def Gap.ofFault (file : FileId) (before : Text) (c : Char) (rest : Text) (fault : Fault)
    (reach : Nat) : Gap where
  report := fault.diagnostic (fault.span file (Place.origin.walk before) c
    (Place.origin.walk (before ++ (c :: rest).take reach)))
  start := before.size
  failure := (before ++ (c :: rest).take reach).size
  stop := (before ++ (c :: rest).take (reach + 1)).size

theorem Fault.code_eq_iff {fault : Fault} :
    some fault.code = some Code.unexpectedCharacter ↔ fault = .unexpectedCharacter := by
  cases fault <;> simp [Fault.code]

theorem Gap.fits_ofFault (file : FileId) (before : Text) {c : Char} {rest : Text} {fault : Fault}
    {reach : Nat} (h : Scan.ofText (c :: rest) = .fault fault reach) :
    (ofFault file before c rest fault reach).Fits file (before ++ c :: rest) where
  noticed :=
    ⟨fault, c :: rest, reach, rfl, Text.dropBytes?_append _ _, Scan.noticed_ofText h,
      Text.size_append _ _⟩
  primary := by
    simp only [ofFault, Fault.span_eq]
    exact congrArg (fun stop => some (Text.span _ file before.size stop))
      (if_congr Fault.code_eq_iff.symm rfl rfl)
  next := by
    have hsplit := Text.append_split before (c :: rest) reach
    have hone : before ++ (c :: rest).take (reach + 1) =
        before ++ (c :: rest).take reach ++ ((c :: rest).drop reach).take 1 := by
      rw [List.append_assoc, ← List.take_add]
    rw [hsplit, ofFault, Text.next?_append, hone]

namespace Tokens

/-- What is read after the beginning of a text covers the rest of it. -/
theorem cover_readFrom (file : FileId) (text : Text) (place : Place) (cs : Text) :
    ∀ before, place = Place.origin.walk before → text = before ++ cs →
      ∃ tiles, Tile.Cover before.size tiles text.size ∧
        (∀ g, Tile.gap g ∈ tiles → g.Fits file text) ∧
        tiles.filterMap Tile.lexeme? = (readFrom file place cs).lexemes ∧
        tiles.filterMap Tile.report? = (readFrom file place cs).faults := by
  fun_induction readFrom file place cs with
  | case1 place =>
      rintro before - rfl
      exact ⟨[], by rw [List.append_nil]; rfl, fun _ hg => absurd hg List.not_mem_nil, rfl, rfl⟩
  | case2 place c rest token more hscan after tokens ih =>
      intro before hplace htext
      have hafter : after = Place.origin.walk (before ++ c :: rest.take more) := by
        rw [Place.walk_append, ← hplace]
      have hsplit := htext.trans (Text.append_split before (c :: rest) (more + 1))
      obtain ⟨tiles, hcover, hgaps, hlexemes, hreports⟩ := ih _ hafter hsplit
      have hspan : place.spanTo after file = Text.spanOf file before (c :: rest.take more) := by
        rw [Text.spanOf, ← hafter, ← hplace]
      have hstart := Text.spanOf_start file before (c :: rest.take more)
      have hstop := Text.spanOf_stop file before (c :: rest.take more)
      rw [← hspan] at hstart hstop
      refine ⟨.token ⟨token, place.spanTo after file⟩ :: tiles,
        Tile.cover_cons (List.cons_ne_nil _ _) hstart hstop hcover, fun g hg => ?_,
        congrArg (_ :: ·) hlexemes, hreports⟩
      rcases List.mem_cons.mp hg with heq | hg
      · cases heq
      · exact hgaps g hg
  | case3 place c rest fault reach hscan reached tokens ih =>
      intro before hplace htext
      have hafter : place.walk (c :: rest.take reach) =
          Place.origin.walk (before ++ c :: rest.take reach) := by
        rw [Place.walk_append, ← hplace]
      have hsplit := htext.trans (Text.append_split before (c :: rest) (reach + 1))
      obtain ⟨tiles, hcover, hgaps, hlexemes, hreports⟩ := ih _ hafter hsplit
      have hreached : reached = Place.origin.walk (before ++ (c :: rest).take reach) := by
        rw [Place.walk_append, ← hplace]
      refine ⟨.gap (.ofFault file before c rest fault reach) :: tiles,
        Tile.cover_cons (List.cons_ne_nil _ _) rfl rfl hcover, fun g hg => ?_, hlexemes, ?_⟩
      · rcases List.mem_cons.mp hg with heq | hg
        · cases heq
          rw [htext]
          exact Gap.fits_ofFault file before hscan
        · exact hgaps g hg
      · rw [hreached, hplace]
        exact congrArg (_ :: ·) hreports

/-- Reading a text covers it with tokens and gaps that lie side by side from its first byte to its
last. The tokens among them are those that are read, each with a faithful span that cuts its
written form out of the text, unless it is a string, an include, a blank or a newline. The gaps
are one for each report, in the same order, and begin where their reports point: see `Gap.Fits`. -/
theorem read_covers_text (file : FileId) (text : Text) :
    ∃ tiles : List Tile, Tile.Cover 0 tiles text.size ∧ (∀ t ∈ tiles, t.Fits file text) ∧
      tiles.filterMap Tile.lexeme? = (read file text).lexemes ∧
      tiles.filterMap Tile.report? = (read file text).faults := by
  obtain ⟨tiles, hcover, hgaps, hlexemes, hreports⟩ :=
    cover_readFrom file text Place.origin text [] rfl rfl
  refine ⟨tiles, hcover, fun t ht => ?_, hlexemes, hreports⟩
  cases t with
  | gap g => exact hgaps g ht
  | token l =>
      apply Tile.fits_token
      apply stands_read
      rw [read, ← hlexemes]
      exact List.mem_filterMap.mpr ⟨.token l, ht, rfl⟩

end Tokens

end Devicetree
