import Devicetree.Proofs.Source.Spelling
import Devicetree.Proofs.Text.Boundary
import Devicetree.Proofs.Token.Order

/-!
# Where lexemes stand

A lexeme covers some characters of the text. They are the written form of its token, except for
strings, whose escapes are resolved, for includes, which leave out their blanks, and for blanks
and newlines, which are not written as they are shown.
-/

namespace Devicetree

/-- Whether a token is written in the text as its own written form. -/
def Token.isVerbatim : Token → Bool
  | hashInclude _ _ => false
  | string _ => false
  | blank => false
  | newline => false
  | _ => true

theorem Token.toList_text_pathRef (path : String) :
    (Token.pathRef path).text.toList = ['&', '\x7b'] ++ path.toList ++ ['\x7d'] := by
  simp only [Token.text, String.toList_append]
  rfl

namespace Scan

/-- A class of tokens that read their written form, where they have it, to its end. -/
def Verbatim (cs : Text) (found : Option Scan) : Prop :=
  ∀ ⦃token more⦄, found = some (.token token more) → token.isVerbatim = true →
    token.text.toList <+: cs ∧ token.text.toList.length = more + 1

theorem Verbatim.orElse {cs : Text} {a b : Option Scan} (ha : Verbatim cs a)
    (hb : Verbatim cs b) : Verbatim cs (a <|> b) := by
  cases a with
  | none => exact hb
  | some s => exact ha

theorem verbatim_none (cs : Text) : Verbatim cs none := by
  intro token more h
  cases h

theorem verbatim_fault (cs : Text) (fault : Fault) (reach : Nat) :
    Verbatim cs (some (.fault fault reach)) := by
  intro token more h
  cases h

theorem verbatim_token {cs : Text} {token : Token} {more : Nat}
    (h : token.text.toList <+: cs) (hlength : token.text.toList.length = more + 1) :
    Verbatim cs (some (.token token more)) := by
  rintro _ _ ⟨⟩ -
  exact ⟨h, hlength⟩

/-- Nothing is said of tokens that are written in another way. -/
theorem verbatim_of_not {cs : Text} {token : Token} (h : token.isVerbatim = false) (more : Nat) :
    Verbatim cs (some (.token token more)) := by
  rintro _ _ ⟨⟩ htoken
  rw [h] at htoken
  cases htoken

theorem verbatim_map {α : Type} (cs : Text) (found : Option α) {token : α → Token}
    {more : α → Nat} (h : ∀ a, (token a).isVerbatim = false) :
    Verbatim cs (found.map fun a => .token (token a) (more a)) := by
  cases found with
  | none => exact verbatim_none cs
  | some a => exact verbatim_of_not (h a) _

theorem verbatim_lineComment? (cs : Text) : Verbatim cs (lineComment? cs) := by
  unfold lineComment?
  split
  · rename_i cs
    have htext (content : Text) :
        (Token.lineComment (String.ofList content)).text.toList = ['/', '/'] ++ content := by
      simp only [Token.text, String.toList_append, String.toList_ofList]
      rfl
    apply verbatim_token
    · rw [htext]
      exact (List.prefix_append_right_inj ['/', '/']).mpr (List.takeWhile_prefix _)
    · rw [htext, List.length_append]
      exact Nat.add_comm 2 _
  · exact verbatim_none _

/-- A comment goes up to the end mark that closes it. -/
theorem prefix_of_commentBody? {cs content : Text} (h : commentBody? cs = some content) :
    content ++ ['*', '/'] <+: cs := by
  fun_induction commentBody? cs generalizing content with
  | case1 rest =>
      cases h
      exact List.prefix_append ['*', '/'] rest
  | case2 c cs hc ih =>
      obtain ⟨content, hcontent, rfl⟩ := Option.map_eq_some_iff.mp h
      exact List.cons_prefix_cons.mpr ⟨rfl, ih hcontent⟩
  | case3 => cases h

theorem verbatim_blockComment? (cs : Text) : Verbatim cs (blockComment? cs) := by
  unfold blockComment?
  split
  · rename_i cs
    split
    · rename_i content hcontent
      have htext : (Token.blockComment (String.ofList content)).text.toList =
          ['/', '*'] ++ (content ++ ['*', '/']) := by
        simp only [Token.text, String.toList_append, String.toList_ofList, List.append_assoc]
        rfl
      apply verbatim_token
      · rw [htext]
        exact (List.prefix_append_right_inj ['/', '*']).mpr (prefix_of_commentBody? hcontent)
      · rw [htext, List.length_append, List.length_append]
        simp only [List.length_cons, List.length_nil]
        omega
    · exact verbatim_fault _ _ _
  · exact verbatim_none _

theorem verbatim_string? (cs : Text) : Verbatim cs (string? cs) := by
  unfold string?
  split
  · dsimp only
    split
    · exact verbatim_of_not rfl _
    · exact verbatim_fault _ _ _
  · exact verbatim_none _

theorem verbatim_directive? (cs : Text) : Verbatim cs (directive? cs) := by
  have hwritten : ∀ t ∈ directives, t.text.toList.length = t.text.length - 1 + 1 := by decide
  unfold directive?
  cases hfind : directives.find? _ with
  | none => exact verbatim_none _
  | some t =>
      apply verbatim_token
      · apply List.isPrefixOf_iff_prefix.mp
        exact List.find?_some (p := fun token : Token => token.text.toList.isPrefixOf cs) hfind
      · exact hwritten t (List.mem_of_find?_eq_some hfind)

theorem verbatim_hashInclude? (cs : Text) : Verbatim cs (hashInclude? cs) := by
  unfold hashInclude?
  split
  · dsimp only
    split
    · exact verbatim_none _
    · split
      · exact verbatim_map _ _ fun _ => rfl
      · exact verbatim_map _ _ fun _ => rfl
      · exact verbatim_none _
  · exact verbatim_none _

/-- Characters of a class, and the one after them. -/
theorem takeWhile_append_prefix {p : Char → Bool} {cs : Text} {close : Char}
    (h : (cs.drop (cs.takeWhile p).length).head? = some close) :
    cs.takeWhile p ++ [close] <+: cs := by
  obtain ⟨rest, hrest⟩ := List.head?_eq_some_iff.mp h
  refine ⟨rest, ?_⟩
  calc cs.takeWhile p ++ [close] ++ rest
      = cs.takeWhile p ++ cs.drop (cs.takeWhile p).length := by
        rw [hrest, List.append_assoc, List.singleton_append]
    _ = cs.take (cs.takeWhile p).length ++ cs.drop (cs.takeWhile p).length := by
        rw [← List.prefix_iff_eq_take.mp (List.takeWhile_prefix p)]
    _ = cs := List.take_append_drop _ _

theorem prefix_of_enclosed? {close : Char} {cs content : Text}
    (h : enclosed? close cs = some content) : content ++ [close] <+: cs := by
  unfold enclosed? at h
  dsimp only at h
  split at h
  · rename_i hclose
    cases h
    exact takeWhile_append_prefix hclose
  · cases h

theorem verbatim_pathRef? (cs : Text) : Verbatim cs (pathRef? cs) := by
  unfold pathRef?
  split
  · rename_i cs
    split
    · rename_i path hpath
      have htext : (Token.pathRef (String.ofList path)).text.toList =
          ['&', '\x7b'] ++ (path ++ ['\x7d']) := by
        rw [Token.toList_text_pathRef, String.toList_ofList, List.append_assoc]
      apply verbatim_token
      · rw [htext]
        exact (List.prefix_append_right_inj ['&', '\x7b']).mpr (prefix_of_enclosed? hpath)
      · rw [htext, List.length_append, List.length_append]
        simp only [List.length_cons, List.length_nil]
        omega
    · exact verbatim_fault _ _ _
  · exact verbatim_none _

theorem verbatim_labelRef? (cs : Text) : Verbatim cs (labelRef? cs) := by
  unfold labelRef?
  split
  · dsimp only
    split
    · exact verbatim_none _
    · have htext (name : Text) :
          (Token.labelRef (String.ofList name)).text.toList = ['&'] ++ name := by
        simp only [Token.text, String.toList_append, String.toList_ofList]
        rfl
      apply verbatim_token
      · rw [htext]
        exact (List.prefix_append_right_inj ['&']).mpr (List.takeWhile_prefix _)
      · rw [htext, List.length_append]
        exact Nat.add_comm 1 _
  · exact verbatim_none _

theorem verbatim_label? (cs : Text) : Verbatim cs (label? cs) := by
  unfold label?
  dsimp only
  split
  · exact verbatim_none _
  · split
    · rename_i hlabel
      have hcolon := of_decide_eq_true (Bool.and_eq_true_iff.mp hlabel).2
      have htext (name : Text) :
          (Token.label (String.ofList name)).text.toList = name ++ [':'] := by
        simp only [Token.text, String.toList_append, String.toList_ofList]
        rfl
      apply verbatim_token
      · rw [htext]
        exact takeWhile_append_prefix hcolon
      · rw [htext, List.length_append]
        rfl
    · exact verbatim_none _

theorem verbatim_word? (cs : Text) : Verbatim cs (word? cs) := by
  unfold word?
  dsimp only
  split
  · exact verbatim_none _
  · exact verbatim_none _
  · rename_i hnil _
    have hpos := List.length_pos_iff.mpr hnil
    apply verbatim_token
    · rw [Token.text, String.toList_ofList]
      exact List.takeWhile_prefix _
    · rw [Token.text, String.toList_ofList]
      omega

theorem verbatim_mark? (cs : Text) : Verbatim cs (mark? cs) := by
  unfold mark?
  split
  case h_11 => exact verbatim_of_not rfl _
  case h_12 => exact verbatim_none _
  all_goals exact verbatim_token (List.prefix_append [_] _) rfl

theorem verbatim_blank? (cs : Text) : Verbatim cs (blank? cs) := by
  unfold blank?
  dsimp only
  split
  · exact verbatim_none _
  · exact verbatim_of_not rfl _

/-- A token in the text begins with its written form, and is as long. -/
theorem verbatim_ofText {cs : Text} {token : Token} {more : Nat}
    (h : ofText cs = .token token more) (htoken : token.isVerbatim = true) :
    token.text.toList <+: cs ∧ token.text.toList.length = more + 1 := by
  have hclasses := (verbatim_lineComment? cs).orElse <| (verbatim_blockComment? cs).orElse <|
    (verbatim_string? cs).orElse <| (verbatim_directive? cs).orElse <|
    (verbatim_hashInclude? cs).orElse <| (verbatim_pathRef? cs).orElse <|
    (verbatim_labelRef? cs).orElse <| (verbatim_label? cs).orElse <|
    (verbatim_word? cs).orElse <| (verbatim_mark? cs).orElse (verbatim_blank? cs)
  exact hclasses (classes_of_ofText h) htoken

end Scan

/-! ### Lexemes in their text -/

theorem Text.within_spanOf (file : FileId) (before : Text) {cs : Text} (h : cs ≠ []) :
    (spanOf file before cs).Within file (Place.origin.walk before).edge
      (Place.origin.walk (before ++ cs)).edge := by
  obtain ⟨c, more, rfl⟩ := List.exists_cons_of_ne_nil h
  refine ⟨rfl, Edge.le_refl _, ?_, Edge.le_refl _⟩
  have hlt := (Place.origin.walk before).lt_walk_cons c more
  rwa [← Place.walk_append] at hlt

/-- The offsets between characters have positions in the same order. -/
theorem Text.position_lt {text : Text} {start stop : Nat} (hstart : text.IsBoundary start)
    (hstop : text.IsBoundary stop) (h : start < stop) :
    text.position start < text.position stop := by
  obtain ⟨before, after, rfl, rfl⟩ := hstart
  obtain ⟨longer, rest, hsplit, rfl⟩ := hstop
  rcases List.append_eq_append_iff.mp hsplit with ⟨cs, rfl, -⟩ | ⟨cs, rfl, -⟩
  · cases cs with
    | nil =>
        rw [List.append_nil] at h
        exact absurd h (Nat.lt_irrefl _)
    | cons c cs =>
        have hlt := (Place.origin.walk before).lt_walk_cons c cs
        rw [← Place.walk_append] at hlt
        rw [position_append, hsplit, position_append]
        exact hlt.2
  · rw [size_append] at h
    omega

theorem Span.Faithful.within {file : FileId} {text : Text} {s : Span} (h : s.Faithful file text) :
    s.Within file s.first s.last := by
  refine ⟨h.file_eq, Edge.le_refl _, ⟨h.start_lt, ?_⟩, Edge.le_refl _⟩
  change s.startPos < s.stopPos
  rw [h.startPos_eq, h.stopPos_eq]
  exact Text.position_lt h.start_boundary h.stop_boundary h.start_lt

/-- A lexeme that covers some characters of a text, which are its written form if it is written
as such. -/
structure Lexeme.Stands (file : FileId) (text : Text) (l : Lexeme) : Prop where
  spelled : l.token.Spelled
  covers : ∃ before cs after, text = before ++ cs ++ after ∧ cs ≠ [] ∧
    l.span = Text.spanOf file before cs ∧ (l.token.isVerbatim = true → cs = l.token.text.toList)

namespace Lexeme.Stands

variable {file : FileId} {text : Text} {l : Lexeme}

theorem faithful (h : l.Stands file text) : l.span.Faithful file text := by
  obtain ⟨before, cs, after, rfl, hne, hspan, -⟩ := h.covers
  rw [hspan]
  exact Text.faithful_spanOf file before cs after hne

theorem within (h : l.Stands file text) : l.span.Within file l.span.first l.span.last :=
  h.faithful.within

end Lexeme.Stands

/-! ### What is found in a text -/

/-- A lexeme that is found after the beginning of a text and covers what it was read from. -/
def Lexeme.Found (file : FileId) (text : Text) (l : Lexeme) : Prop :=
  ∃ before c rest more, text = before ++ c :: rest ∧
    Scan.ofText (c :: rest) = .token l.token more ∧
    l.span = Text.spanOf file before (c :: rest.take more)

/-- The report of a fault that is found after the beginning of a text. -/
def Diagnostic.Found (file : FileId) (text : Text) (d : Diagnostic) : Prop :=
  ∃ before c rest fault reach, text = before ++ c :: rest ∧
    Scan.ofText (c :: rest) = .fault fault reach ∧
    d = fault.diagnostic (fault.span file (Place.origin.walk before) c
      (Place.origin.walk (before ++ (c :: rest).take reach)))

theorem Lexeme.Found.stands {file : FileId} {text : Text} {l : Lexeme} (h : l.Found file text) :
    l.Stands file text := by
  obtain ⟨before, c, rest, more, rfl, hscan, hspan⟩ := h
  refine ⟨Scan.spelled_ofText hscan, before, c :: rest.take more, rest.drop more, ?_,
    List.cons_ne_nil _ _, hspan, fun htoken => ?_⟩
  · exact Text.append_split before (c :: rest) (more + 1)
  · obtain ⟨hbegins, hlength⟩ := Scan.verbatim_ofText hscan htoken
    rw [List.prefix_iff_eq_take.mp hbegins, hlength, List.take_succ_cons]

namespace Tokens

/-- All that is read after the beginning of a text is found in the text. -/
theorem found_readFrom (file : FileId) (text : Text) (place : Place) (cs : Text) :
    ∀ before, place = Place.origin.walk before → text = before ++ cs →
      (∀ l ∈ (readFrom file place cs).lexemes, l.Found file text) ∧
        ∀ d ∈ (readFrom file place cs).faults, d.Found file text := by
  fun_induction readFrom file place cs with
  | case1 place =>
      intro before _ _
      exact ⟨List.forall_mem_nil _, List.forall_mem_nil _⟩
  | case2 place c rest token more hscan after tokens ih =>
      intro before hplace htext
      have hafter : after = Place.origin.walk (before ++ c :: rest.take more) := by
        rw [Place.walk_append, ← hplace]
      have hsplit := htext.trans (Text.append_split before (c :: rest) (more + 1))
      obtain ⟨hlexemes, hfaults⟩ := ih _ hafter hsplit
      refine ⟨List.forall_mem_cons.mpr ⟨?_, hlexemes⟩, hfaults⟩
      refine ⟨before, c, rest, more, htext, hscan, ?_⟩
      rw [Text.spanOf, ← hafter, ← hplace]
  | case3 place c rest fault reach hscan reached tokens ih =>
      intro before hplace htext
      have hafter : place.walk (c :: rest.take reach) =
          Place.origin.walk (before ++ c :: rest.take reach) := by
        rw [Place.walk_append, ← hplace]
      have hsplit := htext.trans (Text.append_split before (c :: rest) (reach + 1))
      obtain ⟨hlexemes, hfaults⟩ := ih _ hafter hsplit
      refine ⟨hlexemes, List.forall_mem_cons.mpr ⟨?_, hfaults⟩⟩
      refine ⟨before, c, rest, fault, reach, htext, hscan, ?_⟩
      rw [Place.walk_append, ← hplace]

theorem found_read (file : FileId) (text : Text) :
    (∀ l ∈ (read file text).lexemes, l.Found file text) ∧
      ∀ d ∈ (read file text).faults, d.Found file text :=
  found_readFrom file text Place.origin text [] rfl rfl

theorem stands_read (file : FileId) (text : Text) :
    ∀ l ∈ (read file text).lexemes, l.Stands file text :=
  fun l hl => ((found_read file text).1 l hl).stands

end Tokens

end Devicetree
