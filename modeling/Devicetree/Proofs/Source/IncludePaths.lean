import Devicetree.Proofs.Source.Reading
import Devicetree.Proofs.Token.Faults

/-!
# Where include paths stand

An include is a line of the preprocessor, or a string after a keyword. The span of its path is
counted back from the end of the include, by the length of the path as it is read. The main result
says when this is the span of what is written between the delimiters: always in a line of the
preprocessor, and in a string exactly if there is no escape in it. Each escape is written with one
byte more than the character that it stands for, so the span begins too late by so many bytes.
-/

namespace Devicetree

/-! ### Strings -/

namespace Scan

/-- What the characters between the quotes of a string stand for. -/
inductive Denotes : Text → List Char → Prop
  | nil : Denotes [] []
  | escape (c : Char) {cs ds : Text} (h : Denotes cs ds) :
      Denotes ('\\' :: c :: cs) (unescape c :: ds)
  | plain {c : Char} (hc : c ∉ ['"', '\\', '\n']) {cs ds : Text} (h : Denotes cs ds) :
      Denotes (c :: cs) (c :: ds)

theorem utf8Size_unescape (c : Char) : (unescape c).utf8Size = c.utf8Size := by
  unfold unescape
  split <;> rfl

namespace Denotes

variable {cs ds : Text} (h : Denotes cs ds)
include h

theorem length_le : ds.length ≤ cs.length := by
  induction h with
  | nil => exact Nat.le_refl _
  | escape c _ ih => exact Nat.le_succ_of_le (Nat.succ_le_succ ih)
  | plain hc _ ih => exact Nat.succ_le_succ ih

/-- What an escape is longer by is its backslash, which is one byte. -/
theorem size_eq : cs.size = ds.size + (cs.length - ds.length) := by
  induction h with
  | nil => rfl
  | @escape c cs ds h ih =>
      have hle := h.length_le
      have hbackslash : '\\'.utf8Size = 1 := rfl
      simp only [Text.size_cons, List.length_cons, utf8Size_unescape, ih, hbackslash]
      omega
  | @plain c hc cs ds h ih =>
      simp only [Text.size_cons, List.length_cons, ih]
      omega

theorem backslash_not_mem (hlength : ds.length = cs.length) : '\\' ∉ cs := by
  induction h with
  | nil => exact List.not_mem_nil
  | @escape c cs ds h ih =>
      have hle := h.length_le
      simp only [List.length_cons] at hlength
      omega
  | @plain c hc cs ds h ih =>
      rw [List.mem_cons, not_or]
      refine ⟨?_, ih (Nat.succ.inj hlength)⟩
      rintro rfl
      simp at hc

/-- Without escapes the characters stand for themselves, and on one line. -/
theorem eq_of_backslash_not_mem (hno : '\\' ∉ cs) : ds = cs ∧ '\n' ∉ cs := by
  induction h with
  | nil => exact ⟨rfl, List.not_mem_nil⟩
  | escape => simp at hno
  | @plain c hc cs ds h ih =>
      obtain ⟨rfl, hline⟩ := ih (List.not_mem_of_not_mem_cons hno)
      refine ⟨rfl, ?_⟩
      rw [List.mem_cons, not_or]
      refine ⟨?_, hline⟩
      rintro rfl
      simp at hc

end Denotes

theorem exists_denotes {cs : Text} (h : (stringBody cs).closed = true) :
    ∃ raw after, cs = raw ++ '"' :: after ∧ (stringBody cs).length = raw.length + 1 ∧
      Denotes raw (stringBody cs).content := by
  fun_induction stringBody cs with
  | case1 => cases h
  | case2 => cases h
  | case3 c cs body ih =>
      obtain ⟨raw, after, hcs, hlength, hraw⟩ := ih h
      exact ⟨'\\' :: c :: raw, after, by rw [hcs]; rfl, congrArg (· + 2) hlength, .escape c hraw⟩
  | case4 cs => exact ⟨[], cs, rfl, rfl, .nil⟩
  | case5 => cases h
  | case6 c cs hlone hescape hquote hnewline body ih =>
      obtain ⟨raw, after, hcs, hlength, hraw⟩ := ih h
      have hbackslash := ne_backslash hlone hescape
      refine ⟨c :: raw, after, by rw [hcs]; rfl, congrArg (· + 1) hlength, .plain ?_ hraw⟩
      simp [hquote, hnewline, hbackslash]

theorem exists_of_string? {cs : Text} {token : Token} {more : Nat}
    (h : string? cs = some (.token token more)) :
    ∃ raw content after, token = .string (String.ofList content) ∧ Denotes raw content ∧
      cs = ['"'] ++ raw ++ ['"'] ++ after ∧ (['"'] ++ raw ++ ['"']).length = more + 1 := by
  unfold string? at h
  split at h
  · rename_i cs
    dsimp only at h
    split at h
    · rename_i hclosed
      obtain ⟨raw, after, hcs, hlength, hraw⟩ := exists_denotes hclosed
      cases h
      refine ⟨raw, _, after, rfl, hraw, ?_, ?_⟩
      · rw [hcs]
        simp
      · rw [hlength]
        simp
    · cases h
  · cases h

/-! ### Lines of the preprocessor -/

/-- The characters around the path of a line. -/
def opening (quoted : Bool) : Char :=
  if quoted then '"' else '<'

@[inherit_doc opening]
def closing (quoted : Bool) : Char :=
  if quoted then '"' else '>'

/-- The characters between the keyword of a line and its path. -/
def IsGap (gap : Text) : Prop :=
  gap ≠ [] ∧ ∀ c ∈ gap, c = ' ' ∨ c = '\t'

theorem exists_of_enclosed?_eq_some {close : Char} {cs content : Text}
    (h : enclosed? close cs = some content) :
    (∃ after, cs = content ++ [close] ++ after) ∧ ∀ c ∈ content, c ≠ close ∧ c ≠ '\n' := by
  obtain ⟨after, hafter⟩ := prefix_of_enclosed? h
  refine ⟨⟨after, hafter.symm⟩, fun c hc => ?_⟩
  unfold enclosed? at h
  dsimp only at h
  split at h
  · cases h
    simpa using List.mem_takeWhile_imp hc
  · cases h

theorem exists_of_hashInclude? {cs : Text} {token : Token} {more : Nat}
    (h : hashInclude? cs = some (.token token more)) :
    ∃ gap path quoted after, token = .hashInclude (String.ofList path) quoted ∧ IsGap gap ∧
      (∀ c ∈ path, c ≠ closing quoted ∧ c ≠ '\n') ∧
      cs = "#include".toList ++ gap ++ [opening quoted] ++ path ++ [closing quoted] ++ after ∧
      ("#include".toList ++ gap ++ [opening quoted] ++ path ++ [closing quoted]).length =
        more + 1 := by
  unfold hashInclude? at h
  split at h
  · rename_i hkeyword
    obtain ⟨rest, rfl⟩ := List.isPrefixOf_iff_prefix.mp hkeyword
    have hdrop : ("#include".toList ++ rest).drop 8 = rest := rfl
    rw [hdrop] at h
    dsimp only at h
    generalize hgap : (rest.takeWhile fun c => decide (c = ' ' ∨ c = '\t')) = gap at h
    split at h
    · cases h
    · rename_i hne
      -- The two kinds of delimiters are read alike.
      obtain ⟨quoted, argument, hargument, h⟩ : ∃ quoted argument,
          rest.drop gap.length = opening quoted :: argument ∧
            (enclosed? (closing quoted) argument).map (fun path =>
              Scan.token (.hashInclude (String.ofList path) quoted)
                (gap.length + path.length + 9)) = some (.token token more) := by
        split at h
        · rename_i argument hargument
          exact ⟨true, argument, hargument, h⟩
        · rename_i argument hargument
          exact ⟨false, argument, hargument, h⟩
        · cases h
      obtain ⟨path, hpath, heq⟩ := Option.map_eq_some_iff.mp h
      cases heq
      obtain ⟨⟨after, hafter⟩, hchars⟩ := exists_of_enclosed?_eq_some hpath
      have hrest : rest = gap ++ opening quoted :: argument := by
        rw [← hargument, List.prefix_iff_eq_append.mp (hgap ▸ List.takeWhile_prefix _)]
      refine ⟨gap, path, quoted, after, rfl, ⟨?_, ?_⟩, hchars, ?_, ?_⟩
      · simpa using hne
      · intro c hc
        rw [← hgap] at hc
        simpa using List.mem_takeWhile_imp hc
      · rw [hrest, hafter]
        simp
      · simp only [List.length_append, List.length_singleton, String.length_toList]
        have hkeyword : "#include".length = 8 := rfl
        omega
  · cases h

/-! ### Tokens with delimiters -/

/-- Strings and lines of the preprocessor, which have delimiters that are not read. -/
def isDelimited : Scan → Bool
  | token (.string _) _ => true
  | token (.hashInclude _ _) _ => true
  | _ => false

/-- A class that does not find what has delimiters. -/
def Undelimited (found : Option Scan) : Prop :=
  ∀ s ∈ found, s.isDelimited = false

theorem undelimited_lineComment? (cs : Text) : Undelimited (lineComment? cs) := by
  unfold lineComment?
  split <;> simp [Undelimited, isDelimited]

theorem undelimited_blockComment? (cs : Text) : Undelimited (blockComment? cs) := by
  unfold blockComment?
  repeat' split
  all_goals simp [Undelimited, isDelimited]

theorem undelimited_directive? (cs : Text) : Undelimited (directive? cs) := by
  have hdirectives : ∀ t ∈ directives, ∀ more, (token t more).isDelimited = false := by
    simp [directives, isDelimited]
  intro s h
  obtain ⟨t, hfind, rfl⟩ := Option.map_eq_some_iff.mp h
  exact hdirectives t (List.mem_of_find?_eq_some hfind) _

theorem undelimited_pathRef? (cs : Text) : Undelimited (pathRef? cs) := by
  unfold pathRef?
  repeat' split
  all_goals simp [Undelimited, isDelimited]

theorem undelimited_labelRef? (cs : Text) : Undelimited (labelRef? cs) := by
  unfold labelRef?
  dsimp only
  repeat' split
  all_goals simp [Undelimited, isDelimited]

theorem undelimited_label? (cs : Text) : Undelimited (label? cs) := by
  unfold label?
  dsimp only
  repeat' split
  all_goals simp [Undelimited, isDelimited]

theorem undelimited_word? (cs : Text) : Undelimited (word? cs) := by
  unfold word?
  dsimp only
  split <;> simp [Undelimited, isDelimited]

theorem undelimited_mark? (cs : Text) : Undelimited (mark? cs) := by
  unfold mark?
  split <;> simp [Undelimited, isDelimited]

theorem undelimited_blank? (cs : Text) : Undelimited (blank? cs) := by
  unfold blank?
  dsimp only
  split <;> simp [Undelimited, isDelimited]

/-- What has delimiters is found by one of the two classes that read them. -/
theorem delimited_ofText {cs : Text} {t : Token} {more : Nat} (h : ofText cs = .token t more)
    (hdelimited : (token t more).isDelimited = true) :
    string? cs = some (.token t more) ∨ hashInclude? cs = some (.token t more) := by
  have hnot : ∀ {found : Option Scan}, Undelimited found → found ≠ some (.token t more) := by
    intro found hfound heq
    rw [hfound _ heq] at hdelimited
    cases hdelimited
  have hclasses := classes_of_ofText h
  simp only [Option.orElse_eq_orElse, Option.orElse_eq_or, Option.or_eq_some_iff,
    hnot (undelimited_lineComment? cs), hnot (undelimited_blockComment? cs),
    hnot (undelimited_directive? cs), hnot (undelimited_pathRef? cs),
    hnot (undelimited_labelRef? cs), hnot (undelimited_label? cs), hnot (undelimited_word? cs),
    hnot (undelimited_mark? cs), hnot (undelimited_blank? cs), false_or, and_false, or_false]
    at hclasses
  exact hclasses.2.2.imp_right fun hfound => hfound.2.2

end Scan

/-! ### Lexemes with delimiters -/

namespace Lexeme.Found

variable {file : FileId} {text : Text} {l : Lexeme}

theorem exists_string (h : l.Found file text) {content : String}
    (htoken : l.token = .string content) :
    ∃ before raw after, Scan.Denotes raw content.toList ∧
      text = before ++ (['"'] ++ raw ++ ['"']) ++ after ∧
      l.span = Text.spanOf file before (['"'] ++ raw ++ ['"']) := by
  obtain ⟨before, c, rest, more, rfl, hscan, hspan⟩ := h
  rw [htoken] at hscan
  rcases Scan.delimited_ofText hscan rfl with hfound | hfound
  · obtain ⟨raw, content, after, heq, hraw, hcs, hlength⟩ := Scan.exists_of_string? hfound
    cases heq
    rw [← List.take_succ_cons, hcs, ← hlength, List.take_left] at hspan
    refine ⟨before, raw, after, ?_, ?_, hspan⟩
    · rwa [String.toList_ofList]
    · rw [hcs, List.append_assoc before]
  · obtain ⟨gap, path, quoted, after, heq, -⟩ := Scan.exists_of_hashInclude? hfound
    cases heq

theorem exists_line (h : l.Found file text) {path : String} {quoted : Bool}
    (htoken : l.token = .hashInclude path quoted) :
    ∃ before gap after, Scan.IsGap gap ∧
      (∀ c ∈ path.toList, c ≠ Scan.closing quoted ∧ c ≠ '\n') ∧
      text = before ++ ("#include".toList ++ gap ++ [Scan.opening quoted] ++ path.toList ++
        [Scan.closing quoted]) ++ after ∧
      l.span = Text.spanOf file before ("#include".toList ++ gap ++ [Scan.opening quoted] ++
        path.toList ++ [Scan.closing quoted]) := by
  obtain ⟨before, c, rest, more, rfl, hscan, hspan⟩ := h
  rw [htoken] at hscan
  rcases Scan.delimited_ofText hscan rfl with hfound | hfound
  · obtain ⟨raw, content, after, heq, -⟩ := Scan.exists_of_string? hfound
    cases heq
  · obtain ⟨gap, path, quoted, after, heq, hgap, hpath, hcs, hlength⟩ :=
      Scan.exists_of_hashInclude? hfound
    cases heq
    rw [← List.take_succ_cons, hcs, ← hlength, List.take_left] at hspan
    rw [String.toList_ofList]
    refine ⟨before, gap, after, hgap, hpath, ?_, hspan⟩
    rw [hcs, List.append_assoc before]

end Lexeme.Found

/-! ### Includes -/

/-- The lexemes that an include is read from: a line of the preprocessor, or a keyword and the
string after it. -/
inductive Include.ReadFrom (ls : List Lexeme) : Include → Prop
  | line {l : Lexeme} {rest : List Lexeme} {path : String} {quoted : Bool} (h : l :: rest <:+ ls)
      (htoken : l.token = .hashInclude path quoted) :
      ReadFrom ls ⟨⟨path, l.span.enclosed path⟩, quoted, l.span⟩
  | string {keyword l : Lexeme} {rest : List Lexeme} {path : String}
      (h : keyword :: l :: rest <:+ ls) (hkeyword : keyword.token = .includeFile)
      (htoken : l.token = .string path) :
      ReadFrom ls ⟨⟨path, l.span.enclosed path⟩, true, keyword.span.union l.span⟩

theorem Include.ReadFrom.mono {ls rest : List Lexeme} {i : Include} (h : i.ReadFrom rest)
    (hrest : rest <:+ ls) : i.ReadFrom ls := by
  cases h with
  | line h htoken => exact .line (h.trans hrest) htoken
  | string h hkeyword htoken => exact .string (h.trans hrest) hkeyword htoken

namespace Item

variable {ls rest : List Lexeme} {item : Item}

theorem bareDirective_ok (h : bareDirective ls = .ok (item, rest)) : item = .directive := by
  obtain ⟨_, _, -, hpure⟩ := Phrase.bind_ok.mp h
  exact (Phrase.pure_ok.mp hpure).1.symm

theorem memoryReserve_ok (h : memoryReserve ls = .ok (item, rest)) : item = .directive := by
  obtain ⟨_, _, -, h⟩ := Phrase.bind_ok.mp h
  obtain ⟨_, _, -, h⟩ := Phrase.bind_ok.mp h
  exact bareDirective_ok h

theorem includePath_ok {keyword : Span} (h : includePath keyword ls = .ok (item, rest)) :
    ∃ l path, ls = l :: rest ∧ l.token = .string path ∧
      item = .inclusion ⟨⟨path, l.span.enclosed path⟩, true, keyword.union l.span⟩ := by
  obtain ⟨path, mid, hpath, hpure⟩ := Phrase.bind_ok.mp h
  obtain ⟨rfl, rfl⟩ := Phrase.pure_ok.mp hpure
  obtain ⟨l, rfl, hl⟩ := Phrase.one_ok hpath
  unfold Lexeme.string? at hl
  split at hl <;> cases hl
  rename_i content htoken
  exact ⟨l, content, rfl, htoken, rfl⟩

theorem readFrom_of_read {last : Span} {i : Include} {reports : List Diagnostic}
    (h : Item.read last ls = (.ok (.inclusion i, rest), reports)) : i.ReadFrom ls := by
  cases ls with
  | nil => cases h
  | cons l ls =>
      simp only [Item.read] at h
      split at h
      · cases bareDirective_ok (Prod.mk.inj h).1
      · cases bareDirective_ok (Prod.mk.inj h).1
      · cases memoryReserve_ok (Prod.mk.inj h).1
      · rename_i hkeyword
        obtain ⟨s, path, rfl, htoken, heq⟩ := includePath_ok (Prod.mk.inj h).1
        cases heq
        exact .string List.suffix_rfl hkeyword htoken
      · rename_i htoken
        cases h
        exact .line List.suffix_rfl htoken
      · cases hresult : (readStatement last (l :: ls)).result with
        | error failure =>
            rw [hresult] at h
            cases h
        | ok read =>
            rw [hresult] at h
            cases h

end Item

/-- The includes of a file are read from its lexemes. -/
theorem Items.includes_readFrom (last : Span) (ls : List Lexeme) :
    ∀ i ∈ (Items.read last ls).includes, i.ReadFrom ls := by
  refine Items.read_induction (R := fun ls items => ∀ i ∈ items.includes, i.ReadFrom ls) last
    ?_ ?_ ?_ ls
  · exact List.forall_mem_nil _
  · intro ls item rest reports items h ih i hi
    have hlater := fun hi => (ih i hi).mono (Item.read_suffix h)
    cases item with
    | inclusion found =>
        rcases List.mem_cons.mp hi with rfl | hi
        · exact Item.readFrom_of_read h
        · exact hlater hi
    | directive => exact hlater hi
    | statement s => exact hlater hi
  · intro ls failure reports items _ ih i hi
    exact (ih i hi).mono (skipStatement_suffix .top 0 _)

/-! ### Spans between delimiters -/

namespace Text

/-- A span counted back from a delimiter ends before it. -/
theorem enclosed_spanOf (file : FileId) (before cs : Text) {close : Char}
    (hsize : close.utf8Size = 1) (hline : close ≠ '\n') (content : Text) :
    let last := (Place.origin.walk (before ++ cs)).position
    (spanOf file before (cs ++ [close])).enclosed (String.ofList content) =
      ⟨file, (before ++ cs).size - content.size, (before ++ cs).size,
        ⟨last.line, last.column - content.length⟩, last⟩ := by
  intro last
  have hstop : (spanOf file before (cs ++ [close])).stop = (before ++ cs).size + 1 := by
    rw [spanOf_stop, ← List.append_assoc, size_append (before ++ cs), size_cons, hsize]
    rfl
  have hstopPos : (spanOf file before (cs ++ [close])).stopPos = ⟨last.line, last.column + 1⟩ := by
    change (Place.origin.walk (before ++ (cs ++ [close]))).position = _
    rw [← List.append_assoc, Place.walk_append, Place.walk_cons, Place.walk_nil, Place.step,
      if_neg hline]
  simp only [Span.enclosed, hstop, hstopPos, utf8ByteSize_ofList, String.length_ofList,
    Nat.add_sub_cancel]
  rfl

/-- Two parts of a text and what stands between them. -/
theorem union_spanOf (file : FileId) (before skipped : Text) {cs ds : Text} (hds : ds ≠ []) :
    (spanOf file before cs).union (spanOf file (before ++ cs ++ skipped) ds) =
      spanOf file before (cs ++ skipped ++ ds) := by
  have hpos := size_pos hds
  have hstart : ¬ (spanOf file (before ++ cs ++ skipped) ds).start <
      (spanOf file before cs).start := by
    simp only [spanOf_start, size_append]
    omega
  have hstop : (spanOf file before cs).stop <
      (spanOf file (before ++ cs ++ skipped) ds).stop := by
    simp only [spanOf_stop, size_append]
    omega
  rw [Span.union, if_neg hstart, if_pos hstop]
  simp only [spanOf, Place.spanTo, List.append_assoc]

/-- Of two beginnings of a text the shorter one begins the other. -/
theorem exists_of_size_le {s t after rest : Text} (h : s ++ after = t ++ rest)
    (hsize : s.size ≤ t.size) : ∃ cs, t = s ++ cs := by
  rcases List.append_eq_append_iff.mp h with ⟨cs, rfl, -⟩ | ⟨cs, rfl, -⟩
  · exact ⟨cs, rfl⟩
  · cases cs with
    | nil => exact ⟨[], by simp⟩
    | cons c cs =>
        have := c.utf8Size_pos
        rw [size_append, size_cons] at hsize
        omega

end Text

/-! ### The path of an include -/

namespace Include

/-- An include that ends with its path between two delimiters, after some text that leads up to
them. -/
structure Delimited (file : FileId) (text : Text) (i : Include) (lead : Text)
    (opening closing : Char) (before path : Text) : Prop where
  text_eq : ∃ after, text = before ++ path ++ closing :: after
  span_eq : ∃ start, before = start ++ lead ++ [opening] ∧
    i.span = Text.spanOf file start (lead ++ [opening] ++ path ++ [closing])

/-- An include written as a line of the preprocessor. Its path is what is written. -/
structure InLine (file : FileId) (text : Text) (i : Include) (before path : Text) : Prop where
  delimited : ∃ gap, Scan.IsGap gap ∧ i.Delimited file text ("#include".toList ++ gap)
    (Scan.opening i.quoted) (Scan.closing i.quoted) before path
  on_line : ∀ c ∈ path, c ≠ Scan.closing i.quoted ∧ c ≠ '\n'
  value_eq : i.path.value.toList = path

/-- An include written as a string after the keyword. Its path is what the string stands for. -/
structure InString (file : FileId) (text : Text) (i : Include) (before path : Text) : Prop where
  delimited : ∃ skipped,
    i.Delimited file text ("/include/".toList ++ skipped) '"' '"' before path
  denotes : Scan.Denotes path i.path.value.toList
  quoted : i.quoted = true

section Exact

variable {file : FileId} {text lead before path : Text} {i : Include} {opening closing : Char}

/-- The span of a path that is counted back from its closing delimiter. -/
theorem Delimited.path_span (h : i.Delimited file text lead opening closing before path)
    (hsize : closing.utf8Size = 1) (hline : closing ≠ '\n')
    (hspan : i.path.span = i.span.enclosed i.path.value) :
    let last := text.position (before ++ path).size
    i.path.span = ⟨file, (before ++ path).size - Text.size i.path.value.toList,
      (before ++ path).size, ⟨last.line, last.column - i.path.value.toList.length⟩, last⟩ := by
  obtain ⟨after, rfl⟩ := h.text_eq
  obtain ⟨start, rfl, hi⟩ := h.span_eq
  have henclosed := Text.enclosed_spanOf file start (lead ++ [opening] ++ path) hsize hline
    i.path.value.toList
  rw [String.ofList_toList, ← hi, ← hspan] at henclosed
  rw [Text.position_append, henclosed]
  simp only [List.append_assoc]

/-- A path that is read as it is written has the span of what is written. -/
theorem Delimited.path_span_of_eq (h : i.Delimited file text lead opening closing before path)
    (hsize : closing.utf8Size = 1) (hline : closing ≠ '\n')
    (hspan : i.path.span = i.span.enclosed i.path.value) (hvalue : i.path.value.toList = path)
    (hpath : '\n' ∉ path) :
    i.path.span = text.span file before.size (before ++ path).size := by
  have hcounted := h.path_span hsize hline hspan
  obtain ⟨after, rfl⟩ := h.text_eq
  have hlast : (before ++ path ++ closing :: after).position (before ++ path).size =
      ⟨((Place.origin.walk before).position).line,
        ((Place.origin.walk before).position).column + path.length⟩ := by
    rw [Text.position_append, Place.walk_append, Place.walk_position_of_line _ hpath]
  have hfirst : (before ++ path ++ closing :: after).position before.size =
      (Place.origin.walk before).position := by
    rw [List.append_assoc, Text.position_append]
  rw [hcounted, hvalue, Text.span, hfirst, hlast]
  simp only [Text.size_append, Nat.add_sub_cancel]

end Exact

section Written

variable {file : FileId} {text : Text} {keep : Lexeme → Bool} {i : Include}

/-- An include as it is read stands in the text in one of the two ways. -/
theorem ReadFrom.written (h : i.ReadFrom ((Tokens.read file text).lexemes.filter keep)) :
    (∃ before path, i.InLine file text before path ∨ i.InString file text before path) ∧
      i.path.span = i.span.enclosed i.path.value := by
  have hfound : ∀ {l}, l ∈ (Tokens.read file text).lexemes.filter keep → l.Found file text :=
    fun hl => (Tokens.found_read file text).1 _ (List.mem_filter.mp hl).1
  cases h with
  | @line l rest path quoted hsuffix htoken =>
      obtain ⟨before, gap, after, hgap, hpath, htext, hspan⟩ :=
        (hfound (hsuffix.subset List.mem_cons_self)).exists_line htoken
      refine ⟨⟨before ++ ("#include".toList ++ gap) ++ [Scan.opening quoted], path.toList,
        .inl ⟨⟨gap, hgap, ⟨after, ?_⟩, before, rfl, hspan⟩, hpath, rfl⟩⟩, rfl⟩
      rw [htext]
      simp only [List.append_assoc, List.singleton_append]
  | @string keyword l rest path hsuffix hkeyword htoken =>
      obtain ⟨start, cs, rest, htext, -, hspan, hcs⟩ :=
        (hfound (hsuffix.subset List.mem_cons_self)).stands.covers
      obtain ⟨front, raw, after, hraw, htext', hspan'⟩ :=
        (hfound (hsuffix.subset (List.mem_cons_of_mem _ List.mem_cons_self))).exists_string htoken
      rw [hkeyword] at hcs
      replace hcs : cs = "/include/".toList := hcs rfl
      -- The string begins after the keyword has ended.
      obtain ⟨skipped, rfl⟩ : ∃ skipped, front = start ++ cs ++ skipped := by
        obtain ⟨lo, -, hchain⟩ := ((Tokens.chain_read file text).filter keep).of_suffix hsuffix
        have hsize : keyword.span.stop ≤ l.span.start := hchain.tail.2.1.1
        rw [hspan, hspan', Text.spanOf_start, Text.spanOf_stop] at hsize
        rw [htext', List.append_assoc front] at htext
        exact Text.exists_of_size_le htext.symm hsize
      have hunion : keyword.span.union l.span =
          Text.spanOf file start (cs ++ skipped ++ (['"'] ++ raw ++ ['"'])) := by
        rw [hspan, hspan', Text.union_spanOf _ _ _ (by simp)]
      refine ⟨⟨start ++ ("/include/".toList ++ skipped) ++ ['"'], raw,
        .inr ⟨⟨skipped, ⟨after, ?_⟩, start, rfl, ?_⟩, hraw, rfl⟩⟩, ?_⟩
      · rw [htext', hcs]
        simp only [List.append_assoc, List.singleton_append]
      · rw [hunion, hcs]
        simp only [List.append_assoc]
      · have hquote : '"'.utf8Size = 1 := rfl
        have hfirst := Text.enclosed_spanOf file (start ++ cs ++ skipped) (['"'] ++ raw) hquote
          (by decide) path.toList
        have hsecond := Text.enclosed_spanOf file start (cs ++ skipped ++ (['"'] ++ raw)) hquote
          (by decide) path.toList
        rw [String.ofList_toList] at hfirst hsecond
        rw [hunion, hspan', ← List.append_assoc (cs ++ skipped), hfirst, hsecond]
        simp only [List.append_assoc]

end Written

end Include

namespace SourceFile

/-- Every include of a file stands in its text, as a line of the preprocessor or as a string after
the keyword. In a line the span of the path is that of what is written between the delimiters. In
a string it ends there too, but begins too late by one byte for each escape: it is the span of what
is written exactly if there is none. -/
theorem include_path_span_iff (file : FileId) (text : Text) (i : Include)
    (hi : i ∈ (SourceFile.read file text).includes) :
    (∃ before path, i.InLine file text before path ∨ i.InString file text before path) ∧
      (∀ before path, i.InLine file text before path →
        i.path.span = text.span file before.size (before ++ path).size) ∧
      ∀ before path, i.InString file text before path →
        i.path.span.start = before.size + (path.length - i.path.value.length) ∧
        i.path.span.stop = (before ++ path).size ∧
        (i.path.span = text.span file before.size (before ++ path).size ↔ '\\' ∉ path) := by
  obtain ⟨hwritten, hspan⟩ := (Items.includes_readFrom _ _ i hi).written
  refine ⟨hwritten, ?_, ?_⟩
  · intro before path h
    obtain ⟨gap, -, hdelimited⟩ := h.delimited
    have hclosing : (Scan.closing i.quoted).utf8Size = 1 ∧ Scan.closing i.quoted ≠ '\n' := by
      cases i.quoted <;> decide
    exact hdelimited.path_span_of_eq hclosing.1 hclosing.2 hspan h.value_eq
      fun hline => (h.on_line _ hline).2 rfl
  · intro before path h
    obtain ⟨skipped, hdelimited⟩ := h.delimited
    have hcounted := hdelimited.path_span rfl (by decide) hspan
    have hstart : i.path.span.start = before.size + (path.length - i.path.value.length) := by
      rw [hcounted]
      dsimp only
      rw [Text.size_append, h.denotes.size_eq, String.length_toList]
      omega
    refine ⟨hstart, by rw [hcounted], fun hexact => ?_, fun hno => ?_⟩
    · have hfirst : i.path.span.start = before.size := by rw [hexact]; rfl
      have hle := h.denotes.length_le
      apply h.denotes.backslash_not_mem
      rw [String.length_toList] at hle ⊢
      omega
    · obtain ⟨hvalue, hline⟩ := h.denotes.eq_of_backslash_not_mem hno
      exact hdelimited.path_span_of_eq rfl (by decide) hspan hvalue hline

/-- An include with a comment before its path. -/
def includeText : Text :=
  "/include/ /* é */ \"ü.h\"".toList

/-- What is read of it. -/
def includeFound : Include :=
  ⟨⟨"ü.h", ⟨⟨0⟩, 20, 24, ⟨0, 19⟩, ⟨0, 22⟩⟩⟩, true, ⟨⟨0⟩, 0, 25, ⟨0, 0⟩, ⟨0, 23⟩⟩⟩

theorem includeText_path_span :
    includeFound ∈ (SourceFile.read ⟨0⟩ includeText).includes ∧
      includeFound.path.span = includeText.span ⟨0⟩ 20 24 := by
  have hfound : includeFound ∈ (SourceFile.read ⟨0⟩ includeText).includes := by
    decide +kernel
  have hpath : Scan.Denotes ['ü', '.', 'h'] ['ü', '.', 'h'] :=
    .plain (by decide) (.plain (by decide) (.plain (by decide) .nil))
  have hwritten : includeFound.InString ⟨0⟩ includeText "/include/ /* é */ \"".toList
      ['ü', '.', 'h'] :=
    ⟨⟨" /* é */ ".toList, ⟨[], by decide⟩, [], by decide, by decide⟩, hpath, rfl⟩
  exact ⟨hfound, ((include_path_span_iff _ _ _ hfound).2.2 _ _ hwritten).2.2.mpr (by decide)⟩

/-- An include with an escape in its path. -/
def escapedText : Text :=
  "/include/ \"a\\\"b\"".toList

/-- What is read of it. -/
def escapedFound : Include :=
  ⟨⟨"a\"b", ⟨⟨0⟩, 12, 15, ⟨0, 12⟩, ⟨0, 15⟩⟩⟩, true, ⟨⟨0⟩, 0, 16, ⟨0, 0⟩, ⟨0, 16⟩⟩⟩

/-- The span of the path leaves out its first character. -/
theorem escapedText_path_cut :
    escapedFound ∈ (SourceFile.read ⟨0⟩ escapedText).includes ∧
      escapedText.slice? 11 15 = some "a\\\"b".toList ∧
      escapedText.slice? escapedFound.path.span.start escapedFound.path.span.stop =
        some "\\\"b".toList ∧
      escapedFound.path.span ≠ escapedText.span ⟨0⟩ 11 15 := by
  decide +kernel

end SourceFile

end Devicetree
