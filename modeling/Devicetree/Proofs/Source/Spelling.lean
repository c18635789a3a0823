import Mathlib.Data.List.TakeWhile
import Devicetree.Proofs.Source.Name
import Devicetree.Proofs.Source.Numbering
import Devicetree.Proofs.Source.Reading

/-!
# How tokens are spelled

Words, labels and references are made of the characters of their class. A child block gets its
name from a word of the text. A word is not empty and has no slash in it, so a path of such
names, written with slashes between them, falls apart into the same names.
-/

namespace Devicetree

/-- Characters that make up a word. -/
structure Scan.IsWord (cs : Text) : Prop where
  ne_nil : cs ≠ []
  start : cs.head? ≠ some ','
  all : ∀ c ∈ cs, isWordChar c = true

/-- Characters that make up a label. -/
structure Scan.IsLabel (cs : Text) : Prop where
  start : ∃ c ∈ cs.head?, (c.isAlpha || c == '_') = true
  all : ∀ c ∈ cs, isLabelChar c = true

/-- The characters of a token are those of its class. Strings hold any characters, since their
escapes are resolved. -/
def Token.Spelled : Token → Prop
  | word text => Scan.IsWord text.toList
  | label name => Scan.IsLabel name.toList
  | labelRef name => name.toList ≠ [] ∧ ∀ c ∈ name.toList, Scan.isLabelChar c = true
  | pathRef path => ∀ c ∈ path.toList, c ≠ '\x7d' ∧ c ≠ '\n'
  | _ => True

theorem Scan.isAlphanumeric_iff {c : Char} :
    isAlphanumeric c = true ↔
      ((65 ≤ c.val ∧ c.val ≤ 90) ∨ (97 ≤ c.val ∧ c.val ≤ 122)) ∨ (48 ≤ c.val ∧ c.val ≤ 57) := by
  have heq : isAlphanumeric c =
      ((decide (65 ≤ c.val ∧ c.val ≤ 90) || decide (97 ≤ c.val) && decide (c.val ≤ 122)) ||
        decide (48 ≤ c.val) && decide (c.val ≤ 57)) := rfl
  rw [heq]
  simp only [Bool.or_eq_true, Bool.and_eq_true, decide_eq_true_eq]

theorem Scan.isAlphanumeric_of_digit {base : Nat} {c : Char} (h : Numeral.digit? base c ≠ none) :
    isAlphanumeric c = true := by
  have hvalue : Numeral.digitValue? c ≠ none := by
    intro hnone
    rw [Numeral.digit?, hnone] at h
    exact h rfl
  rw [isAlphanumeric_iff]
  unfold Numeral.digitValue? at hvalue
  split at hvalue
  · rename_i hc
    exact .inr hc
  · split at hvalue
    · rename_i hc
      exact .inl (.inr ⟨hc.1, UInt32.le_trans hc.2 (by decide)⟩)
    · split at hvalue
      · rename_i hc
        exact .inl (.inl ⟨hc.1, UInt32.le_trans hc.2 (by decide)⟩)
      · exact absurd rfl hvalue

theorem Scan.isWordChar_of_alphanumeric {c : Char} (h : isAlphanumeric c = true) :
    isWordChar c = true := by
  simp [isWordChar, h]

/-- A name that a word was read as. -/
def UnitName.Proper (n : UnitName) : Prop :=
  ∃ word : String, (Token.word word).Spelled ∧ read word = n

namespace UnitName.Proper

variable {n : UnitName}

theorem read_text (h : n.Proper) : read n.text = n := by
  obtain ⟨word, -, rfl⟩ := h
  exact UnitName.read_text word

theorem text_ne_nil (h : n.Proper) : n.text.toList ≠ [] := by
  obtain ⟨word, hword, rfl⟩ := h
  exact UnitName.text_ne_nil hword.ne_nil

theorem isWordChar_of_mem (h : n.Proper) {c : Char} (hc : c ∈ n.text.toList) :
    Scan.isWordChar c = true := by
  obtain ⟨word, hword, rfl⟩ := h
  rcases mem_text hc with hm | rfl | hm
  · exact hword.all c hm
  · decide
  · exact Scan.isWordChar_of_alphanumeric (Scan.isAlphanumeric_of_digit hm)

/-- The written form of a proper name is a word. -/
theorem spelled_text (h : n.Proper) : (Token.word n.text).Spelled := by
  refine ⟨h.text_ne_nil, ?_, fun c => h.isWordChar_of_mem⟩
  obtain ⟨word, hword, rfl⟩ := h
  rcases read_cases word with hread | ⟨name, address, -, hname, hread⟩
  · rw [hread]
    exact hword.start
  · rw [hread, text_of_address, String.toList_ofList]
    cases name with
    | nil => simp
    | cons c cs =>
        obtain ⟨rest, hrest⟩ := hname
        intro hcomma
        apply hword.start
        rw [← hrest]
        exact hcomma

theorem slash_not_mem (h : n.Proper) : '/' ∉ n.text.toList := fun hmem =>
  absurd (h.isWordChar_of_mem hmem) (by decide)

end UnitName.Proper

/-! ### Words of a text -/

namespace Scan

/-- A class of tokens all of which are spelled as they should be. -/
def Spells (found : Option Scan) : Prop :=
  ∀ token more, found = some (.token token more) → token.Spelled

theorem Spells.orElse {a b : Option Scan} (ha : Spells a) (hb : Spells b) : Spells (a <|> b) := by
  cases a with
  | none => exact hb
  | some s => exact ha

theorem spells_none : Spells none := by
  intro token more h
  cases h

theorem spells_fault (fault : Fault) (reach : Nat) : Spells (some (.fault fault reach)) := by
  intro token more h
  cases h

theorem spells_token {token : Token} (h : token.Spelled) (more : Nat) :
    Spells (some (.token token more)) := by
  rintro _ _ ⟨⟩
  exact h

theorem spells_map {α : Type} (found : Option α) {token : α → Token} {more : α → Nat}
    (h : ∀ a, (token a).Spelled) :
    Spells (found.map fun a => .token (token a) (more a)) := by
  cases found with
  | none => exact spells_none
  | some a => exact spells_token (h a) _

theorem spells_word? (cs : Text) : Spells (word? cs) := by
  unfold word?
  dsimp only
  split
  · exact spells_none
  · exact spells_none
  · rename_i hnil hcomma
    apply spells_token
    rw [Token.Spelled, String.toList_ofList]
    refine ⟨hnil, fun hhead => ?_, fun c hc => List.mem_takeWhile_imp hc⟩
    obtain ⟨rest, hrest⟩ := List.head?_eq_some_iff.mp hhead
    exact hcomma rest hrest

theorem spells_lineComment? (cs : Text) : Spells (lineComment? cs) := by
  unfold lineComment?
  split
  · apply spells_token
    trivial
  · exact spells_none

theorem spells_blockComment? (cs : Text) : Spells (blockComment? cs) := by
  unfold blockComment?
  split
  · split
    · apply spells_token
      trivial
    · exact spells_fault _ _
  · exact spells_none

theorem spells_string? (cs : Text) : Spells (string? cs) := by
  unfold string?
  split
  · dsimp only
    split
    · apply spells_token
      trivial
    · exact spells_fault _ _
  · exact spells_none

theorem spells_directive? (cs : Text) : Spells (directive? cs) := by
  have hdirectives : ∀ t ∈ directives, t.Spelled := by
    simp [directives, Token.Spelled]
  unfold directive?
  cases hfind : directives.find? _ with
  | none => exact spells_none
  | some t => exact spells_token (hdirectives t (List.mem_of_find?_eq_some hfind)) _

theorem spells_hashInclude? (cs : Text) : Spells (hashInclude? cs) := by
  unfold hashInclude?
  split
  · dsimp only
    split
    · exact spells_none
    · split
      · exact spells_map _ fun _ => trivial
      · exact spells_map _ fun _ => trivial
      · exact spells_none
  · exact spells_none

theorem spells_pathRef? (cs : Text) : Spells (pathRef? cs) := by
  unfold pathRef?
  split
  · split
    · rename_i hpath
      apply spells_token
      rw [Token.Spelled, String.toList_ofList]
      unfold enclosed? at hpath
      dsimp only at hpath
      split at hpath
      · cases hpath
        intro c hc
        simpa using List.mem_takeWhile_imp hc
      · cases hpath
    · exact spells_fault _ _
  · exact spells_none

theorem spells_labelRef? (cs : Text) : Spells (labelRef? cs) := by
  unfold labelRef?
  split
  · dsimp only
    split
    · exact spells_none
    · rename_i hname
      apply spells_token
      rw [Token.Spelled, String.toList_ofList]
      refine ⟨fun hnil => hname (List.isEmpty_iff.mpr hnil), fun c hc => List.mem_takeWhile_imp hc⟩
  · exact spells_none

theorem spells_label? (cs : Text) : Spells (label? cs) := by
  unfold label?
  dsimp only
  split
  · exact spells_none
  · rename_i c rest hname
    split
    · rename_i hlabel
      apply spells_token
      rw [Token.Spelled, String.toList_ofList]
      refine ⟨⟨c, by rw [hname]; rfl, (Bool.and_eq_true_iff.mp hlabel).1⟩, fun d hd => ?_⟩
      exact List.mem_takeWhile_imp hd
    · exact spells_none

theorem spells_mark? (cs : Text) : Spells (mark? cs) := by
  intro token more h
  unfold mark? at h
  split at h <;> cases h <;> trivial

theorem spells_blank? (cs : Text) : Spells (blank? cs) := by
  unfold blank?
  dsimp only
  split
  · exact spells_none
  · apply spells_token
    trivial

/-- A token is found by the first class that fits. -/
theorem classes_of_ofText {cs : Text} {token : Token} {more : Nat}
    (h : ofText cs = .token token more) :
    (lineComment? cs <|> blockComment? cs <|> string? cs <|> directive? cs <|> hashInclude? cs <|>
      pathRef? cs <|> labelRef? cs <|> label? cs <|> word? cs <|> mark? cs <|> blank? cs) =
        some (.token token more) := by
  rw [ofText] at h
  cases hfound : (lineComment? cs <|> blockComment? cs <|> string? cs <|> directive? cs <|>
      hashInclude? cs <|> pathRef? cs <|> labelRef? cs <|> label? cs <|> word? cs <|> mark? cs <|>
      blank? cs) with
  | none =>
      rw [hfound] at h
      cases h
  | some s =>
      rw [hfound] at h
      exact congrArg some h

/-- Each class gives tokens that are spelled as they should be. -/
theorem spelled_ofText {cs : Text} {token : Token} {more : Nat}
    (h : ofText cs = .token token more) : token.Spelled := by
  have hclasses := (spells_lineComment? cs).orElse <| (spells_blockComment? cs).orElse <|
    (spells_string? cs).orElse <| (spells_directive? cs).orElse <|
    (spells_hashInclude? cs).orElse <| (spells_pathRef? cs).orElse <|
    (spells_labelRef? cs).orElse <| (spells_label? cs).orElse <| (spells_word? cs).orElse <|
    (spells_mark? cs).orElse (spells_blank? cs)
  exact hclasses token more (classes_of_ofText h)

end Scan

theorem Tokens.spelled_readFrom (file : FileId) (place : Place) (cs : Text) :
    ∀ l ∈ (readFrom file place cs).lexemes, l.token.Spelled := by
  fun_induction readFrom file place cs with
  | case1 place =>
      intro l hl
      cases hl
  | case2 place c rest token more hscan after tokens ih =>
      intro l hl
      rcases List.mem_cons.mp hl with rfl | hl
      · exact Scan.spelled_ofText hscan
      · exact ih l hl
  | case3 place c rest fault reach hscan reached tokens ih => exact ih

/-! ### Child names of statements -/

/-- Some lexemes have a word that is read as a name. -/
def Lexeme.Names (ls : List Lexeme) (n : UnitName) : Prop :=
  ∃ l ∈ ls, ∃ word, l.token = .word word ∧ UnitName.read word = n

theorem Lexeme.Names.of_suffix {ls rest : List Lexeme} {n : UnitName} (h : Names rest n)
    (hrest : rest <:+ ls) : Names ls n := by
  obtain ⟨l, hl, hword⟩ := h
  exact ⟨l, hrest.subset hl, hword⟩

/-- The name of the child that a block opens. -/
def BlockTarget.childName? : BlockTarget → Option UnitName
  | child name => some name.value
  | _ => none

namespace Statement

def childName? : Statement → Option UnitName
  | .block head _ => head.target.childName?
  | _ => none

/-- The names of the children that a statement and all below it open. -/
def childNames (s : Statement) : List UnitName :=
  s.all.filterMap childName?

def childNamesIn (ss : List Statement) : List UnitName :=
  (allIn ss).filterMap childName?

@[simp] theorem childNamesIn_cons (s : Statement) (ss : List Statement) :
    childNamesIn (s :: ss) = s.childNames ++ childNamesIn ss := by
  rw [childNamesIn, allIn_cons, List.filterMap_append, childNames, childNamesIn]

@[simp] theorem childNames_block (head : BlockHead) (body : List Statement) :
    (block head body).childNames = head.target.childName?.toList ++ childNamesIn body := by
  rw [childNames, all_block, List.filterMap_cons, childName?]
  cases head.target.childName? <;> rfl

mutual

/-- Numbering renames nothing. -/
theorem childNames_number (file : FileId) (next : Nat) :
    ∀ s : Statement, (number file next s).1.childNames = s.childNames
  | .block ⟨id, labels, target, span⟩ body => by
      have htarget : (target.number file (next + 1)).1.childName? = target.childName? := by
        cases target <;> rfl
      simp only [number, childNames_block, htarget]
      rw [childNamesIn_numberAll]
  | .property p => rfl
  | .deleteNode d => rfl
  | .deleteProperty d => rfl

theorem childNamesIn_numberAll (file : FileId) (next : Nat) :
    ∀ ss : List Statement, childNamesIn (numberAll file next ss).1 = childNamesIn ss
  | [] => rfl
  | s :: ss => by
      simp only [numberAll, childNamesIn_cons]
      rw [childNames_number, childNamesIn_numberAll]

end

end Statement

namespace Phrase

/-- The child names read so far. -/
def Opening.childNames : Opening → List UnitName
  | complete s => s.childNames
  | block _ target => target.childName?.toList

theorem childNames_complete {p : Phrase Statement}
    (hp : ∀ {ls s rest}, p ls = .ok (s, rest) → s.childNames = []) {ls rest : List Lexeme}
    {o : Opening} (h : complete p ls = .ok (o, rest)) : o.childNames = [] := by
  obtain ⟨s, mid, hs, h⟩ := bind_ok.mp h
  obtain ⟨rfl, -⟩ := pure_ok.mp h
  exact hp hs

theorem childNames_property {labels : List Label} {ls rest : List Lexeme} {s : Statement}
    (h : property labels ls = .ok (s, rest)) : s.childNames = [] := by
  obtain ⟨name, after, -, h⟩ := bind_ok.mp h
  obtain ⟨values, last, -, h⟩ := bind_ok.mp h
  obtain ⟨stop, left, -, h⟩ := bind_ok.mp h
  obtain ⟨rfl, -⟩ := pure_ok.mp h
  rfl

theorem childNames_deleteNode {keyword : Span} {ls rest : List Lexeme} {s : Statement}
    (h : deleteNode keyword ls = .ok (s, rest)) : s.childNames = [] := by
  obtain ⟨target, after, -, h⟩ := bind_ok.mp h
  obtain ⟨stop, left, -, h⟩ := bind_ok.mp h
  obtain ⟨rfl, -⟩ := pure_ok.mp h
  rfl

theorem childNames_deleteProperty {keyword : Span} {ls rest : List Lexeme} {s : Statement}
    (h : deleteProperty keyword ls = .ok (s, rest)) : s.childNames = [] := by
  obtain ⟨name, after, -, h⟩ := bind_ok.mp h
  obtain ⟨stop, left, -, h⟩ := bind_ok.mp h
  obtain ⟨rfl, -⟩ := pure_ok.mp h
  rfl

theorem childNames_braced {labels : List Label} {target : BlockTarget} {ls rest : List Lexeme}
    {o : Opening} (h : braced labels target ls = .ok (o, rest)) :
    o.childNames = target.childName?.toList := by
  obtain ⟨brace, after, -, h⟩ := bind_ok.mp h
  obtain ⟨rfl, -⟩ := pure_ok.mp h
  rfl

theorem names_labelled {labels : List Label} {ls rest : List Lexeme} {o : Opening}
    (h : labelled labels ls = .ok (o, rest)) : ∀ n ∈ o.childNames, Lexeme.Names ls n := by
  unfold labelled at h
  split at h
  · cases h
  · rename_i l ls
    split at h
    · rw [childNames_braced h]
      exact List.forall_mem_nil _
    · rename_i word hword
      split at h
      · rw [childNames_braced h]
        intro n hn
        cases List.mem_singleton.mp hn
        exact ⟨l, List.mem_cons_self, word, hword, rfl⟩
      · rw [childNames_complete childNames_property h]
        exact List.forall_mem_nil _
    · split at h
      · rw [childNames_braced h]
        exact List.forall_mem_nil _
      · cases h

/-- A child block is named by a word of its opening. -/
theorem names_opening {ls rest : List Lexeme} {o : Opening} (h : opening ls = .ok (o, rest)) :
    ∀ n ∈ o.childNames, Lexeme.Names ls n := by
  unfold opening at h
  split at h
  · cases h
  · split at h
    · rw [childNames_complete childNames_deleteNode h]
      exact List.forall_mem_nil _
    · rw [childNames_complete childNames_deleteProperty h]
      exact List.forall_mem_nil _
    · obtain ⟨labels, mid, hlabels, h⟩ := bind_ok.mp h
      intro n hn
      exact (names_labelled h n hn).of_suffix (trims_many _ hlabels)

end Phrase

/-- The children that a statement opens, at any depth, are named by words of what was read. -/
theorem names_reading : ReadingSteps
    (fun ls s rest => rest <:+ ls ∧ ∀ n ∈ s.childNames, Lexeme.Names ls n)
    (fun ls body rest => rest <:+ ls ∧ ∀ n ∈ Statement.childNamesIn body, Lexeme.Names ls n) where
  complete h := ⟨Phrase.trims_opening h, Phrase.names_opening h⟩
  block := by
    rintro ls labels target inner body outer s rest reports ho ⟨houter, hbody⟩ hclose
    obtain ⟨⟨span, rfl⟩, hrest⟩ := closeBlock_cases hclose
    have hinner := Phrase.trims_opening ho
    refine ⟨(hrest.trans houter).trans hinner, fun n hn => ?_⟩
    rw [Statement.childNames_block] at hn
    rcases List.mem_append.mp hn with hn | hn
    · exact Phrase.names_opening ho n hn
    · exact (hbody n hn).of_suffix hinner
  stop ls := ⟨List.suffix_rfl, List.forall_mem_nil _⟩
  next := by
    rintro ls s mid body rest ⟨hmid, hs⟩ ⟨hrest, hbody⟩
    refine ⟨hrest.trans hmid, fun n hn => ?_⟩
    rw [Statement.childNamesIn_cons] at hn
    rcases List.mem_append.mp hn with hn | hn
    · exact hs n hn
    · exact (hbody n hn).of_suffix hmid
  pass := by
    rintro ls mid body rest hmid ⟨hrest, hbody⟩
    exact ⟨hrest.trans hmid, fun n hn => (hbody n hn).of_suffix hmid⟩

theorem names_items (last : Span) (ls : List Lexeme) :
    ∀ n ∈ Statement.childNamesIn (Items.read last ls).statements, Lexeme.Names ls n := by
  refine items_induction (R := fun ls ss => ∀ n ∈ Statement.childNamesIn ss, Lexeme.Names ls n)
    last (List.forall_mem_nil _) ?_ ?_ ls
  · intro ls mid ss hmid hss n hn
    exact (hss n hn).of_suffix hmid
  · intro ls read ss hread hss n hn
    obtain ⟨hrest, hs⟩ := names_reading.statement last hread
    rw [Statement.childNamesIn_cons] at hn
    rcases List.mem_append.mp hn with hn | hn
    · exact hs n hn
    · exact (hss n hn).of_suffix hrest

/-- In a file as read every child block has a proper name. -/
theorem SourceFile.Parsed.proper_childNames {f : SourceFile} (h : f.Parsed) :
    ∀ n ∈ Statement.childNamesIn f.statements, n.Proper := by
  obtain ⟨text, hf⟩ := h
  intro n hn
  rw [hf, SourceFile.read, SourceFile.ofLexemes, Statement.childNamesIn_numberAll] at hn
  obtain ⟨l, hl, word, hword, hread⟩ := names_items _ _ n hn
  have hspelled := Tokens.spelled_readFrom _ _ _ l ((List.mem_filter.mp hl).1)
  rw [hword] at hspelled
  exact ⟨word, hspelled, hread⟩

end Devicetree
