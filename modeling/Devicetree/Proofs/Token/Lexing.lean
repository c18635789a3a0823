import Devicetree.Proofs.Source.Spelling

/-!
# Texts made of tokens

A text that is put together from the written forms of tokens is read as these tokens. A mark is
read by itself, but a word or a label reference goes as far as its characters do, so what follows
it has to end it. Blanks, line ends and comments between tokens leave nothing behind.
-/

namespace Devicetree

namespace Scan

/-- What ends a label reference. -/
def EndsLabel (cs : Text) : Prop :=
  ∀ c ∈ cs.head?, isLabelChar c = false

/-- What ends a word: neither a longer word, nor a label, nor the argument of an include. -/
inductive EndsWord : Text → Prop
  | mark {c : Char} (hword : isWordChar c = false) (hmark : c ∉ [':', ' ', '\t']) (rest : Text) :
      EndsWord (c :: rest)
  | blank {c : Char} (hc : c ∉ [' ', '\t', '"', '<']) (rest : Text) : EndsWord (' ' :: c :: rest)

theorem isWordChar_of_isLabelChar {c : Char} (h : isLabelChar c = true) : isWordChar c = true := by
  simp only [isLabelChar, Bool.or_eq_true] at h
  rcases h with h | h <;> simp [isWordChar, h]

theorem EndsWord.head {cs : Text} (h : EndsWord cs) :
    ∃ c rest, cs = c :: rest ∧ isWordChar c = false ∧ c ≠ ':' := by
  cases h with
  | @mark c hword hmark rest => exact ⟨c, rest, rfl, hword, fun h => hmark (by simp [h])⟩
  | blank => exact ⟨_, _, rfl, by decide, by decide⟩

theorem EndsWord.endsLabel {cs : Text} (h : EndsWord cs) : EndsLabel cs := by
  obtain ⟨c, rest, rfl, hword, -⟩ := h.head
  rintro _ ⟨⟩
  by_contra hlabel
  rw [isWordChar_of_isLabelChar (eq_true_of_ne_false hlabel)] at hword
  cases hword

/-- The characters of a class go as far as they are followed by another. -/
theorem takeWhile_append {p : Char → Bool} {cs rest : Text} (hcs : ∀ c ∈ cs, p c = true)
    (hrest : ∀ c ∈ rest.head?, p c = false) : (cs ++ rest).takeWhile p = cs := by
  rw [List.takeWhile_append_of_pos hcs]
  cases rest with
  | nil => simp
  | cons c rest => simp [hrest c rfl]

/-! ### Where a class does not fit -/

theorem directive?_of_ne {c : Char} (h : c ≠ '/') (rest : Text) :
    directive? (c :: rest) = none := by
  have hslash : ∀ t ∈ directives, t.text.toList.head? = some '/' := by decide
  rw [directive?, Option.map_eq_none_iff, List.find?_eq_none]
  intro t ht hp
  obtain ⟨tail, htail⟩ := List.head?_eq_some_iff.mp (hslash t ht)
  rw [htail, List.isPrefixOf_cons_cons, Bool.and_eq_true, beq_iff_eq] at hp
  exact h hp.1.symm

theorem hashInclude?_of_ne {c : Char} (h : c ≠ '#') (rest : Text) :
    hashInclude? (c :: rest) = none := by
  have hsplit : "#include".toList = '#' :: "include".toList := by decide
  rw [hashInclude?, hsplit, List.isPrefixOf_cons_cons, beq_false_of_ne h.symm, Bool.false_and]
  rfl

/-- Comments, strings, directives and references are told by their first character. -/
theorem ofText_of_ne {c : Char} (hslash : c ≠ '/') (hquote : c ≠ '"') (hampersand : c ≠ '&')
    (rest : Text) :
    ofText (c :: rest) = (hashInclude? (c :: rest) <|> label? (c :: rest) <|>
      word? (c :: rest) <|> mark? (c :: rest) <|> blank? (c :: rest)).getD
        (.fault .unexpectedCharacter 0) := by
  have hline : lineComment? (c :: rest) = none := by simp [lineComment?, hslash]
  have hblock : blockComment? (c :: rest) = none := by simp [blockComment?, hslash]
  have hstring : string? (c :: rest) = none := by simp [string?, hquote]
  have hpath : pathRef? (c :: rest) = none := by simp [pathRef?, hampersand]
  have hlabel : labelRef? (c :: rest) = none := by simp [labelRef?, hampersand]
  rw [ofText, hline, hblock, hstring, directive?_of_ne hslash, hpath, hlabel]
  rfl

/-! ### Words and labels -/

theorem EndsWord.takeWhile {cs rest : Text} (hrest : EndsWord rest)
    (hcs : ∀ c ∈ cs, isWordChar c = true) : (cs ++ rest).takeWhile isWordChar = cs := by
  obtain ⟨c, more, rfl, hc, -⟩ := hrest.head
  apply takeWhile_append hcs
  rintro _ ⟨⟩
  exact hc

/-- Only the word `#include` by itself, with its argument after it, is no word. -/
theorem hashInclude?_of_isWord {cs rest : Text} (hcs : IsWord cs) (hrest : EndsWord rest) :
    hashInclude? (cs ++ rest) = none := by
  rw [hashInclude?]
  split
  · rename_i hinclude
    have hall : ∀ c ∈ "#include".toList, isWordChar c = true := List.all_eq_true.mp (by decide)
    have hword : ∃ more, cs = "#include".toList ++ more := by
      obtain ⟨tail, htail⟩ := List.isPrefixOf_iff_prefix.mp hinclude
      refine ⟨tail.takeWhile isWordChar, ?_⟩
      rw [← hrest.takeWhile hcs.all, ← htail, List.takeWhile_append_of_pos hall]
    obtain ⟨more, rfl⟩ := hword
    have hdrop : ("#include".toList ++ more ++ rest).drop 8 = more ++ rest := by
      rw [List.append_assoc]
      exact List.drop_left' rfl
    rw [hdrop]
    cases more with
    | cons c more =>
        have hc := hcs.all c (by simp)
        have hblank : ¬(c = ' ' ∨ c = '\t') := by
          rintro (rfl | rfl) <;> exact absurd hc (by decide)
        simp [hblank]
    | nil =>
        cases hrest with
        | mark hword hmark rest =>
            simp only [List.mem_cons, not_or] at hmark
            simp [hmark]
        | @blank c hc rest =>
            simp only [List.mem_cons, not_or] at hc
            simp [hc]
  · rfl

theorem label?_eq_none {name rest : Text} (hname : ∀ c ∈ name, isLabelChar c = true)
    (hrest : ∀ c ∈ rest.head?, isLabelChar c = false ∧ c ≠ ':') : label? (name ++ rest) = none := by
  have hcolon : rest.head? ≠ some ':' := fun h => (hrest ':' h).2 rfl
  rw [label?, takeWhile_append hname fun c hc => (hrest c hc).1, List.drop_left]
  cases name with
  | nil => rfl
  | cons c name => simp [hcolon]

theorem label?_of_isWord {cs rest : Text} (hcs : IsWord cs) (hrest : EndsWord rest) :
    label? (cs ++ rest) = none := by
  have hsplit : cs ++ rest = cs.takeWhile isLabelChar ++ (cs.dropWhile isLabelChar ++ rest) := by
    rw [← List.append_assoc, List.takeWhile_append_dropWhile]
  rw [hsplit]
  apply label?_eq_none fun c => List.mem_takeWhile_imp
  intro c hc
  cases hdrop : cs.dropWhile isLabelChar with
  | nil =>
      obtain ⟨d, more, rfl, -, hd⟩ := hrest.head
      rw [hdrop] at hc
      obtain rfl := Option.some.inj hc
      exact ⟨hrest.endsLabel d rfl, hd⟩
  | cons d more =>
      have hmem : d ∈ cs := (List.dropWhile_suffix isLabelChar).subset (hdrop ▸ List.mem_cons_self)
      rw [hdrop] at hc
      obtain rfl := Option.some.inj hc
      refine ⟨?_, fun heq => absurd (hcs.all d hmem) (heq ▸ by decide)⟩
      have := List.head_dropWhile_not isLabelChar (l := cs) (by simp [hdrop])
      simpa [hdrop] using this

theorem ofText_word {cs rest : Text} (hcs : IsWord cs) (hrest : EndsWord rest) :
    ofText (cs ++ rest) = .token (.word (String.ofList cs)) (cs.length - 1) := by
  obtain ⟨c, more, rfl⟩ := List.exists_cons_of_ne_nil hcs.ne_nil
  have hc := hcs.all c List.mem_cons_self
  have hne : ∀ {d : Char}, isWordChar d = false → c ≠ d := by
    rintro d hd rfl
    rw [hc] at hd
    cases hd
  have hword : word? (c :: more ++ rest) =
      some (.token (.word (String.ofList (c :: more))) ((c :: more).length - 1)) := by
    rw [word?, hrest.takeWhile hcs.all]
    split
    · rename_i heq
      cases heq
    · rename_i heq
      exact absurd (congrArg List.head? heq) hcs.start
    · rfl
  have hhash := hashInclude?_of_isWord hcs hrest
  have hlabel := label?_of_isWord hcs hrest
  rw [List.cons_append] at hword hhash hlabel ⊢
  rw [ofText_of_ne (hne (by decide)) (hne (by decide)) (hne (by decide)), hhash, hlabel, hword]
  rfl

theorem ofText_label {cs : Text} (hcs : IsLabel cs) (rest : Text) :
    ofText (cs ++ ':' :: rest) = .token (.label (String.ofList cs)) cs.length := by
  obtain ⟨c, hc, hstart⟩ := hcs.start
  obtain ⟨more, rfl⟩ := List.head?_eq_some_iff.mp hc
  have hne : ∀ {d : Char}, (d.isAlpha || d == '_') = false → c ≠ d := by
    rintro d hd rfl
    rw [hstart] at hd
    cases hd
  have hlabel : label? (c :: more ++ ':' :: rest) =
      some (.token (.label (String.ofList (c :: more))) (c :: more).length) := by
    have hcolon : ∀ d ∈ (':' :: rest).head?, isLabelChar d = false := by
      rintro _ ⟨⟩
      decide
    rw [label?, takeWhile_append hcs.all hcolon, List.drop_left]
    simp [hstart]
  rw [List.cons_append] at hlabel ⊢
  rw [ofText_of_ne (hne (by decide)) (hne (by decide)) (hne (by decide)),
    hashInclude?_of_ne (hne (by decide)), hlabel]
  rfl

/-! ### References and strings -/

theorem ofText_labelRef {name rest : Text} (hne : name ≠ [])
    (hname : ∀ c ∈ name, isLabelChar c = true) (hrest : EndsLabel rest) :
    ofText ('&' :: (name ++ rest)) = .token (.labelRef (String.ofList name)) name.length := by
  have hpath : pathRef? ('&' :: (name ++ rest)) = none := by
    obtain ⟨c, more, rfl⟩ := List.exists_cons_of_ne_nil hne
    unfold pathRef?
    split
    · rename_i heq
      have hc := hname c List.mem_cons_self
      rw [(List.cons.inj (List.cons.inj heq).2).1] at hc
      exact absurd hc (by decide)
    · rfl
  have hlabel : labelRef? ('&' :: (name ++ rest)) =
      some (.token (.labelRef (String.ofList name)) name.length) := by
    rw [labelRef?, takeWhile_append hname hrest, if_neg (by simpa using hne)]
  rw [ofText, directive?_of_ne (by decide), hashInclude?_of_ne (by decide), hpath, hlabel]
  rfl

theorem ofText_pathRef {path : Text} (hpath : ∀ c ∈ path, c ≠ '\x7d' ∧ c ≠ '\n') (rest : Text) :
    ofText ('&' :: '\x7b' :: (path ++ '\x7d' :: rest)) =
      .token (.pathRef (String.ofList path)) (path.length + 2) := by
  have hclosed : enclosed? '\x7d' (path ++ '\x7d' :: rest) = some path := by
    rw [enclosed?, takeWhile_append (by simpa using hpath) (by rintro _ ⟨⟩; decide),
      List.drop_left]
    rfl
  have hfound : pathRef? ('&' :: '\x7b' :: (path ++ '\x7d' :: rest)) =
      some (.token (.pathRef (String.ofList path)) (path.length + 2)) := by
    simp only [pathRef?, hclosed]
  rw [ofText, directive?_of_ne (by decide), hashInclude?_of_ne (by decide), hfound]
  rfl

/-- Characters that stand in a string as they are. -/
def IsPlain (cs : Text) : Prop :=
  ∀ c ∈ cs, c ≠ '"' ∧ c ≠ '\\' ∧ c ≠ '\n'

instance (cs : Text) : Decidable (IsPlain cs) :=
  List.decidableBAll (fun c => c ≠ '"' ∧ c ≠ '\\' ∧ c ≠ '\n') cs

theorem stringBody_of_isPlain {cs : Text} (hcs : IsPlain cs) (rest : Text) :
    stringBody (cs ++ '"' :: rest) = ⟨cs, cs.length + 1, true⟩ := by
  induction cs with
  | nil => simp [stringBody]
  | cons c cs ih =>
      obtain ⟨⟨hquote, hescape, hline⟩, hcs⟩ := List.forall_mem_cons.mp hcs
      rw [List.cons_append, stringBody]
      · simp [hquote, hline, ih hcs]
      · simp [hescape]
      · simp [hescape]

theorem ofText_string {cs : Text} (hcs : IsPlain cs) (rest : Text) :
    ofText ('"' :: (cs ++ '"' :: rest)) = .token (.string (String.ofList cs)) (cs.length + 1) := by
  have hfound : string? ('"' :: (cs ++ '"' :: rest)) =
      some (.token (.string (String.ofList cs)) (cs.length + 1)) := by
    simp only [string?, stringBody_of_isPlain hcs]
    rfl
  rw [ofText, hfound]
  rfl

/-! ### Marks and trivia -/

/-- Marks that are read whatever follows them. -/
def marks : List (Char × Token) :=
  [('\x7b', .leftBrace), ('\x7d', .rightBrace), ('<', .leftAngle), ('>', .rightAngle),
    ('[', .leftBracket), (']', .rightBracket), (';', .semicolon), (',', .comma), ('=', .equals)]

theorem ofText_mark {c : Char} {t : Token} (h : (c, t) ∈ marks) (rest : Text) :
    ofText (c :: rest) = .token t 0 := by
  simp only [marks, List.mem_cons, Prod.mk.injEq, List.not_mem_nil, or_false] at h
  rcases h with ⟨rfl, rfl⟩ | ⟨rfl, rfl⟩ | ⟨rfl, rfl⟩ | ⟨rfl, rfl⟩ | ⟨rfl, rfl⟩ | ⟨rfl, rfl⟩ |
    ⟨rfl, rfl⟩ | ⟨rfl, rfl⟩ | ⟨rfl, rfl⟩ <;> rfl

theorem ofText_slash (rest : Text) : ofText ('/' :: ' ' :: rest) = .token .slash 0 := by
  rfl

theorem ofText_newline (rest : Text) : ofText ('\n' :: rest) = .token .newline 0 := by
  rfl

theorem ofText_lineComment {content : Text} (h : '\n' ∉ content) (rest : Text) :
    ofText ('/' :: '/' :: (content ++ '\n' :: rest)) =
      .token (.lineComment (String.ofList content)) (content.length + 1) := by
  have htake : (content ++ '\n' :: rest).takeWhile (· ≠ '\n') = content :=
    takeWhile_append (fun c hc => decide_eq_true fun heq => h (heq ▸ hc)) (by rintro _ ⟨⟩; rfl)
  rw [ofText, lineComment?, htake]
  rfl

/-- The characters of a gap between tokens of one line. -/
def isGap (c : Char) : Bool :=
  Blank.isBlank c && c != '\n'

theorem isWordChar_range {c : Char} (h : isWordChar c = true) : 32 < c.toNat ∧ c.toNat ≤ 128 := by
  have hnat : ∀ {a b : UInt32}, a ≤ b → a.toNat ≤ b.toNat := fun hle => hle
  simp only [isWordChar, Bool.or_eq_true, isAlphanumeric_iff, beq_iff_eq, or_assoc] at h
  rcases h with ⟨hl, hu⟩ | ⟨hl, hu⟩ | ⟨hl, hu⟩ | h
  · exact ⟨Nat.lt_of_lt_of_le (by decide) (hnat hl), Nat.le_trans (hnat hu) (by decide)⟩
  · exact ⟨Nat.lt_of_lt_of_le (by decide) (hnat hl), Nat.le_trans (hnat hu) (by decide)⟩
  · exact ⟨Nat.lt_of_lt_of_le (by decide) (hnat hl), Nat.le_trans (hnat hu) (by decide)⟩
  · rcases h with rfl | rfl | rfl | rfl | rfl | rfl | rfl | rfl <;> decide

theorem isWordChar_of_isGap {c : Char} (h : isGap c = true) : isWordChar c = false := by
  have hrange : c.toNat ≤ 32 ∨ 128 < c.toNat := by
    simp only [isGap, Blank.isBlank, Blank.ranges, List.any_cons, List.any_nil, Bool.or_eq_true,
      Bool.and_eq_true, decide_eq_true_eq, Bool.or_false] at h
    omega
  by_contra hword
  have := isWordChar_range (eq_true_of_ne_false hword)
  omega

theorem mark?_of_isGap {c : Char} (h : isGap c = true) (rest : Text) :
    mark? (c :: rest) = none := by
  unfold mark?
  split
  case h_12 => rfl
  all_goals
    rename_i heq
    rw [(List.cons.inj heq).1] at h
    exact absurd h (by decide)

/-- A gap is read as one blank. -/
theorem ofText_blank {c : Char} (h : isGap c = true) (rest : Text) :
    ofText (c :: rest) = .token .blank (rest.takeWhile isGap).length := by
  have hword := isWordChar_of_isGap h
  have hne : ∀ {d : Char}, isGap d = false → c ≠ d := by
    rintro d hd rfl
    rw [h] at hd
    cases hd
  have hlabel : label? (c :: rest) = none := by
    refine label?_eq_none (List.forall_mem_nil _) ?_
    rintro _ ⟨⟩
    refine ⟨?_, hne (by decide)⟩
    by_contra hl
    rw [isWordChar_of_isLabelChar (eq_true_of_ne_false hl)] at hword
    cases hword
  have hnone : word? (c :: rest) = none := by
    rw [word?, List.takeWhile_cons_of_neg (by simp [hword])]
  have hblank : blank? (c :: rest) = some (.token .blank (rest.takeWhile isGap).length) := by
    have hgap : (c :: rest).takeWhile (fun c => Blank.isBlank c && c != '\n') =
        c :: rest.takeWhile isGap := List.takeWhile_cons_of_pos h
    rw [blank?, hgap]
    rfl
  rw [ofText_of_ne (hne (by decide)) (hne (by decide)) (hne (by decide)),
    hashInclude?_of_ne (hne (by decide)), hlabel, hnone, mark?_of_isGap h, hblank]
  rfl

end Scan

/-- A text that is read without faults, as some tokens and trivia between them. -/
inductive Lexes : Text → List Token → Prop
  | nil : Lexes [] []
  | token {c : Char} {rest : Text} {t : Token} {more : Nat} {ts : List Token}
      (h : Scan.ofText (c :: rest) = .token t more) (ht : t.isTrivia = false)
      (hrest : Lexes (rest.drop more) ts) : Lexes (c :: rest) (t :: ts)
  | trivia {c : Char} {rest : Text} {t : Token} {more : Nat} {ts : List Token}
      (h : Scan.ofText (c :: rest) = .token t more) (ht : t.isTrivia = true)
      (hrest : Lexes (rest.drop more) ts) : Lexes (c :: rest) ts

namespace Lexes

variable {rest : Text} {ts : List Token}

theorem readFrom {cs : Text} (h : Lexes cs ts) (file : FileId) (place : Place) :
    (Tokens.readFrom file place cs).faults = [] ∧
      (((Tokens.readFrom file place cs).lexemes.filter fun l => !l.token.isTrivia).map
        Lexeme.token) = ts := by
  induction h generalizing place with
  | nil => simp [Tokens.readFrom]
  | @token c rest t more ts h ht hrest ih =>
      obtain ⟨hfaults, htokens⟩ := ih (place.walk (c :: rest.take more))
      rw [Tokens.readFrom, h]
      refine ⟨hfaults, ?_⟩
      rw [List.filter_cons_of_pos (by simp [ht]), List.map_cons, htokens]
  | @trivia c rest t more ts h ht hrest ih =>
      obtain ⟨hfaults, htokens⟩ := ih (place.walk (c :: rest.take more))
      rw [Tokens.readFrom, h]
      refine ⟨hfaults, ?_⟩
      rw [List.filter_cons_of_neg (by simp [ht]), htokens]

theorem mark (h : Lexes rest ts) {c : Char} {t : Token} (hmark : (c, t) ∈ Scan.marks) :
    Lexes (c :: rest) (t :: ts) := by
  have htrivia : ∀ m ∈ Scan.marks, m.2.isTrivia = false := by decide
  exact .token (Scan.ofText_mark hmark rest) (htrivia _ hmark) h

theorem slash (h : Lexes (' ' :: rest) ts) : Lexes ('/' :: ' ' :: rest) (.slash :: ts) :=
  .token (Scan.ofText_slash rest) rfl h

theorem newline (h : Lexes rest ts) : Lexes ('\n' :: rest) ts :=
  .trivia (Scan.ofText_newline rest) rfl h

/-- A blank joins the blanks after it. -/
theorem blank (h : Lexes rest ts) : Lexes (' ' :: rest) ts := by
  refine .trivia (Scan.ofText_blank (by decide) rest) rfl ?_
  cases h with
  | nil => exact .nil
  | @token c rest t more ts hscan ht hrest =>
      cases hc : Scan.isGap c with
      | false =>
          rw [List.takeWhile_cons_of_neg (by simp [hc])]
          exact .token hscan ht hrest
      | true =>
          rw [Scan.ofText_blank hc] at hscan
          cases hscan
          cases ht
  | @trivia c rest t more ts hscan ht hrest =>
      cases hc : Scan.isGap c with
      | false =>
          rw [List.takeWhile_cons_of_neg (by simp [hc])]
          exact .trivia hscan ht hrest
      | true =>
          rw [Scan.ofText_blank hc] at hscan
          cases hscan
          rw [List.takeWhile_cons_of_pos hc]
          exact hrest

theorem blanks (h : Lexes rest ts) (n : Nat) : Lexes (List.replicate n ' ' ++ rest) ts := by
  induction n with
  | zero => exact h
  | succ n ih => exact ih.blank

theorem comment (h : Lexes rest ts) {content : Text} (hline : '\n' ∉ content) :
    Lexes ('/' :: '/' :: (content ++ '\n' :: rest)) ts := by
  refine .trivia (Scan.ofText_lineComment hline rest) rfl ?_
  rw [List.drop_succ_cons, List.drop_left]
  exact h.newline

theorem word (h : Lexes rest ts) {text : String} (htext : (Token.word text).Spelled)
    (hrest : Scan.EndsWord rest) : Lexes (text.toList ++ rest) (.word text :: ts) := by
  have hscan := Scan.ofText_word htext hrest
  obtain ⟨c, more, hcs⟩ := List.exists_cons_of_ne_nil htext.ne_nil
  rw [String.ofList_toList] at hscan
  rw [hcs, List.cons_append] at hscan ⊢
  refine .token hscan rfl ?_
  simpa using h

theorem label (h : Lexes rest ts) {name : String} (hname : (Token.label name).Spelled) :
    Lexes (name.toList ++ ':' :: rest) (.label name :: ts) := by
  have hscan := Scan.ofText_label hname rest
  obtain ⟨c, hc, -⟩ := hname.start
  obtain ⟨more, hcs⟩ := List.head?_eq_some_iff.mp hc
  rw [String.ofList_toList] at hscan
  rw [hcs, List.cons_append] at hscan ⊢
  refine .token hscan rfl ?_
  simpa using h

theorem labelRef (h : Lexes rest ts) {name : String} (hname : (Token.labelRef name).Spelled)
    (hrest : Scan.EndsLabel rest) :
    Lexes ('&' :: (name.toList ++ rest)) (.labelRef name :: ts) := by
  have hscan := Scan.ofText_labelRef hname.1 hname.2 hrest
  rw [String.ofList_toList] at hscan
  refine .token hscan rfl ?_
  rwa [List.drop_left]

theorem pathRef (h : Lexes rest ts) {path : String} (hpath : (Token.pathRef path).Spelled) :
    Lexes ('&' :: '\x7b' :: (path.toList ++ '\x7d' :: rest)) (.pathRef path :: ts) := by
  have hscan := Scan.ofText_pathRef hpath rest
  rw [String.ofList_toList] at hscan
  refine .token hscan rfl ?_
  simpa using h

theorem string (h : Lexes rest ts) {content : String} (hcontent : Scan.IsPlain content.toList) :
    Lexes ('"' :: (content.toList ++ '"' :: rest)) (.string content :: ts) := by
  have hscan := Scan.ofText_string hcontent rest
  rw [String.ofList_toList] at hscan
  refine .token hscan rfl ?_
  simpa using h

end Lexes

end Devicetree
