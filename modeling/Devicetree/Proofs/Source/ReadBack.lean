import Devicetree.Proofs.Source.Display
import Devicetree.Proofs.Source.Recognition
import Devicetree.Proofs.Token.Faults

/-!
# Printed values read back

A value of a file as read is printed as text. Put in the place of the one value of a property, this
text is read as the same value, whatever its kind, with one exception: strings are printed without
escapes, so a string with a quote, a backslash or a line end in it is read as another value or not
at all. The main result says that there are no other exceptions.
-/

namespace Devicetree

/-! ### Strings as they are printed -/

namespace Scan

theorem closed_eq_false {cs : Text} (h : '"' ∉ cs) : (stringBody cs).closed = false := by
  fun_induction stringBody cs with
  | case1 => rfl
  | case2 => rfl
  | case3 c cs body ih => exact ih fun hm => h (by simp [hm])
  | case4 => simp at h
  | case5 => rfl
  | case6 c cs hlone hescape hquote hline body ih => exact ih fun hm => h (by simp [hm])

theorem stringBody_cons {c : Char} (h : c ≠ '\\') (cs : Text) :
    stringBody (c :: cs) =
      if c = '"' then ⟨[], 1, true⟩
      else if c = '\n' then ⟨[], 0, false⟩
      else ⟨c :: (stringBody cs).content, (stringBody cs).length + 1, (stringBody cs).closed⟩ := by
  rw [stringBody]
  · simp [h]
  · simp [h]

section Closed

variable {rest : Text} (hrest : '"' ∉ rest)
include hrest

/-- If the last quote is escaped there is none to close the string. -/
theorem closed_of_escaped : (stringBody ('\\' :: '"' :: rest)).closed = false := by
  rw [stringBody]
  exact closed_eq_false hrest

/-- Up to a quote after which there is none, a string has no more characters than were written. -/
theorem length_content_le (cs : Text) (h : (stringBody (cs ++ '"' :: rest)).closed = true) :
    (stringBody (cs ++ '"' :: rest)).content.length ≤ cs.length := by
  induction hn : cs.length using Nat.strongRecOn generalizing cs with
  | ind n ih =>
      subst hn
      cases cs with
      | nil => simp [stringBody]
      | cons c cs =>
          by_cases hc : c = '\\'
          · subst hc
            cases cs with
            | nil =>
                exact absurd h (Bool.eq_false_iff.mp (closed_of_escaped hrest))
            | cons d cs =>
                rw [List.cons_append, List.cons_append, stringBody] at h ⊢
                have hlt : cs.length < ('\\' :: d :: cs).length :=
                  Nat.lt_trans (Nat.lt_succ_self _) (Nat.lt_succ_self _)
                have hle := ih cs.length hlt cs h rfl
                simp only [List.length_cons]
                omega
          · rw [List.cons_append, stringBody_cons hc] at h ⊢
            by_cases hquote : c = '"'
            · simp [hquote]
            · rw [if_neg hquote] at h ⊢
              by_cases hline : c = '\n'
              · simp [hline] at h
              · rw [if_neg hline] at h ⊢
                exact Nat.succ_le_succ (ih cs.length (by simp) cs h rfl)

/-- Only characters that stand for themselves are read as they are written. -/
theorem isPlain_of_content_eq (cs : Text) (h : (stringBody (cs ++ '"' :: rest)).closed = true)
    (heq : (stringBody (cs ++ '"' :: rest)).content = cs) : IsPlain cs := by
  induction cs with
  | nil => exact List.forall_mem_nil _
  | cons c cs ih =>
      by_cases hc : c = '\\'
      · -- An escape takes two characters for one, and the rest cannot make up for it.
        subst hc
        cases cs with
        | nil => exact absurd h (Bool.eq_false_iff.mp (closed_of_escaped hrest))
        | cons d cs =>
            rw [List.cons_append, List.cons_append, stringBody] at h heq
            have hle := length_content_le hrest cs h
            rw [(List.cons.inj heq).2, List.length_cons] at hle
            omega
      · rw [List.cons_append, stringBody_cons hc] at h heq
        by_cases hquote : c = '"'
        · simp [hquote] at heq
        · rw [if_neg hquote] at h heq
          by_cases hline : c = '\n'
          · simp [hline] at h
          · rw [if_neg hline] at h heq
            exact List.forall_mem_cons.mpr ⟨⟨hquote, hc, hline⟩, ih h (List.cons.inj heq).2⟩

end Closed

end Scan

/-! ### Texts and files -/

/-- What is found at a place comes next, unless it stands between tokens. -/
theorem Lexes.inv {c : Char} {rest : Text} {t : Token} {more : Nat} {ts : List Token}
    (h : Lexes (c :: rest) ts) (hscan : Scan.ofText (c :: rest) = .token t more) :
    ∃ us, Lexes (rest.drop more) us ∧ ts = if t.isTrivia then us else t :: us := by
  cases h with
  | token hfound ht hrest =>
      cases hscan.symm.trans hfound
      exact ⟨_, hrest, by rw [if_neg (by simp [ht])]⟩
  | trivia hfound ht hrest =>
      cases hscan.symm.trans hfound
      exact ⟨_, hrest, by rw [if_pos ht]⟩

/-- A string that is read is closed, and what it holds is the first token. -/
theorem Lexes.inv_string {cs : Text} {ts : List Token} (h : Lexes ('"' :: cs) ts) :
    (Scan.stringBody cs).closed = true ∧
      ∃ us, ts = .string (String.ofList (Scan.stringBody cs).content) :: us := by
  have hscan : ∀ {found : Scan}, Scan.string? ('"' :: cs) = some found →
      Scan.ofText ('"' :: cs) = found := by
    intro found hfound
    rw [Scan.ofText, hfound]
    rfl
  cases hclosed : (Scan.stringBody cs).closed with
  | true =>
      obtain ⟨us, -, hts⟩ := h.inv (hscan (by rw [Scan.string?, hclosed, if_pos rfl]))
      exact ⟨rfl, us, hts⟩
  | false =>
      have hfault := hscan (by rw [Scan.string?, hclosed, if_neg Bool.false_ne_true])
      cases h with
      | token hfound => cases hfault.symm.trans hfound
      | trivia hfound => cases hfault.symm.trans hfound

theorem Lexes.inv_mark {c : Char} {t : Token} (hmark : (c, t) ∈ Scan.marks) {rest : Text}
    {ts : List Token} (h : Lexes (c :: rest) ts) : ∃ us, Lexes rest us ∧ ts = t :: us := by
  have htrivia : ∀ m ∈ Scan.marks, m.2.isTrivia = false := by decide
  obtain ⟨us, hus, hts⟩ := h.inv (Scan.ofText_mark hmark rest)
  exact ⟨us, hus, by rw [hts, htrivia _ hmark]; rfl⟩

theorem Lexes.inv_blank {c : Char} (hc : Scan.isGap c = false) {rest : Text} {ts : List Token}
    (h : Lexes (' ' :: c :: rest) ts) : Lexes (c :: rest) ts := by
  obtain ⟨us, hus, rfl⟩ := h.inv (Scan.ofText_blank (by decide) (c :: rest))
  rwa [List.takeWhile_cons_of_neg (by simp [hc])] at hus

/-- What is read without faults is read as its tokens. -/
theorem Tokens.lexes_readFrom (file : FileId) (place : Place) (cs : Text)
    (h : (readFrom file place cs).faults = []) :
    Lexes cs (((readFrom file place cs).lexemes.filter fun l => !l.token.isTrivia).map
      Lexeme.token) := by
  induction hn : cs.length using Nat.strongRecOn generalizing cs place with
  | ind n ih =>
      cases cs with
      | nil =>
          rw [readFrom]
          exact .nil
      | cons c rest =>
          cases hscan : Scan.ofText (c :: rest) with
          | fault fault reach =>
              rw [readFrom, hscan] at h
              cases h
          | token t more =>
              rw [readFrom, hscan] at h ⊢
              have hlt : (rest.drop more).length < n :=
                hn ▸ Nat.lt_succ_of_le (List.drop_sublist more rest).length_le
              have hrest := ih (rest.drop more).length hlt _ _ h rfl
              cases ht : t.isTrivia with
              | true =>
                  rw [List.filter_cons_of_neg (by simp [ht])]
                  exact .trivia hscan ht hrest
              | false =>
                  rw [List.filter_cons_of_pos (by simp [ht]), List.map_cons]
                  exact .token hscan ht hrest

/-- A text is read without diagnostics as some form exactly if it is read as tokens that write
this form. -/
theorem SourceFile.read_clean_iff (file : FileId) (text : Text) (form : FileForm) :
    (read file text).diagnostics = [] ∧ (read file text).form = form ↔
      ∃ ts, Lexes text ts ∧ form.Written ts := by
  constructor
  · rintro ⟨hclean, rfl⟩
    obtain ⟨hfaults, hreports⟩ := List.append_eq_nil_iff.mp hclean
    refine ⟨_, Tokens.lexes_readFrom file Place.origin text hfaults, _,
      items_sound _ _ hreports, ?_⟩
    exact (form_ofLexemes file _).symm
  · rintro ⟨ts, hlexes, items, hitems, rfl⟩
    obtain ⟨hfaults, rfl⟩ := hlexes.readFrom file Place.origin
    obtain ⟨hclean, hform⟩ := ofLexemes_of_written hitems file
    exact ⟨List.append_eq_nil_iff.mpr ⟨hfaults, hclean⟩, hform⟩

/-! ### A property with one value -/

/-- A text that sets the one property `p` of the root to a value. -/
def Value.setting (v : Value) : Text :=
  ("/ \x7b p = " ++ v.text ++ "; \x7d;").toList

/-- A file in which the root has the one property `p`, and this has one value. -/
def ValueForm.setting (v : ValueForm) : FileForm :=
  ⟨[.block [] .root [.leaf (.property ⟨[], "p", [v]⟩)]], []⟩

theorem Value.setting_eq (v : Value) :
    v.setting = '/' :: ' ' :: '\x7b' :: ' ' :: 'p' :: ' ' :: '=' :: ' ' ::
      (v.text.toList ++ ';' :: ' ' :: '\x7d' :: ';' :: []) := by
  simp [setting]

theorem endsWord_equals (rest : Text) : Scan.EndsWord (' ' :: '=' :: rest) :=
  .blank (by decide) rest

theorem spelled_p : (Token.word "p").Spelled :=
  ⟨by decide, by decide, List.all_eq_true.mp (by decide)⟩

theorem ValueForm.written_setting {v : ValueForm} {us : List Token} (hv : v.Written us) :
    v.setting.Written ([.slash, .leftBrace, .word "p", .equals] ++ us ++
      [.semicolon, .rightBrace, .semicolon]) := by
  have hleaf : StatementForm.Written (.leaf (.property ⟨[], "p", [v]⟩))
      (.word "p" :: (.equals :: us ++ [.semicolon])) := by
    have hassigned := ValueForm.Assigned.values hv .nil
    rw [List.append_nil] at hassigned
    exact .leaf (.property [] "p" hassigned)
  have hblock := StatementForm.Written.block [] .root (.cons hleaf .nil)
  refine ⟨[.statement (.block [] .root [.leaf (.property ⟨[], "p", [v]⟩)])], ?_, rfl⟩
  have hall := ItemForm.AllWritten.cons (.statement hblock) .nil
  simpa using hall

/-- The value is what follows the equals sign. -/
theorem ValueForm.exists_of_setting {v : ValueForm} {ts : List Token}
    (h : v.setting.Written (.slash :: .leftBrace :: .word "p" :: .equals :: ts)) :
    ∃ us vs, v.Written us ∧ ts = us ++ vs := by
  obtain ⟨items, hall, hitems⟩ := h
  generalize hts : Token.slash :: .leftBrace :: .word "p" :: .equals :: ts = all at hall
  cases hall with
  | nil => cases hts
  | @cons item items first others hitem _ =>
      -- No other item than a statement begins with a slash.
      cases hitem with
      | @statement s _ hs =>
          obtain ⟨rfl, -⟩ := List.cons.inj (congrArg FileForm.statements hitems)
          cases hs with
          | block _ htarget hbody =>
              cases hbody with
              | cons hleaf hnone =>
                  cases hleaf with
                  | leaf hleaf =>
                      cases hleaf with
                      | property _ _ hvalues =>
                          cases hvalues with
                          | @values _ _ us _ hv hmore =>
                              simp only [List.map_nil, List.nil_append, List.cons_append,
                                List.append_assoc, List.cons.injEq] at hts
                              exact ⟨us, _, hv, hts.2.2.2.2⟩
      | _ => cases hts

/-- A printed string that is read back has nothing to escape. -/
theorem Value.isPlain_of_lexes {v : Value} {ts : List Token} (hlexes : Lexes v.setting ts)
    (hts : v.form.setting.Written ts) : v.IsPlain := by
  cases v with
  | string content =>
      have htext : (Value.string content).text.toList = '"' :: (content.value.toList ++ ['"']) := by
        simp [text]
      rw [setting_eq, htext, List.cons_append, List.append_assoc] at hlexes
      obtain ⟨_, hbrace, rfl⟩ := hlexes.inv (Scan.ofText_slash _)
      obtain ⟨_, hname, rfl⟩ := Lexes.inv_mark (t := .leftBrace) (by decide) (hbrace.inv_blank rfl)
      obtain ⟨_, hequals, rfl⟩ :=
        (hname.inv_blank rfl).inv (Scan.ofText_word spelled_p (endsWord_equals _))
      obtain ⟨_, hvalue, rfl⟩ := Lexes.inv_mark (t := .equals) (by decide) (hequals.inv_blank rfl)
      obtain ⟨hclosed, us, rfl⟩ := (hvalue.inv_blank rfl).inv_string
      obtain ⟨_, vs, hv, heq⟩ := ValueForm.exists_of_setting hts
      cases hv with
      | string _ =>
          have hcontent : content.value.toList = _ :=
            congrArg String.toList (Token.string.inj (List.cons.inj heq).1.symm)
          rw [String.toList_ofList] at hcontent
          exact Scan.isPlain_of_content_eq (by decide) _ hclosed hcontent.symm
  | cells cells span => trivial
  | bytes content => trivial
  | reference ref => trivial

/-- A value that has nothing to escape is read back as it was printed. -/
theorem Value.exists_lexes_setting {v : Value} (hv : v.form.Lexical) (hplain : v.IsPlain) :
    ∃ ts, Lexes v.setting ts ∧ v.form.setting.Written ts := by
  obtain ⟨us, hus, hlexes⟩ := Value.lexes_text hv hplain
  have hend : Scan.EndsLabel [';', ' ', '\x7d', ';'] := by
    rintro _ ⟨⟩
    decide
  have htail : Lexes [';', ' ', '\x7d', ';'] [.semicolon, .rightBrace, .semicolon] :=
    (((Lexes.nil.mark (t := .semicolon) (by decide)).mark (by decide)).blank).mark (by decide)
  refine ⟨_, ?_, ValueForm.written_setting hus⟩
  have hvalue := (hlexes hend htail).blank.mark (c := '=') (t := .equals) (by decide)
  have hname := hvalue.blank.word spelled_p (endsWord_equals _)
  have hroot := (hname.blank.mark (c := '\x7b') (t := .leftBrace) (by decide)).blank.slash
  rw [setting_eq]
  simpa using hroot

def Statement.values : Statement → List Value
  | property p => p.values
  | _ => []

namespace SourceFile

/-- The values of all properties of a file, at any depth. -/
def values (f : SourceFile) : List Value :=
  (Statement.allIn f.statements).flatMap Statement.values

theorem Parsed.lexical_value {f : SourceFile} (hf : f.Parsed) {v : Value} (hv : v ∈ f.values) :
    v.form.Lexical := by
  obtain ⟨s, hs, hv⟩ := List.mem_flatMap.mp hv
  cases s with
  | property p => exact (hf.lexical _ hs).property.values _ (List.mem_map_of_mem hv)
  | block head body => cases hv
  | deleteNode delete => cases hv
  | deleteProperty delete => cases hv

/-- A value of a file as read, printed as the one value of a property, is read back without
diagnostics exactly if it is no string with a quote, a backslash or a line end in it. -/
theorem value_reads_back_iff {f : SourceFile} (hf : f.Parsed) {v : Value} (hv : v ∈ f.values)
    (file : FileId) :
    ((read file v.setting).diagnostics = [] ∧ (read file v.setting).form = v.form.setting) ↔
      v.IsPlain := by
  rw [read_clean_iff]
  constructor
  · rintro ⟨ts, hlexes, hts⟩
    exact Value.isPlain_of_lexes hlexes hts
  · exact Value.exists_lexes_setting (hf.lexical_value hv)

/-- Values of every kind, read from `/{p=<0x1F u &a &{/b@01}>,"s",[0Aff],&{/};};`. -/
def valuesFile : SourceFile :=
  .read ⟨0⟩ "/\x7bp=<0x1F u &a &\x7b/b@01\x7d>,\"s\",[0Aff],&\x7b/\x7d;\x7d;".toList

theorem valuesFile_reads_back :
    valuesFile.values.map Value.text =
      ["<0x1f u &a &\x7b/b@1\x7d>", "\"s\"", "[0a ff]", "&\x7b/\x7d"] ∧
    ∀ v ∈ valuesFile.values,
      (read ⟨1⟩ v.setting).diagnostics = [] ∧ (read ⟨1⟩ v.setting).form = v.form.setting := by
  have hplain : ∀ v ∈ valuesFile.values, v.IsPlain := by decide +kernel
  refine ⟨by decide +kernel, fun v hv => ?_⟩
  exact (value_reads_back_iff ⟨_, rfl⟩ hv ⟨1⟩).mpr (hplain v hv)

/-- A string with a quote in it, read from `/{p="a\"b";};`. -/
def quotedFile : SourceFile :=
  .read ⟨0⟩ "/\x7bp=\"a\\\"b\";\x7d;".toList

/-- It is printed so that the string ends at its quote. -/
theorem quotedFile_not_read_back :
    quotedFile.diagnostics = [] ∧
      ∃ v ∈ quotedFile.values, v.text = "\"a\"b\"" ∧ (read ⟨1⟩ v.setting).diagnostics ≠ [] := by
  decide +kernel

end SourceFile

end Devicetree
