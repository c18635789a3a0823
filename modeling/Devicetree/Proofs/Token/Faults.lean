import Devicetree.Proofs.Token.Lexing
import Devicetree.Proofs.Token.Verbatim

/-!
# Where reading a token fails

A fault is noticed at a definite place. A string, a path reference or a comment is opened there
and cannot be closed: the string and the path because their line or the text ends first, the
comment because its end mark is nowhere in the rest of the text. Otherwise the first character
fits no class of tokens.
-/

namespace Devicetree

/-- What may stand in a string literal: escapes of any character, and all characters but a quote, a
backslash and a newline. -/
inductive Scan.StringContent : Text → Prop
  | nil : StringContent []
  | escape (c : Char) {cs : Text} (h : StringContent cs) : StringContent ('\\' :: c :: cs)
  | plain {c : Char} (hc : c ∉ ['"', '\\', '\n']) {cs : Text} (h : StringContent cs) :
      StringContent (c :: cs)

/-- A fault at the beginning of a text that is noticed after so many characters. -/
inductive Fault.Noticed : Fault → Text → Nat → Prop
  /-- After the content of a string comes the end of the line or of the text, before which a
  backslash escapes nothing. -/
  | string {body after : Text} (hbody : Scan.StringContent body)
      (hafter : after = [] ∨ after = ['\\'] ∨ after.head? = some '\n') :
      Noticed .unterminatedString ('"' :: (body ++ after)) (body.length + 1)
  /-- A comment without an end is noticed where it is opened. -/
  | comment {cs : Text} (h : ¬ ['*', '/'] <:+: cs) :
      Noticed .unterminatedComment ('/' :: '*' :: cs) 2
  | path {body after : Text} (hbody : ∀ c ∈ body, c ≠ '\x7d' ∧ c ≠ '\n')
      (hafter : after = [] ∨ after.head? = some '\n') :
      Noticed .unterminatedPath ('&' :: '\x7b' :: (body ++ after)) (body.length + 2)
  /-- No token begins with the character. An ampersand begins one only together with the next. -/
  | character {c : Char} {rest : Text} (hword : Scan.isWordChar c = false)
      (hblank : Blank.isBlank c = false)
      (hmark : c ∉ ['/', '"', '\x7b', '\x7d', '<', '>', '[', ']', ';', '='])
      (href : c = '&' → ∀ d ∈ rest.head?, d ≠ '\x7b' ∧ Scan.isLabelChar d = false) :
      Noticed .unexpectedCharacter (c :: rest) 0

namespace Scan

/-! ### Tokens that are opened and not closed -/

/-- A backslash escapes the next character, or stands alone. -/
theorem ne_backslash {c : Char} {cs : Text} (hlone : c = '\\' → cs = [] → False)
    (hescape : ∀ d rest, c = '\\' → cs = d :: rest → False) : c ≠ '\\' := by
  intro hc
  cases cs with
  | nil => exact hlone hc rfl
  | cons d rest => exact hescape d rest hc rfl

theorem exists_of_stringBody {cs : Text} (h : (stringBody cs).closed = false) :
    ∃ body after, cs = body ++ after ∧ body.length = (stringBody cs).length ∧
      StringContent body ∧ (after = [] ∨ after = ['\\'] ∨ after.head? = some '\n') := by
  fun_induction stringBody cs with
  | case1 => exact ⟨[], [], rfl, rfl, .nil, .inl rfl⟩
  | case2 => exact ⟨[], ['\\'], rfl, rfl, .nil, .inr (.inl rfl)⟩
  | case3 c cs body ih =>
      obtain ⟨content, after, hcs, hlength, hcontent, hafter⟩ := ih h
      refine ⟨'\\' :: c :: content, after, ?_, ?_, .escape c hcontent, hafter⟩
      · rw [List.cons_append, List.cons_append, ← hcs]
      · rw [List.length_cons, List.length_cons, hlength]
  | case4 => cases h
  | case5 cs hescape hquote => exact ⟨[], '\n' :: cs, rfl, rfl, .nil, .inr (.inr rfl)⟩
  | case6 c cs hlone hescape hquote hnewline body ih =>
      obtain ⟨content, after, hcs, hlength, hcontent, hafter⟩ := ih h
      have hbackslash := ne_backslash hlone hescape
      refine ⟨c :: content, after, ?_, ?_, .plain ?_ hcontent, hafter⟩
      · rw [List.cons_append, ← hcs]
      · rw [List.length_cons, hlength]
      · simp [hquote, hnewline, hbackslash]

theorem noticed_string? {cs : Text} {fault : Fault} {reach : Nat}
    (h : string? cs = some (.fault fault reach)) : fault.Noticed cs reach := by
  unfold string? at h
  split at h
  · dsimp only at h
    split at h
    · cases h
    · rename_i cs hclosed
      cases h
      obtain ⟨body, after, hcs, hlength, hbody, hafter⟩ :=
        exists_of_stringBody (eq_false_of_ne_true hclosed)
      rw [← hlength, hcs]
      exact .string hbody hafter
  · cases h

theorem not_infix_of_commentBody? {cs : Text} (h : commentBody? cs = none) :
    ¬ ['*', '/'] <:+: cs := by
  fun_induction commentBody? cs with
  | case1 => cases h
  | case2 c cs hend ih =>
      intro hinfix
      rcases List.infix_cons_iff.mp hinfix with hbegins | hlater
      · obtain ⟨rest, hrest⟩ := hbegins
        cases hrest
        exact hend rest rfl rfl
      · exact ih (Option.map_eq_none_iff.mp h) hlater
  | case3 => simp

theorem noticed_blockComment? {cs : Text} {fault : Fault} {reach : Nat}
    (h : blockComment? cs = some (.fault fault reach)) : fault.Noticed cs reach := by
  unfold blockComment? at h
  split at h
  · split at h
    · cases h
    · rename_i hbody
      cases h
      exact .comment (not_infix_of_commentBody? hbody)
  · cases h

/-- Text that is not closed on its line goes to the end of it. -/
theorem exists_of_enclosed? {close : Char} {cs : Text} (h : enclosed? close cs = none) :
    ∃ after, cs = cs.takeWhile (fun c => c ≠ close ∧ c ≠ '\n') ++ after ∧
      (after = [] ∨ after.head? = some '\n') := by
  generalize hp : (fun c => decide (c ≠ close ∧ c ≠ '\n')) = p
  have hrest : cs.drop (cs.takeWhile p).length = cs.dropWhile p := by
    calc cs.drop (cs.takeWhile p).length
        = (cs.takeWhile p ++ cs.dropWhile p).drop (cs.takeWhile p).length := by
          rw [List.takeWhile_append_dropWhile]
      _ = cs.dropWhile p := List.drop_left
  rw [enclosed?, hp, hrest] at h
  refine ⟨cs.dropWhile p, List.takeWhile_append_dropWhile.symm, ?_⟩
  cases hafter : cs.dropWhile p with
  | nil => exact .inl rfl
  | cons c after =>
      have hstop := List.head?_dropWhile_not p cs
      rw [hafter] at hstop h
      simp [← hp] at hstop h
      exact .inr (congrArg some (hstop h))

theorem noticed_pathRef? {cs : Text} {fault : Fault} {reach : Nat}
    (h : pathRef? cs = some (.fault fault reach)) : fault.Noticed cs reach := by
  unfold pathRef? at h
  split at h
  · rename_i cs
    split at h
    · cases h
    · rename_i hopen
      cases h
      obtain ⟨after, hcs, hafter⟩ := exists_of_enclosed? hopen
      conv => enter [2]; rw [hcs]
      exact .path (fun c hc => by simpa using List.mem_takeWhile_imp hc) hafter
  · cases h

/-! ### Characters that begin no token -/

theorem takeWhile_cons_eq_nil {p : Char → Bool} {c : Char} {rest : Text}
    (h : (c :: rest).takeWhile p = []) : p c = false := by
  cases hc : p c with
  | false => rfl
  | true =>
      rw [List.takeWhile_cons_of_pos hc] at h
      cases h

theorem not_mem_of_mark? {c : Char} {rest : Text} (h : mark? (c :: rest) = none) :
    c ∉ ['/', '\x7b', '\x7d', '<', '>', '[', ']', ';', ',', '=', '\n'] := by
  intro hc
  simp only [List.mem_cons, List.not_mem_nil, or_false] at hc
  rcases hc with rfl | rfl | rfl | rfl | rfl | rfl | rfl | rfl | rfl | rfl | rfl <;> cases h

theorem isWordChar_of_word? {c : Char} {rest : Text} (h : word? (c :: rest) = none)
    (hcomma : c ≠ ',') : isWordChar c = false := by
  cases hc : isWordChar c with
  | false => rfl
  | true =>
      unfold word? at h
      dsimp only at h
      rw [List.takeWhile_cons_of_pos hc] at h
      split at h
      · rename_i heq
        cases heq
      · rename_i heq
        exact absurd (List.cons.inj heq).1 hcomma
      · cases h

theorem isBlank_of_blank? {c : Char} {rest : Text} (h : blank? (c :: rest) = none)
    (hnewline : c ≠ '\n') : Blank.isBlank c = false := by
  unfold blank? at h
  dsimp only at h
  split at h
  · rename_i hgap
    have hc := takeWhile_cons_eq_nil (List.isEmpty_iff.mp hgap)
    simpa [hnewline] using hc
  · cases h

theorem next_of_references {rest : Text} (hpath : pathRef? ('&' :: rest) = none)
    (hlabel : labelRef? ('&' :: rest) = none) :
    ∀ d ∈ rest.head?, d ≠ '\x7b' ∧ isLabelChar d = false := by
  intro d hd
  obtain ⟨rest, rfl⟩ := List.head?_eq_some_iff.mp hd
  constructor
  · rintro rfl
    rw [pathRef?] at hpath
    split at hpath <;> cases hpath
  · rw [labelRef?] at hlabel
    split at hlabel
    · rename_i hname
      exact takeWhile_cons_eq_nil (List.isEmpty_iff.mp hname)
    · cases hlabel

/-! ### The first class that fits -/

/-- A class of tokens that may not fit, but does not fail once it does. -/
def Faultless (found : Option Scan) : Prop :=
  ∀ fault reach, found ≠ some (.fault fault reach)

theorem faultless_lineComment? (cs : Text) : Faultless (lineComment? cs) := by
  intro fault reach
  unfold lineComment?
  split <;> simp

theorem faultless_directive? (cs : Text) : Faultless (directive? cs) := by
  intro fault reach
  simp [directive?]

theorem faultless_hashInclude? (cs : Text) : Faultless (hashInclude? cs) := by
  intro fault reach
  unfold hashInclude?
  dsimp only
  repeat' split
  all_goals simp

theorem faultless_labelRef? (cs : Text) : Faultless (labelRef? cs) := by
  intro fault reach
  unfold labelRef?
  dsimp only
  repeat' split
  all_goals simp

theorem faultless_label? (cs : Text) : Faultless (label? cs) := by
  intro fault reach
  unfold label?
  dsimp only
  repeat' split
  all_goals simp

theorem faultless_word? (cs : Text) : Faultless (word? cs) := by
  intro fault reach
  unfold word?
  dsimp only
  split <;> simp

theorem faultless_mark? (cs : Text) : Faultless (mark? cs) := by
  intro fault reach
  unfold mark?
  split <;> simp

theorem faultless_blank? (cs : Text) : Faultless (blank? cs) := by
  intro fault reach
  unfold blank?
  dsimp only
  split <;> simp

/-- A class of tokens whose faults are those that can be noticed in a text. -/
def Notices (cs : Text) (found : Option Scan) : Prop :=
  ∀ ⦃fault reach⦄, found = some (.fault fault reach) → fault.Noticed cs reach

theorem Notices.orElse {cs : Text} {a b : Option Scan} (ha : Notices cs a) (hb : Notices cs b) :
    Notices cs (a <|> b) := by
  cases a with
  | none => exact hb
  | some s => exact ha

theorem Faultless.notices {found : Option Scan} (h : Faultless found) (cs : Text) :
    Notices cs found :=
  fun fault reach hfault => absurd hfault (h fault reach)

/-- Where no class fits, the first character begins no token. -/
theorem noticed_character {c : Char} {rest : Text} (hstring : string? (c :: rest) = none)
    (hpath : pathRef? (c :: rest) = none) (hlabel : labelRef? (c :: rest) = none)
    (hword : word? (c :: rest) = none) (hmark : mark? (c :: rest) = none)
    (hblank : blank? (c :: rest) = none) : Fault.Noticed .unexpectedCharacter (c :: rest) 0 := by
  have hmarks := not_mem_of_mark? hmark
  simp only [List.mem_cons, List.not_mem_nil, or_false, not_or] at hmarks
  have hquote : c ≠ '"' := by
    rintro rfl
    rw [string?] at hstring
    split at hstring <;> cases hstring
  apply Fault.Noticed.character
  · exact isWordChar_of_word? hword (by simp [hmarks])
  · exact isBlank_of_blank? hblank (by simp [hmarks])
  · simp [hmarks, hquote]
  · rintro rfl
    exact next_of_references hpath hlabel

/-- A fault is found where it can be noticed. -/
theorem noticed_ofText {c : Char} {rest : Text} {fault : Fault} {reach : Nat}
    (h : ofText (c :: rest) = .fault fault reach) : fault.Noticed (c :: rest) reach := by
  generalize hcs : c :: rest = cs at h
  have hclasses := ((faultless_lineComment? cs).notices cs).orElse <|
    Notices.orElse (fun _ _ => noticed_blockComment?) <|
    Notices.orElse (fun _ _ => noticed_string?) <|
    ((faultless_directive? cs).notices cs).orElse <|
    ((faultless_hashInclude? cs).notices cs).orElse <|
    Notices.orElse (fun _ _ => noticed_pathRef?) <|
    ((faultless_labelRef? cs).notices cs).orElse <| ((faultless_label? cs).notices cs).orElse <|
    ((faultless_word? cs).notices cs).orElse <| ((faultless_mark? cs).notices cs).orElse <|
    (faultless_blank? cs).notices cs
  rw [ofText] at h
  cases hfound : (lineComment? cs <|> blockComment? cs <|> string? cs <|> directive? cs <|>
      hashInclude? cs <|> pathRef? cs <|> labelRef? cs <|> label? cs <|> word? cs <|> mark? cs <|>
      blank? cs) with
  | some s =>
      rw [hfound] at h
      exact hclasses (hfound.trans (congrArg some h))
  | none =>
      rw [hfound] at h
      cases h
      simp only [Option.orElse_eq_orElse, Option.orElse_eq_or, Option.or_eq_none_iff] at hfound
      obtain ⟨-, -, hstring, -, -, hpath, hlabel, -, hword, hmark, hblank⟩ := hfound
      subst hcs
      exact noticed_character hstring hpath hlabel hword hmark hblank

end Scan

end Devicetree
