import Devicetree.Proofs.Source.Lexical
import Devicetree.Proofs.Token.Lexing

/-!
# Values read back

The written form of a value is read as tokens that the grammar takes for the same value. Strings
are written without escapes, so this needs that their characters stand for themselves. Numbers,
bytes and paths may be written otherwise than they were read, but mean the same.
-/

namespace Devicetree

/-! ### Numbers -/

namespace Numeral

theorem dropSuffix_of_not {cs : List Char} (h : ∀ c ∈ cs, isSuffixLetter c = false) :
    dropSuffix cs = cs := by
  have hkeep : cs.reverse.dropWhile isSuffixLetter = cs.reverse := by
    rw [List.dropWhile_eq_self_iff]
    intro hl
    rw [h _ (List.mem_reverse.mp (List.getElem_mem hl))]
    exact Bool.false_ne_true
  rw [dropSuffix, hkeep, List.reverse_reverse]

theorem isSuffixLetter_of_digit {c : Char} (h : digit? 16 c ≠ none) : isSuffixLetter c = false := by
  by_contra hletter
  simp only [Bool.not_eq_false, isSuffixLetter, Bool.or_eq_true, beq_iff_eq, or_assoc] at hletter
  rcases hletter with rfl | rfl | rfl | rfl <;> exact h (by decide)

theorem toList_cellText (n : UInt64) :
    (cellText n).toList = '0' :: 'x' :: (hex n.toNat).toList := by
  rw [cellText, String.toList_append]
  rfl

theorem cell?_cellText (n : UInt64) : cell? (cellText n) = some n := by
  have hdigits : ∀ c ∈ '0' :: 'x' :: (hex n.toNat).toList, isSuffixLetter c = false := by
    simp only [List.forall_mem_cons]
    exact ⟨by decide, by decide, fun c hc => isSuffixLetter_of_digit (digit?_of_mem_hex hc)⟩
  rw [cell?, toList_cellText, dropSuffix_of_not hdigits]
  exact word?_hex n

theorem spelled_cellText (n : UInt64) : (Token.word (cellText n)).Spelled := by
  rw [Token.Spelled, toList_cellText]
  refine ⟨List.cons_ne_nil _ _, by simp, ?_⟩
  simp only [List.forall_mem_cons]
  refine ⟨by decide, by decide, fun c hc => Scan.isWordChar_of_alphanumeric ?_⟩
  exact Scan.isAlphanumeric_of_digit (digit?_of_mem_hex hc)

theorem toList_byteText (b : UInt8) :
    (byteText b).toList = [Nat.digitChar (b.toNat / 16), Nat.digitChar (b.toNat % 16)] :=
  String.toList_ofList

theorem digit?_byteText (b : UInt8) :
    digit? 16 (Nat.digitChar (b.toNat / 16)) = some (b.toNat / 16) ∧
      digit? 16 (Nat.digitChar (b.toNat % 16)) = some (b.toNat % 16) := by
  have hb : b.toNat < 256 := b.toNat_lt
  exact ⟨digit?_digitChar _ (by omega), digit?_digitChar _ (by omega)⟩

theorem plus_ne_of_digit {base d : Nat} {c : Char} (h : digit? base c = some d) : c ≠ '+' := by
  rintro rfl
  cases h

theorem bytePairs?_byteText (b : UInt8) : bytePairs? (byteText b).toList = some [b] := by
  obtain ⟨hhigh, hlow⟩ := digit?_byteText b
  have hplus := plus_ne_of_digit hhigh
  have hnatural : natural? 16 (byteText b).toList = some b.toNat := by
    have hadd : (0 * 16 + b.toNat / 16) * 16 + b.toNat % 16 = b.toNat := by omega
    rw [toList_byteText, natural?_of_not_mem (by simp [hplus.symm, plus_ne_of_digit hlow |>.symm])]
    simp only [digits?, extend?, hhigh, hlow, Option.bind_some, hadd]
  have hbyte : byte? (byteText b).toList = some b := by
    have hfits : b.toNat < UInt8.size := b.toNat_lt
    rw [byte?, hnatural, Option.filter_some, if_pos (decide_eq_true hfits), Option.map_some,
      UInt8.ofNat_toNat]
  rw [toList_byteText] at hbyte ⊢
  simp only [bytePairs?, hbyte]
  rfl

theorem spelled_byteText (b : UInt8) : (Token.word (byteText b)).Spelled := by
  obtain ⟨hhigh, hlow⟩ := digit?_byteText b
  have hword : ∀ {c : Char} {d : Nat}, digit? 16 c = some d → Scan.isWordChar c = true :=
    fun h => Scan.isWordChar_of_alphanumeric
      (Scan.isAlphanumeric_of_digit (h ▸ Option.some_ne_none _))
  rw [Token.Spelled, toList_byteText]
  refine ⟨List.cons_ne_nil _ _, fun hcomma => ?_, ?_⟩
  · rw [Option.some.inj hcomma] at hhigh
    cases hhigh
  · simp only [List.forall_mem_cons]
    exact ⟨hword hhigh, hword hlow, List.forall_mem_nil _⟩

end Numeral

/-! ### References -/

/-- A name that stands between the slashes of a path reference. -/
structure UnitName.IsSegment (n : UnitName) : Prop where
  read_text : read n.text = n
  ne_nil : n.text.toList ≠ []
  chars : ∀ c ∈ n.text.toList, c ≠ '/' ∧ c ≠ '\x7d' ∧ c ≠ '\n'

theorem ReferenceForm.isSegment_of_mem {path : String} (hpath : (Token.pathRef path).Spelled)
    {n : UnitName} (hn : n ∈ segmentsOf path) : n.IsSegment := by
  obtain ⟨segment, hsegment, rfl⟩ := List.mem_map.mp hn
  obtain ⟨hsegment, hne⟩ := List.mem_filter.mp hsegment
  refine ⟨UnitName.read_text _, UnitName.text_ne_nil (by simpa using hne), fun c hc => ?_⟩
  rcases UnitName.mem_text hc with hc | rfl | hc
  · rw [String.toList_ofList] at hc
    obtain ⟨hmem, hslash⟩ := mem_of_mem_splitOn hsegment c hc
    exact ⟨hslash, hpath c hmem⟩
  · decide
  · refine ⟨?_, ?_, ?_⟩ <;> rintro rfl <;> exact hc (by decide)

theorem PathRef.toList_text (path : PathRef) :
    path.text.toList =
      '/' :: ['/'].intercalate ((path.segments.map (·.value)).map (·.text.toList)) := by
  obtain ⟨id, segments, span⟩ := path
  cases segments with
  | nil => simp [text]
  | cons segment segments =>
      simp only [List.map_cons]
      rw [cons_intercalate, text]
      simp [String.toList_join, List.flatMap_map]

/-- A path is read back as the names it goes through. -/
theorem ReferenceForm.segmentsOf_of_names {names : List UnitName} {path : String}
    (hpath : path.toList = '/' :: ['/'].intercalate (names.map (·.text.toList)))
    (hnames : ∀ n ∈ names, n.IsSegment) : segmentsOf path = names := by
  have hslash : ∀ n ∈ names, '/' ∉ n.text.toList :=
    fun n hn hmem => ((hnames n hn).chars _ hmem).1 rfl
  have hsplit := UnitName.splitOn_intercalate (fun n hn => (hnames n hn).ne_nil) hslash
  rw [segmentsOf, hpath, List.splitOn_cons_eq_if_modifyHead, if_pos (beq_self_eq_true _),
    List.filter_cons_of_neg (by simp), hsplit, List.map_map]
  calc names.map _ = names.map id := List.map_congr_left fun n hn => by
        rw [Function.comp_apply, String.ofList_toList, (hnames n hn).read_text, id]
    _ = names := List.map_id names

theorem PathRef.spelled_text {path : PathRef} (h : ∀ n ∈ path.segments, n.value.IsSegment) :
    (Token.pathRef path.text).Spelled := by
  intro c hc
  rw [PathRef.text] at hc
  split at hc
  · obtain rfl : c = '/' := by simpa using hc
    decide
  · rw [String.toList_join, List.mem_flatMap] at hc
    obtain ⟨_, hmem, hc⟩ := hc
    obtain ⟨n, hn, rfl⟩ := List.mem_map.mp hmem
    rw [String.toList_append] at hc
    rcases List.mem_append.mp hc with hc | hc
    · obtain rfl : c = '/' := by simpa using hc
      decide
    · exact ((h n hn).chars c hc).2

/-- The written form of a reference is read as one token where no label goes on after it. -/
theorem Reference.lexes_text {ref : Reference} {t : Token} (ht : ref.form.Written t)
    (hspelled : t.Spelled) :
    ∃ u, ref.form.Written u ∧ ∀ {rest ts}, Scan.EndsLabel rest → Lexes rest ts →
      Lexes (ref.text.toList ++ rest) (u :: ts) := by
  generalize hform : ref.form = form at ht ⊢
  cases ht with
  | label name =>
      cases ref with
      | path ref => cases hform
      | label ref =>
          cases hform
          refine ⟨_, .label ref.label, fun hend h => ?_⟩
          rw [text, String.toList_append]
          exact h.labelRef hspelled hend
  | path path =>
      cases ref with
      | label ref => cases hform
      | path ref =>
          have hnames : ref.segments.map (·.value) = ReferenceForm.segmentsOf path :=
            ReferenceForm.path.inj hform
          have hsegments : ∀ n ∈ ref.segments.map (·.value), n.IsSegment :=
            fun n hn => ReferenceForm.isSegment_of_mem hspelled (hnames ▸ hn)
          rw [← hnames, ← ReferenceForm.segmentsOf_of_names ref.toList_text hsegments]
          refine ⟨_, .path ref.text, fun _ h => ?_⟩
          rw [text, String.toList_append, String.toList_append, List.append_assoc,
            List.append_assoc]
          exact h.pathRef (PathRef.spelled_text (List.forall_mem_map.mp hsegments))

theorem Reference.toList_text (ref : Reference) : ∃ more, ref.text.toList = '&' :: more := by
  cases ref with
  | label ref => exact ⟨_, String.toList_append⟩
  | path ref => exact ⟨_, by rw [text, String.toList_append, String.toList_append]; rfl⟩

/-! ### Lists of cells and bytes -/

/-- A text that is read as one token wherever a word may end after it. -/
structure ReadsAs (cs : Text) (t : Token) : Prop where
  head : ∃ c more, cs = c :: more ∧ c ∉ [' ', '\t', '"', '<']
  lexes : ∀ {rest ts}, Scan.EndsWord rest → Lexes rest ts → Lexes (cs ++ rest) (t :: ts)

theorem readsAs_word {text : String} (h : (Token.word text).Spelled) :
    ReadsAs text.toList (.word text) where
  head := by
    obtain ⟨c, more, hcs⟩ := List.exists_cons_of_ne_nil h.ne_nil
    have hword := h.all c (hcs ▸ List.mem_cons_self)
    refine ⟨c, more, hcs, fun hc => ?_⟩
    simp only [List.mem_cons, List.not_mem_nil, or_false] at hc
    rcases hc with rfl | rfl | rfl | rfl <;> exact absurd hword (by decide)
  lexes hend hrest := hrest.word h hend

/-- Texts with a blank between them. -/
theorem Lexes.spaced {css : List Text} {us : List Token} (h : List.Forall₂ ReadsAs css us)
    {rest : Text} {ts : List Token} (hend : Scan.EndsWord rest) (hrest : Lexes rest ts) :
    Lexes ([' '].intercalate css ++ rest) (us ++ ts) := by
  induction h with
  | nil => exact hrest
  | @cons cs u css us hcs hcss ih =>
      cases hcss with
      | nil =>
          rw [List.intercalate_singleton]
          exact hcs.lexes hend hrest
      | @cons ds v dss vs hds hdss =>
          rw [List.intercalate_cons_cons, List.append_assoc, List.append_assoc]
          refine hcs.lexes ?_ ih.blank
          obtain ⟨c, more, rfl, hc⟩ := hds.head
          cases dss with
          | nil => exact .blank hc _
          | cons es dss =>
              rw [List.intercalate_cons_cons]
              exact .blank hc _

/-- Texts with a blank between them, enclosed in two marks. -/
theorem Lexes.enclosed {css : List Text} {us : List Token} (h : List.Forall₂ ReadsAs css us)
    {left right : Char} {l r : Token} (hl : (left, l) ∈ Scan.marks) (hr : (right, r) ∈ Scan.marks)
    {rest : Text} {ts : List Token} (hend : Scan.EndsWord (right :: rest)) (hrest : Lexes rest ts) :
    Lexes (left :: ([' '].intercalate css ++ right :: rest)) (l :: (us ++ [r]) ++ ts) := by
  rw [List.cons_append, List.append_assoc]
  exact (Lexes.spaced h hend (hrest.mark hr)).mark hl

theorem Cell.readsAs_text {cell : Cell} {t : Token} (ht : cell.form.Written t)
    (hspelled : t.Spelled) : ∃ u, cell.form.Written u ∧ ReadsAs cell.text.toList u := by
  cases cell with
  | number value =>
      exact ⟨_, .number (Numeral.cell?_cellText value.value),
        readsAs_word (Numeral.spelled_cellText value.value)⟩
  | symbol name =>
      cases ht with
      | symbol hsymbol => exact ⟨_, .symbol hsymbol, readsAs_word hspelled⟩
  | reference ref =>
      cases ht with
      | reference href =>
          obtain ⟨u, hu, hlexes⟩ := ref.lexes_text href hspelled
          obtain ⟨more, hmore⟩ := ref.toList_text
          exact ⟨u, .reference hu, ⟨'&', more, hmore, by decide⟩,
            fun hend hrest => hlexes hend.endsLabel hrest⟩

theorem Cell.readsAs_texts {cells : List Cell} {ts : List Token}
    (h : List.Forall₂ CellForm.Written (cells.map form) ts) (hts : ∀ t ∈ ts, t.Spelled) :
    ∃ us, List.Forall₂ CellForm.Written (cells.map form) us ∧
      List.Forall₂ ReadsAs (cells.map (·.text.toList)) us := by
  induction cells generalizing ts with
  | nil => exact ⟨[], .nil, .nil⟩
  | cons cell cells ih =>
      rw [List.map_cons, List.forall₂_cons_left_iff] at h
      obtain ⟨t, ts, ht, hcells, rfl⟩ := h
      obtain ⟨hspelled, hts⟩ := List.forall_mem_cons.mp hts
      obtain ⟨u, hu, hreads⟩ := readsAs_text ht hspelled
      obtain ⟨us, hus, hall⟩ := ih hcells hts
      exact ⟨u :: us, .cons hu hus, .cons hreads hall⟩

theorem Numeral.readsAs_bytes (bytes : List UInt8) :
    ∃ words us, words.flatten = bytes ∧ List.Forall₂ BytesWritten words us ∧
      List.Forall₂ ReadsAs (bytes.map fun b => (byteText b).toList) us := by
  induction bytes with
  | nil => exact ⟨[], [], rfl, .nil, .nil⟩
  | cons b bytes ih =>
      obtain ⟨words, us, hflat, hus, hall⟩ := ih
      refine ⟨[b] :: words, _ :: us, ?_, .cons (.word (bytePairs?_byteText b)) hus,
        .cons (readsAs_word (spelled_byteText b)) hall⟩
      rw [List.flatten_cons, hflat, List.singleton_append]

/-! ### Values -/

/-- Whether a value is written as it is read, which a string with escapes is not. -/
def Value.IsPlain : Value → Prop
  | string content => Scan.IsPlain content.value.toList
  | _ => True

instance : DecidablePred Value.IsPlain
  | .string content => inferInstanceAs (Decidable (Scan.IsPlain content.value.toList))
  | .cells _ _ => isTrue trivial
  | .bytes _ => isTrue trivial
  | .reference _ => isTrue trivial

/-- The written form of a value, if it is no string that needs escapes. -/
theorem Value.lexes_text {v : Value} (hv : v.form.Lexical) (hplain : v.IsPlain) :
    ∃ us, v.form.Written us ∧ ∀ {rest ts}, Scan.EndsLabel rest → Lexes rest ts →
      Lexes (v.text.toList ++ rest) (us ++ ts) := by
  obtain ⟨ws, hws, hspelled⟩ := hv
  cases v with
  | string content =>
      refine ⟨_, .string content.value, fun _ h => ?_⟩
      rw [text, String.toList_append, String.toList_append, List.append_assoc, List.append_assoc]
      exact h.string hplain
  | cells cells span =>
      cases hws with
      | cells hcells =>
          rw [List.forall_mem_cons, List.forall_mem_append] at hspelled
          obtain ⟨us, hus, hreads⟩ := Cell.readsAs_texts hcells hspelled.2.1
          refine ⟨_, .cells hus, fun {rest ts} _ h => ?_⟩
          have hlexes := Lexes.enclosed hreads (by decide : ('<', .leftAngle) ∈ Scan.marks)
            (by decide : ('>', .rightAngle) ∈ Scan.marks) (.mark (by decide) (by decide) rest) h
          simpa [text, String.toList_intercalate, Function.comp_def] using hlexes
  | bytes content =>
      obtain ⟨words, us, hflat, hus, hreads⟩ := Numeral.readsAs_bytes content.value
      refine ⟨_, by rw [form, ← hflat]; exact .bytes hus, fun {rest ts} _ h => ?_⟩
      have hlexes := Lexes.enclosed hreads (by decide : ('[', .leftBracket) ∈ Scan.marks)
        (by decide : (']', .rightBracket) ∈ Scan.marks) (.mark (by decide) (by decide) rest) h
      simpa [text, String.toList_intercalate, Function.comp_def] using hlexes
  | reference ref =>
      cases hws with
      | reference href =>
          obtain ⟨u, hu, hlexes⟩ := ref.lexes_text href (hspelled _ List.mem_cons_self)
          exact ⟨[u], .reference hu, hlexes⟩

end Devicetree
