import Mathlib.Data.List.Forall2
import Devicetree.Source.Parser
import Devicetree.Proofs.Source.Name

/-!
# Byte strings

The words of a byte string are read two characters at a time. A word that has an even number of
hexadecimal digits gives the bytes that its pairs of digits denote. No other word is read, with one
exception: each pair is read as a numeral, and a numeral may begin with a plus sign, so that a plus
sign may stand in the place of the first digit of a pair. The main result says what is read, and
that there are no other exceptions.
-/

namespace Devicetree

/-! ### Digits and pairs -/

namespace Numeral

/-- The hexadecimal digits, each at the place of its value. -/
def hexDigits : List Char :=
  "0123456789abcdef".toList

/-- A hexadecimal digit, in lower or upper case. -/
def IsHexDigit (c : Char) : Prop :=
  c.toLower ∈ hexDigits

instance (c : Char) : Decidable (IsHexDigit c) :=
  inferInstanceAs (Decidable (c.toLower ∈ hexDigits))

/-- The value of a hexadecimal digit. -/
def hexValue (c : Char) : Nat :=
  hexDigits.idxOf c.toLower

/-- An even number of hexadecimal digits. -/
def IsHexWord (cs : List Char) : Prop :=
  cs.length % 2 = 0 ∧ ∀ c ∈ cs, IsHexDigit c

instance (cs : List Char) : Decidable (IsHexWord cs) :=
  decidable_of_iff (cs.length % 2 = 0 ∧ (cs.all fun c => IsHexDigit c) = true) (by simp [IsHexWord])

/-- The bytes that consecutive pairs of digits denote. -/
def pairBytes : List Char → List UInt8
  | c :: d :: cs => UInt8.ofNat (16 * hexValue c + hexValue d) :: pairBytes cs
  | _ => []

/-- The bytes that a word is read as: of each pair both are digits, or the second is one after a
plus sign. -/
inductive Pairs : List Char → List UInt8 → Prop
  | nil : Pairs [] []
  | digits {c d : Char} {cs : List Char} {bs : List UInt8} (hc : IsHexDigit c) (hd : IsHexDigit d)
      (h : Pairs cs bs) : Pairs (c :: d :: cs) (UInt8.ofNat (16 * hexValue c + hexValue d) :: bs)
  | signed {d : Char} {cs : List Char} {bs : List UInt8} (hd : IsHexDigit d) (h : Pairs cs bs) :
      Pairs ('+' :: d :: cs) (UInt8.ofNat (hexValue d) :: bs)

theorem not_isHexDigit_plus : ¬ IsHexDigit '+' := by
  decide

theorem hexValue_lt {c : Char} (h : IsHexDigit c) : hexValue c < 16 :=
  List.idxOf_lt_length_of_mem h

/-- What counts as a digit of base sixteen. -/
theorem digit?_sixteen (c : Char) :
    digit? 16 c = if IsHexDigit c then some (hexValue c) else none := by
  have hascii : ∀ n < 128, digit? 16 (Char.ofNat n) =
      if IsHexDigit (Char.ofNat n) then some (hexValue (Char.ofNat n)) else none := by
    decide +kernel
  by_cases hc : c.toNat < 128
  · have hsmall := hascii c.toNat hc
    rwa [Char.ofNat_toNat] at hsmall
  · -- Beyond ASCII there are neither digits nor other cases of digits.
    have hbeyond : ∀ d : Char, d.toNat < 128 → ¬ c ≤ d := fun d hd hle =>
      hc (Nat.lt_of_le_of_lt hle hd)
    have hvalue : digitValue? c = none := by
      rw [digitValue?, if_neg fun h => hbeyond '9' (by decide) h.2,
        if_neg fun h => hbeyond 'f' (by decide) h.2, if_neg fun h => hbeyond 'F' (by decide) h.2]
    have hlower : c.toLower = c := dif_neg fun h => hbeyond 'Z' (by decide) h.2
    have hdigits : (hexDigits.all fun d => d.toNat < 128) = true := by decide
    have hnot : ¬ IsHexDigit c := fun h =>
      hc (of_decide_eq_true (List.all_eq_true.mp hdigits c (hlower ▸ h)))
    rw [digit?, hvalue, if_neg hnot]
    rfl

theorem digit?_eq_some_iff {c : Char} {n : Nat} :
    digit? 16 c = some n ↔ IsHexDigit c ∧ n = hexValue c := by
  rw [digit?_sixteen]
  split <;> simp_all [eq_comm]

/-- A numeral of two characters has two digits, or one after a plus sign. -/
theorem natural?_pair {c d : Char} {n : Nat} :
    natural? 16 [c, d] = some n ↔
      (IsHexDigit c ∧ IsHexDigit d ∧ n = 16 * hexValue c + hexValue d) ∨
      (c = '+' ∧ IsHexDigit d ∧ n = hexValue d) := by
  by_cases hplus : c = '+'
  · subst hplus
    have hdigit : natural? 16 ['+', d] = digit? 16 d := by
      simp [natural?, digits?, extend?]
    rw [hdigit, digit?_eq_some_iff]
    simp [not_isHexDigit_plus]
  · have hdigits : natural? 16 [c, d] =
        (digit? 16 c).bind fun x => (digit? 16 d).bind fun y => some (x * 16 + y) := by
      rw [natural?]
      · simp only [digits?, extend?, Nat.zero_mul, Nat.zero_add]
      · intro rest heq
        exact hplus (List.cons.inj heq).1
    simp only [hdigits, Option.bind_eq_some_iff, digit?_eq_some_iff, hplus, false_and, or_false]
    constructor
    · rintro ⟨x, ⟨hc, rfl⟩, y, ⟨hd, rfl⟩, hn⟩
      refine ⟨hc, hd, ?_⟩
      rw [← Option.some_inj.mp hn, Nat.mul_comm]
    · rintro ⟨hc, hd, rfl⟩
      refine ⟨_, ⟨hc, rfl⟩, _, ⟨hd, rfl⟩, ?_⟩
      rw [Nat.mul_comm]

theorem byte?_eq_some_iff {cs : List Char} {b : UInt8} :
    byte? cs = some b ↔ ∃ n, natural? 16 cs = some n ∧ n < 256 ∧ UInt8.ofNat n = b := by
  simp only [byte?, Option.map_eq_some_iff, Option.filter_eq_some_iff, decide_eq_true_eq,
    UInt8.size, and_assoc]

/-- Two characters that are read as a numeral denote a byte. -/
theorem byte?_pair {c d : Char} {b : UInt8} :
    byte? [c, d] = some b ↔
      (IsHexDigit c ∧ IsHexDigit d ∧ b = UInt8.ofNat (16 * hexValue c + hexValue d)) ∨
      (c = '+' ∧ IsHexDigit d ∧ b = UInt8.ofNat (hexValue d)) := by
  rw [byte?_eq_some_iff]
  constructor
  · rintro ⟨n, hn, -, rfl⟩
    rcases natural?_pair.mp hn with ⟨hc, hd, rfl⟩ | ⟨hc, hd, rfl⟩
    · exact .inl ⟨hc, hd, rfl⟩
    · exact .inr ⟨hc, hd, rfl⟩
  · rintro (⟨hc, hd, rfl⟩ | ⟨hc, hd, rfl⟩)
    · have hhigh := hexValue_lt hc
      have hlow := hexValue_lt hd
      exact ⟨_, natural?_pair.mpr (.inl ⟨hc, hd, rfl⟩), by omega, rfl⟩
    · have hlow := hexValue_lt hd
      exact ⟨_, natural?_pair.mpr (.inr ⟨hc, hd, rfl⟩), by omega, rfl⟩

/-- The bytes of a word are read pair by pair. -/
theorem bytePairs?_eq_some_iff {cs : List Char} {bs : List UInt8} :
    bytePairs? cs = some bs ↔ Pairs cs bs := by
  constructor
  · intro h
    fun_induction bytePairs? cs generalizing bs with
    | case1 =>
        cases h
        exact .nil
    | case2 => cases h
    | case3 c d cs ih =>
        obtain ⟨b, hb, h⟩ := Option.bind_eq_some_iff.mp h
        obtain ⟨rest, hrest, h⟩ := Option.bind_eq_some_iff.mp h
        cases h
        rcases byte?_pair.mp hb with ⟨hc, hd, rfl⟩ | ⟨rfl, hd, rfl⟩
        · exact .digits hc hd (ih hrest)
        · exact .signed hd (ih hrest)
  · intro h
    induction h with
    | nil => rfl
    | digits hc hd _ ih =>
        rw [bytePairs?, byte?_pair.mpr (.inl ⟨hc, hd, rfl⟩), ih]
        rfl
    | signed hd _ ih =>
        rw [bytePairs?, byte?_pair.mpr (.inr ⟨rfl, hd, rfl⟩), ih]
        rfl

namespace IsHexWord

variable {cs : List Char} {bs : List UInt8}

theorem plus_not_mem (h : IsHexWord cs) : '+' ∉ cs :=
  fun hplus => not_isHexDigit_plus (h.2 _ hplus)

/-- A word of an even number of digits is read as the bytes of its pairs. -/
theorem pairs (h : IsHexWord cs) : Pairs cs (pairBytes cs) := by
  fun_induction pairBytes cs with
  | case1 c d cs ih =>
      obtain ⟨hlength, hdigits⟩ := h
      simp only [List.forall_mem_cons] at hdigits
      have heven : cs.length % 2 = 0 := by
        simp only [List.length_cons] at hlength
        omega
      exact .digits hdigits.1 hdigits.2.1 (ih ⟨heven, hdigits.2.2⟩)
  | case2 cs hshort =>
      cases cs with
      | nil => exact .nil
      | cons c cs =>
          cases cs with
          | nil => exact absurd h.1 (by simp)
          | cons d cs => exact absurd rfl (hshort c d cs)

end IsHexWord

/-- Without a plus sign nothing but an even number of digits is read. -/
theorem Pairs.isHexWord {cs : List Char} {bs : List UInt8} (h : Pairs cs bs) (hplus : '+' ∉ cs) :
    IsHexWord cs := by
  induction h with
  | nil => exact ⟨rfl, List.forall_mem_nil _⟩
  | @digits c d cs bs hc hd _ ih =>
      obtain ⟨heven, hdigits⟩ := ih fun hm => hplus (by simp [hm])
      refine ⟨?_, by simp [hc, hd]; exact hdigits⟩
      simp only [List.length_cons]
      omega
  | signed => simp at hplus

/-- A word is read in one way. -/
theorem rightUnique_pairs : Relator.RightUnique Pairs := by
  intro cs bs bs' h h'
  rw [← bytePairs?_eq_some_iff] at h h'
  exact Option.some_inj.mp (h.symm.trans h')

end Numeral

/-! ### Byte strings of words -/

/-- A word where it stands. -/
def Lexeme.ofWord (w : Spanned String) : Lexeme :=
  ⟨.word w.value, w.span⟩

namespace Phrase

/-- The characters of each word. -/
def wordTexts (words : List (Spanned String)) : List (List Char) :=
  words.map (·.value.toList)

/-- What is read of a list is read of each member. -/
theorem exists_pairs {texts : List (List Char)} {chunks : List (List UInt8)}
    (h : List.Forall₂ Numeral.Pairs texts chunks) {cs : List Char} (hcs : cs ∈ texts) :
    ∃ bs, Numeral.Pairs cs bs := by
  have hboth : List.Forall₂ (fun cs bs => (∃ bs, Numeral.Pairs cs bs) ∧ Numeral.Pairs cs bs)
      texts chunks := h.imp fun _ bs hbs => ⟨⟨bs, hbs⟩, hbs⟩
  exact ((List.forall₂_and_left texts chunks).mp hboth).1 cs hcs

variable (start stop : Span) (words : List (Spanned String)) (rest : List Lexeme)

/-- The lexemes of a byte string, and what follows it. -/
def byteString : List Lexeme :=
  ⟨.leftBracket, start⟩ :: (words.map Lexeme.ofWord ++ ⟨.rightBracket, stop⟩ :: rest)

/-- The words up to the bracket are taken, or there is one at which no bracket is found. -/
theorem splitMany_words :
    (∃ chunks, List.Forall₂ Numeral.Pairs (wordTexts words) chunks ∧
      splitMany Lexeme.bytes? (words.map Lexeme.ofWord ++ ⟨.rightBracket, stop⟩ :: rest) =
        (chunks, ⟨.rightBracket, stop⟩ :: rest)) ∨
    (∃ cs ∈ wordTexts words, ∀ bs, ¬ Numeral.Pairs cs bs) ∧
      ∃ w more,
        (splitMany Lexeme.bytes? (words.map Lexeme.ofWord ++ ⟨.rightBracket, stop⟩ :: rest)).2 =
          Lexeme.ofWord w :: more := by
  induction words with
  | nil => exact .inl ⟨[], .nil, rfl⟩
  | cons w words ih =>
      rw [List.map_cons, List.cons_append, splitMany, wordTexts, List.map_cons]
      cases hw : Numeral.bytePairs? w.value.toList with
      | none =>
          have hno : ∀ bs, ¬ Numeral.Pairs w.value.toList bs := fun bs hbs => by
            rw [← Numeral.bytePairs?_eq_some_iff, hw] at hbs
            cases hbs
          have hnone : (Lexeme.ofWord w).bytes? = none := hw
          rw [hnone]
          exact .inr ⟨⟨_, List.mem_cons_self, hno⟩, w, _, rfl⟩
      | some bs =>
          have hsome : (Lexeme.ofWord w).bytes? = some bs := hw
          rw [hsome]
          rcases ih with ⟨chunks, hchunks, hsplit⟩ | ⟨⟨cs, hcs, hno⟩, hsplit⟩
          · rw [hsplit]
            exact .inl ⟨bs :: chunks, .cons (Numeral.bytePairs?_eq_some_iff.mp hw) hchunks, rfl⟩
          · exact .inr ⟨⟨cs, List.mem_cons_of_mem _ hcs, hno⟩, hsplit⟩

/-- A byte string is read exactly if its words are made up of pairs, and as the bytes of these in
order. -/
theorem value_byteString (v : Value) (after : List Lexeme) :
    value (byteString start stop words rest) = .ok (v, after) ↔
      ∃ chunks, List.Forall₂ Numeral.Pairs (wordTexts words) chunks ∧
        v = .bytes ⟨chunks.flatten, start.union stop⟩ ∧ after = rest := by
  have hbytes : value (byteString start stop words rest) =
      bytes start (words.map Lexeme.ofWord ++ ⟨.rightBracket, stop⟩ :: rest) := rfl
  rw [hbytes]
  rcases splitMany_words stop words rest with ⟨chunks, hchunks, hsplit⟩ |
    ⟨⟨cs, hcs, hno⟩, w, more, hsplit⟩
  · have hread : bytes start (words.map Lexeme.ofWord ++ ⟨.rightBracket, stop⟩ :: rest) =
        .ok (.bytes ⟨chunks.flatten, start.union stop⟩, rest) :=
      bind_ok.mpr ⟨chunks, _, congrArg Except.ok hsplit, rfl⟩
    rw [hread]
    constructor
    · intro h
      cases h
      exact ⟨chunks, hchunks, rfl, rfl⟩
    · rintro ⟨others, hothers, rfl, rfl⟩
      rw [Numeral.rightUnique_pairs.forall₂ hchunks hothers]
  · have hread : bytes start (words.map Lexeme.ofWord ++ ⟨.rightBracket, stop⟩ :: rest) =
        .error ⟨.rightBracket, Lexeme.ofWord w :: more⟩ :=
      bind_error.mpr (.inr ⟨_, _, rfl, by rw [hsplit]; rfl⟩)
    rw [hread]
    constructor
    · intro h
      cases h
    · rintro ⟨chunks, hchunks, -⟩
      obtain ⟨bs, hbs⟩ := exists_pairs hchunks hcs
      exact absurd hbs (hno bs)

/-- A byte string of some words is read exactly if they are made up of pairs, and then gives the
bytes of these in order. If every word has an even number of hexadecimal digits, it is read as the
bytes that consecutive pairs of digits denote. The only words that are read besides are such with a
plus sign in the place of a digit. -/
theorem byte_string_read_iff :
    let read := value (byteString start stop words rest)
    (∀ v after, read = .ok (v, after) ↔
      ∃ chunks, List.Forall₂ Numeral.Pairs (wordTexts words) chunks ∧
        v = .bytes ⟨chunks.flatten, start.union stop⟩ ∧ after = rest) ∧
    ((∀ cs ∈ wordTexts words, Numeral.IsHexWord cs) →
      read = .ok (.bytes ⟨(wordTexts words).flatMap Numeral.pairBytes, start.union stop⟩, rest)) ∧
    (((∃ v after, read = .ok (v, after)) ↔ ∀ cs ∈ wordTexts words, Numeral.IsHexWord cs) ↔
      ¬ ((∃ v after, read = .ok (v, after)) ∧ ∃ cs ∈ wordTexts words, '+' ∈ cs)) := by
  intro read
  have hread := value_byteString start stop words rest
  have hhex : (∀ cs ∈ wordTexts words, Numeral.IsHexWord cs) → read =
      .ok (.bytes ⟨(wordTexts words).flatMap Numeral.pairBytes, start.union stop⟩, rest) := by
    intro h
    refine (hread _ _).mpr ⟨(wordTexts words).map Numeral.pairBytes, ?_, rfl, rfl⟩
    exact List.forall₂_map_right_iff.mpr (List.forall₂_same.mpr fun cs hcs => (h cs hcs).pairs)
  refine ⟨hread, hhex, ?_⟩
  constructor
  · rintro hdigits ⟨hok, cs, hcs, hplus⟩
    exact (hdigits.mp hok cs hcs).plus_not_mem hplus
  · intro hno
    constructor
    · rintro ⟨v, after, hok⟩ cs hcs
      obtain ⟨chunks, hchunks, -⟩ := (hread v after).mp hok
      obtain ⟨bs, hbs⟩ := exists_pairs hchunks hcs
      exact hbs.isHexWord fun hplus => hno ⟨⟨v, after, hok⟩, cs, hcs, hplus⟩
    · intro h
      exact ⟨_, _, hhex h⟩

/-- Two words of a byte string, one of them in upper case. -/
def hexWords : List (Spanned String) :=
  [⟨"DE", .origin⟩, ⟨"adbe", .origin⟩]

theorem hexWords_read :
    (∀ cs ∈ wordTexts hexWords, Numeral.IsHexWord cs) ∧
      value (byteString .origin .origin hexWords []) =
        .ok (.bytes ⟨[0xde, 0xad, 0xbe], .origin⟩, []) := by
  have hhex : ∀ cs ∈ wordTexts hexWords, Numeral.IsHexWord cs := by
    decide +kernel
  exact ⟨hhex, (byte_string_read_iff .origin .origin hexWords []).2.1 hhex⟩

/-- A plus sign before a digit. -/
def plusWords : List (Spanned String) :=
  [⟨"+a", .origin⟩]

/-- It is read as the byte ten, although it is no digit. -/
theorem plusWords_read :
    value (byteString .origin .origin plusWords []) = .ok (.bytes ⟨[10], .origin⟩, []) ∧
      ¬ ((∃ v after, value (byteString .origin .origin plusWords []) = .ok (v, after)) ↔
        ∀ cs ∈ wordTexts plusWords, Numeral.IsHexWord cs) := by
  have hread : value (byteString .origin .origin plusWords []) =
      .ok (.bytes ⟨[10], .origin⟩, []) := by
    decide +kernel
  refine ⟨hread, fun hdigits => ?_⟩
  have hhex := hdigits.mp ⟨_, _, hread⟩ "+a".toList List.mem_cons_self
  exact hhex.plus_not_mem List.mem_cons_self

end Phrase

end Devicetree
