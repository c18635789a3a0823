import Mathlib.Data.List.DropRight
import Mathlib.Data.Nat.Digits.Defs
import Devicetree.Proofs.Source.ByteStrings
import Devicetree.Proofs.Source.Display

/-!
# What numerals denote

A numeral of a base is one or more of its digits, after at most one plus sign, and denotes the
number that has these digits. Words are read exactly from the numerals of the numbers that fit them.
A cell number is such a numeral in one of three bases, and the characters before it tell which. The
main result says which texts are read as cell numbers and as which.
-/

namespace Devicetree.Numeral

/-! ### Numerals of a base -/

/-- A digit of a base up to sixteen. -/
def IsDigit (base : Nat) (c : Char) : Prop :=
  c.toLower ∈ hexDigits.take base

instance (base : Nat) (c : Char) : Decidable (IsDigit base c) :=
  inferInstanceAs (Decidable (c.toLower ∈ hexDigits.take base))

/-- The number that has some digits in a base, the last of them for the ones. -/
def denoted (base : Nat) (ds : List Char) : Nat :=
  Nat.ofDigits base (ds.reverse.map hexValue)

/-- The numerals of a base, and the numbers that they denote. -/
inductive Denotes (base : Nat) : List Char → Nat → Prop
  | plain {ds : List Char} (hne : ds ≠ []) (hds : ∀ c ∈ ds, IsDigit base c) :
      Denotes base ds (denoted base ds)
  | signed {ds : List Char} (hne : ds ≠ []) (hds : ∀ c ∈ ds, IsDigit base c) :
      Denotes base ('+' :: ds) (denoted base ds)

theorem denoted_cons (base : Nat) (c : Char) (cs : List Char) :
    denoted base (c :: cs) = hexValue c * base ^ cs.length + denoted base cs := by
  rw [denoted, List.reverse_cons, List.map_append, Nat.ofDigits_append, List.map_singleton,
    Nat.ofDigits_singleton, List.length_map, List.length_reverse, Nat.add_comm, Nat.mul_comm]
  rfl

section Reading

variable {base : Nat}

theorem digit?_eq_some_iff_of_le (hbase : base ≤ 16) {c : Char} {n : Nat} :
    digit? base c = some n ↔ IsDigit base c ∧ n = hexValue c := by
  have hsixteen : digit? base c = some n ↔ digit? 16 c = some n ∧ n < base := by
    simp only [digit?, Option.filter_eq_some_iff, decide_eq_true_eq]
    constructor
    · rintro ⟨hvalue, hn⟩
      exact ⟨⟨hvalue, Nat.lt_of_lt_of_le hn hbase⟩, hn⟩
    · rintro ⟨⟨hvalue, -⟩, hn⟩
      exact ⟨hvalue, hn⟩
  rw [hsixteen, digit?_eq_some_iff]
  constructor
  · rintro ⟨⟨hc, rfl⟩, hn⟩
    exact ⟨(List.mem_take_iff_idxOf_lt hc).mpr hn, rfl⟩
  · rintro ⟨hc, rfl⟩
    have hhex : IsHexDigit c := List.mem_of_mem_take hc
    exact ⟨⟨hhex, rfl⟩, (List.mem_take_iff_idxOf_lt hhex).mp hc⟩

/-- Reading goes on exactly over digits, and each of them counts for its place. -/
theorem extend?_eq_some_iff (hbase : base ≤ 16) {n m : Nat} {cs : List Char} :
    extend? base n cs = some m ↔
      (∀ c ∈ cs, IsDigit base c) ∧ m = n * base ^ cs.length + denoted base cs := by
  induction cs generalizing n with
  | nil => simp [extend?, denoted, eq_comm]
  | cons c cs ih =>
      have hplace : (n * base + hexValue c) * base ^ cs.length + denoted base cs =
          n * base ^ (c :: cs).length + denoted base (c :: cs) := by
        rw [denoted_cons, List.length_cons]
        ring
      rw [extend?, Option.bind_eq_some_iff]
      simp only [digit?_eq_some_iff_of_le hbase, ih, List.forall_mem_cons]
      constructor
      · rintro ⟨d, ⟨hc, rfl⟩, hcs, rfl⟩
        exact ⟨⟨hc, hcs⟩, hplace⟩
      · rintro ⟨⟨hc, hcs⟩, rfl⟩
        exact ⟨_, ⟨hc, rfl⟩, hcs, hplace.symm⟩

theorem digits?_eq_some_iff (hbase : base ≤ 16) {n : Nat} {cs : List Char} :
    digits? base cs = some n ↔
      cs ≠ [] ∧ (∀ c ∈ cs, IsDigit base c) ∧ n = denoted base cs := by
  cases cs with
  | nil => simp [digits?]
  | cons c cs =>
      rw [digits?, extend?_eq_some_iff hbase, Nat.zero_mul, Nat.zero_add]
      · simp
      · exact List.cons_ne_nil c cs

theorem not_isDigit_plus : ¬ IsDigit base '+' :=
  fun h => not_isHexDigit_plus (List.mem_of_mem_take h)

theorem natural?_eq_some_iff (hbase : base ≤ 16) {n : Nat} {cs : List Char} :
    natural? base cs = some n ↔ Denotes base cs n := by
  constructor
  · intro h
    unfold natural? at h
    split at h
    · obtain ⟨hne, hds, rfl⟩ := (digits?_eq_some_iff hbase).mp h
      exact .signed hne hds
    · obtain ⟨hne, hds, rfl⟩ := (digits?_eq_some_iff hbase).mp h
      exact .plain hne hds
  · rintro (⟨hne, hds⟩ | ⟨hne, hds⟩)
    · rw [natural?_of_not_mem fun hplus => not_isDigit_plus (hds _ hplus)]
      exact (digits?_eq_some_iff hbase).mpr ⟨hne, hds, rfl⟩
    · exact (digits?_eq_some_iff hbase).mpr ⟨hne, hds, rfl⟩

/-- A word is read from the numerals of its number, and from nothing else. -/
theorem word?_eq_some_iff (hbase : base ≤ 16) {w : UInt64} {cs : List Char} :
    word? base cs = some w ↔ Denotes base cs w.toNat := by
  rw [word?, Option.map_eq_some_iff]
  simp only [Option.filter_eq_some_iff, decide_eq_true_eq, natural?_eq_some_iff hbase]
  constructor
  · rintro ⟨n, ⟨hn, hfits⟩, rfl⟩
    rwa [UInt64.toNat_ofNat_of_lt' hfits]
  · intro h
    exact ⟨w.toNat, ⟨h, w.toNat_lt⟩, UInt64.ofNat_toNat⟩

/-- A numeral denotes one number. -/
theorem Denotes.unique (hbase : base ≤ 16) {n m : Nat} {cs : List Char} (h : Denotes base cs n)
    (h' : Denotes base cs m) : n = m := by
  rw [← natural?_eq_some_iff hbase] at h h'
  exact Option.some_inj.mp (h.symm.trans h')

end Reading

/-! ### Cell numbers -/

/-- The spellings of cell numbers, suffixes left out, and the numbers that they denote. With more
characters after it, a zero in front tells another base than ten. -/
inductive CellSpelling : List Char → Nat → Prop
  | hexadecimal {x : Char} {cs : List Char} {n : Nat} (hx : x = 'x' ∨ x = 'X')
      (h : Denotes 16 cs n) : CellSpelling ('0' :: x :: cs) n
  | octal {cs : List Char} {n : Nat} (h : Denotes 8 cs n) : CellSpelling ('0' :: cs) n
  | decimal {cs : List Char} {n : Nat} (hzero : ∀ rest, cs = '0' :: rest → rest = [])
      (h : Denotes 10 cs n) : CellSpelling cs n

theorem not_denotes_nil {base n : Nat} : ¬ Denotes base [] n := by
  rintro ⟨⟩
  contradiction

/-- A numeral begins with a digit, if not with a plus sign. -/
theorem Denotes.isDigit_head {base n : Nat} {c : Char} {cs : List Char}
    (h : Denotes base (c :: cs) n) (hc : c ≠ '+') : IsDigit base c := by
  cases h with
  | plain _ hds => exact hds c List.mem_cons_self
  | signed => exact absurd rfl hc

theorem not_denotes_octal {x : Char} {cs : List Char} {n : Nat} (hx : x = 'x' ∨ x = 'X') :
    ¬ Denotes 8 (x :: cs) n := by
  intro h
  have hletters : ¬ IsDigit 8 'x' ∧ ¬ IsDigit 8 'X' := by
    decide
  rcases hx with rfl | rfl
  · exact hletters.1 (h.isDigit_head (by decide))
  · exact hletters.2 (h.isDigit_head (by decide))

namespace CellSpelling

variable {c : Char} {cs : List Char} {n : Nat}

/-- What begins like a hexadecimal numeral is no other one. -/
theorem hexadecimal_iff (hc : c = 'x' ∨ c = 'X') :
    CellSpelling ('0' :: c :: cs) n ↔ Denotes 16 cs n := by
  constructor
  · intro h
    cases h with
    | hexadecimal _ h => exact h
    | octal h => exact absurd h (not_denotes_octal hc)
    | decimal hzero => cases hzero _ rfl
  · exact .hexadecimal hc

theorem octal_iff (hlower : c ≠ 'x') (hupper : c ≠ 'X') :
    CellSpelling ('0' :: c :: cs) n ↔ Denotes 8 (c :: cs) n := by
  constructor
  · intro h
    cases h with
    | hexadecimal hc => exact absurd hc (not_or.mpr ⟨hlower, hupper⟩)
    | octal h => exact h
    | decimal hzero => cases hzero _ rfl
  · exact .octal

theorem decimal_iff (hzero : ∀ rest, cs = '0' :: rest → rest = []) :
    CellSpelling cs n ↔ Denotes 10 cs n := by
  constructor
  · intro h
    cases h with
    | hexadecimal => cases hzero _ rfl
    | octal h =>
        cases hzero _ rfl
        exact absurd h not_denotes_nil
    | decimal _ h => exact h
  · exact .decimal hzero

/-- A spelling denotes one number. -/
theorem unique {m : Nat} (h : CellSpelling cs n) (h' : CellSpelling cs m) : n = m := by
  cases h with
  | hexadecimal hc h =>
      rw [hexadecimal_iff hc] at h'
      exact h.unique (by decide) h'
  | @octal cs _ h =>
      cases cs with
      | nil => exact absurd h not_denotes_nil
      | cons c cs =>
          rw [octal_iff (fun hc => not_denotes_octal (.inl hc) h)
            (fun hc => not_denotes_octal (.inr hc) h)] at h'
          exact h.unique (by decide) h'
  | decimal hzero h =>
      rw [decimal_iff hzero] at h'
      exact h.unique (by decide) h'

end CellSpelling

/-- The characters of a text without the suffix letters at its end. -/
def stem (text : String) : List Char :=
  text.toList.rdropWhile ("uUlL".toList.contains ·)

theorem dropSuffix_toList (text : String) : dropSuffix text.toList = stem text := by
  have hletter : isSuffixLetter = ("uUlL".toList.contains ·) := by
    funext c
    simp [isSuffixLetter, Bool.or_assoc, Bool.beq_eq_decide_eq]
  rw [dropSuffix, hletter]
  rfl

theorem cell?_eq_some_iff {text : String} {v : UInt64} :
    cell? text = some v ↔ CellSpelling (stem text) v.toNat := by
  unfold cell?
  rw [dropSuffix_toList]
  split <;> rw [word?_eq_some_iff (by decide)]
  case h_1 cs hstem => rw [hstem, CellSpelling.hexadecimal_iff (.inl rfl)]
  case h_2 cs hstem => rw [hstem, CellSpelling.hexadecimal_iff (.inr rfl)]
  case h_3 c cs hlower hupper hstem =>
    rw [hstem, CellSpelling.octal_iff]
    · rintro rfl
      exact hlower rfl
    · rintro rfl
      exact hupper rfl
  case h_4 hlower hupper hlonger =>
    rw [CellSpelling.decimal_iff]
    intro rest hrest
    cases rest with
    | nil => rfl
    | cons c cs => exact absurd hrest (hlonger c cs)

/-- A text is read as a cell number exactly if its stem is a spelling of that number, in the base
that its first characters tell. A spelling of a number that does not fit sixty-four bits is not
read. The written form of a cell number is read back. -/
theorem cell_numbers_read_exactly :
    (∀ (text : String) (v : UInt64), cell? text = some v ↔ CellSpelling (stem text) v.toNat) ∧
    (∀ (text : String) (n : Nat), CellSpelling (stem text) n → 2 ^ 64 ≤ n → cell? text = none) ∧
    (∀ v : Spanned UInt64, cell? (Cell.number v).text = some v.value) := by
  refine ⟨fun text v => cell?_eq_some_iff, ?_, fun v => cell?_cellText v.value⟩
  intro text n hn hlarge
  rw [Option.eq_none_iff_forall_ne_some]
  intro v hv
  have hv' : v.toNat = n := (cell?_eq_some_iff.mp hv).unique hn
  have hfits : v.toNat < 2 ^ 64 := v.toNat_lt
  omega

/-- The least number that does not fit, with a suffix. -/
def wideCell : String :=
  "0X10000000000000000uL"

theorem wideCell_not_read :
    CellSpelling (stem wideCell) (2 ^ 64) ∧ 2 ^ 64 ≤ 2 ^ 64 ∧ cell? wideCell = none := by
  have hstem : stem wideCell = '0' :: 'X' :: "10000000000000000".toList := by
    decide +kernel
  have hvalue : denoted 16 "10000000000000000".toList = 2 ^ 64 := by
    decide +kernel
  have hdigits : ("10000000000000000".toList.all fun c => IsDigit 16 c) = true := by
    decide +kernel
  have hspelling : CellSpelling (stem wideCell) (2 ^ 64) := by
    rw [hstem, ← hvalue]
    refine .hexadecimal (.inr rfl) (.plain (by decide) fun c hc => ?_)
    exact of_decide_eq_true (List.all_eq_true.mp hdigits c hc)
  exact ⟨hspelling, le_rfl, cell_numbers_read_exactly.2.1 wideCell _ hspelling le_rfl⟩

end Devicetree.Numeral
