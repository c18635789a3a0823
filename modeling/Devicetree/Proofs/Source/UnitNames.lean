import Devicetree.Proofs.Source.Numerals

/-!
# Written forms of names

A text with an address is a name, the first `@` and a hexadecimal numeral that fits the address.
Numerals of one address are many: with zeros in front, in upper case, or after a plus sign. A text
of any other kind is a name as a whole. The main result says that the written form of what is read
is canonical: it is read as the same, and two texts have one written form exactly if they are read
as the same, which is when they are the same or differ in how they spell an address.
-/

namespace Devicetree.UnitName

open Numeral (Denotes)

/-- The texts that have an address, and what they are read as. -/
inductive Addressed : String → UnitName → Prop
  | intro {name unit : List Char} {address : UInt64} (hname : '@' ∉ name)
      (hunit : Denotes 16 unit address.toNat) :
      Addressed (String.ofList (name ++ '@' :: unit)) ⟨String.ofList name, some address⟩

theorem Addressed.read_eq {text : String} {n : UnitName} (h : Addressed text n) :
    read text = n := by
  obtain ⟨hname, hunit⟩ := h
  exact read_append hname ((Numeral.word?_eq_some_iff (by decide)).mpr hunit)

theorem read_of_not_mem {text : String} (h : '@' ∉ text.toList) : read text = ⟨text, none⟩ := by
  have hall : text.toList.takeWhile (· ≠ '@') = text.toList := by
    apply List.takeWhile_eq_self_iff.mpr
    intro c hc
    exact decide_eq_true fun heq => h (heq ▸ hc)
  rw [read, hall]
  simp only [List.drop_length]

theorem read_append_of_none {name unit : List Char} (hname : '@' ∉ name)
    (hunit : Numeral.word? 16 unit = none) :
    read (String.ofList (name ++ '@' :: unit)) = ⟨String.ofList (name ++ '@' :: unit), none⟩ := by
  rw [read, String.toList_ofList]
  simp only [takeWhile_append hname, List.drop_left, hunit]

/-- A text that has no address is a name as a whole. -/
theorem addressed_or_read_eq (text : String) :
    Addressed text (read text) ∨ read text = ⟨text, none⟩ := by
  by_cases hat : '@' ∈ text.toList
  · obtain ⟨name, unit, hsplit, hname⟩ := List.eq_append_cons_of_mem hat
    have htext : text = String.ofList (name ++ '@' :: unit) := by
      rw [← hsplit, String.ofList_toList]
    subst htext
    cases hunit : Numeral.word? 16 unit with
    | none => exact .inr (read_append_of_none hname hunit)
    | some address =>
        rw [read_append hname hunit]
        exact .inl ⟨hname, (Numeral.word?_eq_some_iff (by decide)).mp hunit⟩
  · exact .inr (read_of_not_mem hat)

theorem Addressed.address_ne_none {text : String} {n : UnitName} (h : Addressed text n) :
    n.address ≠ none := by
  obtain ⟨-, -⟩ := h
  exact Option.some_ne_none _

/-- Different texts are read as the same if they spell one address after one name. -/
theorem read_eq_read_iff {s t : String} :
    read s = read t ↔ s = t ∨ ∃ n, Addressed s n ∧ Addressed t n := by
  constructor
  · intro heq
    rcases addressed_or_read_eq s with hs | hs <;> rcases addressed_or_read_eq t with ht | ht
    · exact .inr ⟨read s, hs, heq ▸ ht⟩
    · exact absurd (congrArg address (heq.trans ht)) hs.address_ne_none
    · exact absurd (congrArg address (heq.symm.trans hs)) ht.address_ne_none
    · exact .inl (congrArg name (hs.symm.trans (heq.trans ht)))
  · rintro (rfl | ⟨n, hs, ht⟩)
    · rfl
    · exact hs.read_eq.trans ht.read_eq.symm

/-- The written form of what is read is read as the same. Two texts are read as the same name and
address exactly if these have one written form, and the texts for which this is so are those that
spell one address after one name, and equal ones. -/
theorem written_names_canonical (s t : String) :
    read (read t).text = read t ∧
    ((read s).name = (read t).name ∧ (read s).address = (read t).address ↔
      (read s).text = (read t).text) ∧
    ((read s).text = (read t).text ↔ s = t ∨ ∃ n, Addressed s n ∧ Addressed t n) := by
  have htext : (read s).text = (read t).text ↔ read s = read t := by
    constructor
    · intro heq
      calc read s = read (read s).text := (read_text s).symm
        _ = read (read t).text := by rw [heq]
        _ = read t := read_text t
    · exact congrArg text
  refine ⟨read_text t, ?_, htext.trans read_eq_read_iff⟩
  rw [htext, UnitName.mk.injEq]

example : (read "cpu@+0A").text = "cpu@a" := by decide +kernel

end Devicetree.UnitName
