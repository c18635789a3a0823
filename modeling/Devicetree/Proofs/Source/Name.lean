import Devicetree.Source.Name

/-!
# Names read back

A number written in hexadecimal is read back as itself, and so is a node name in its written
form: up to the first `@` that form is the name alone, and what follows it is the address. A name
without an address is written as it was read. A path of names falls apart at its slashes.
-/

namespace Devicetree

namespace Numeral

theorem extend?_append (base n : Nat) (cs ds : List Char) :
    extend? base n (cs ++ ds) = (extend? base n cs).bind (extend? base · ds) := by
  induction cs generalizing n with
  | nil => rfl
  | cons c cs ih =>
      rw [List.cons_append, extend?, extend?, Option.bind_assoc]
      congr 1
      funext d
      exact ih (n * base + d)

/-- Where a number is read, every character is a digit. -/
theorem digit?_of_mem {base n m : Nat} {cs : List Char} (h : extend? base n cs = some m)
    {c : Char} (hc : c ∈ cs) : digit? base c ≠ none := by
  induction cs generalizing n with
  | nil => cases hc
  | cons d cs ih =>
      obtain ⟨value, hd, h⟩ := Option.bind_eq_some_iff.mp h
      rcases List.mem_cons.mp hc with rfl | hc
      · rw [hd]
        exact Option.some_ne_none value
      · exact ih h hc

theorem digit?_digitChar : ∀ d < 16, digit? 16 (Nat.digitChar d) = some d := by
  decide

theorem extend?_toDigits (n : Nat) : extend? 16 0 (Nat.toDigits 16 n) = some n := by
  induction n using Nat.strongRecOn with
  | ind n ih =>
      rcases Nat.lt_or_ge n 16 with hlt | hge
      · rw [Nat.toDigits_of_lt_base hlt, extend?, digit?_digitChar n hlt, Option.bind_some,
          extend?, Nat.zero_mul, Nat.zero_add]
      · have hquotient : n / 16 < n := by omega
        have hdigit := digit?_digitChar (n % 16) (Nat.mod_lt _ (by decide))
        rw [Nat.toDigits_of_base_le (by decide) hge, extend?_append, ih _ hquotient,
          Option.bind_some, extend?, hdigit, Option.bind_some, extend?, Nat.div_add_mod']

theorem digit?_of_mem_hex {n : Nat} {c : Char} (h : c ∈ (hex n).toList) : digit? 16 c ≠ none := by
  rw [hex, String.toList_ofList] at h
  exact digit?_of_mem (extend?_toDigits n) h

theorem natural?_of_not_mem {base : Nat} {cs : List Char} (h : '+' ∉ cs) :
    natural? base cs = digits? base cs := by
  rw [natural?]
  intro rest heq
  exact h (heq ▸ List.mem_cons_self)

/-- A word in hexadecimal is read back. -/
theorem word?_hex (w : UInt64) : word? 16 (hex w.toNat).toList = some w := by
  have hplus : '+' ∉ (hex w.toNat).toList := fun h => digit?_of_mem_hex h rfl
  have hdigits : digits? 16 (hex w.toNat).toList = some w.toNat := by
    rw [hex, String.toList_ofList, digits?]
    · exact extend?_toDigits w.toNat
    · exact Nat.toDigits_ne_nil
  have hfits : w.toNat < UInt64.size := w.toNat_lt
  rw [word?, natural?_of_not_mem hplus, hdigits, Option.filter_some,
    if_pos (decide_eq_true hfits), Option.map_some, UInt64.ofNat_toNat]

end Numeral

namespace UnitName

/-- What is read has no address and is the whole text, or its name is the text before an `@`. -/
theorem read_cases (text : String) :
    read text = ⟨text, none⟩ ∨ ∃ (name : List Char) (address : UInt64), '@' ∉ name ∧
      name <+: text.toList ∧ read text = ⟨String.ofList name, some address⟩ := by
  rw [read]
  split
  · exact .inl rfl
  · split
    · rename_i address _
      refine .inr ⟨text.toList.takeWhile (· ≠ '@'), address, fun h => ?_, ?_, rfl⟩
      · have hne := List.all_eq_true.mp List.all_takeWhile '@' h
        exact of_decide_eq_true hne rfl
      · exact List.takeWhile_prefix _
    · exact .inl rfl

/-- Up to the first `@` there is the name. -/
theorem takeWhile_append {name unit : List Char} (hname : '@' ∉ name) :
    (name ++ '@' :: unit).takeWhile (· ≠ '@') = name := by
  rw [List.takeWhile_append_of_pos, List.takeWhile_cons_of_neg (by simp), List.append_nil]
  intro c hc
  exact decide_eq_true fun heq => hname (heq ▸ hc)

theorem read_append {name unit : List Char} (hname : '@' ∉ name) {address : UInt64}
    (hunit : Numeral.word? 16 unit = some address) :
    read (String.ofList (name ++ '@' :: unit)) = ⟨String.ofList name, some address⟩ := by
  rw [read, String.toList_ofList]
  simp only [takeWhile_append hname, List.drop_left, hunit]

theorem text_of_address (name : List Char) (address : UInt64) :
    text ⟨String.ofList name, some address⟩ =
      String.ofList (name ++ '@' :: (Numeral.hex address.toNat).toList) := by
  apply String.toList_inj.mp
  simp [text]

/-- A name in its written form is read back. -/
theorem read_text (text : String) : read (read text).text = read text := by
  rcases read_cases text with h | ⟨name, address, hname, -, h⟩
  · rw [h]
    exact h
  · rw [h, text_of_address, read_append hname (Numeral.word?_hex address)]

/-- The written form of a name has no characters but those it was read from, an `@` and digits. -/
theorem mem_text {written : String} {c : Char} (h : c ∈ (read written).text.toList) :
    c ∈ written.toList ∨ c = '@' ∨ Numeral.digit? 16 c ≠ none := by
  rcases read_cases written with hread | ⟨name, address, -, hname, hread⟩
  · rw [hread] at h
    exact .inl h
  · rw [hread, text_of_address, String.toList_ofList] at h
    rcases List.mem_append.mp h with h | h
    · exact .inl (hname.subset h)
    · rcases List.mem_cons.mp h with h | h
      · exact .inr (.inl h)
      · exact .inr (.inr (Numeral.digit?_of_mem_hex h))

theorem text_ne_nil {written : String} (h : written.toList ≠ []) :
    (read written).text.toList ≠ [] := by
  rcases read_cases written with hread | ⟨name, address, -, -, hread⟩
  · rw [hread]
    exact h
  · rw [hread, text_of_address, String.toList_ofList]
    simp

/-- Names written with slashes between them fall apart into their written forms. -/
theorem splitOn_intercalate {names : List UnitName} (hne : ∀ n ∈ names, n.text.toList ≠ [])
    (hslash : ∀ n ∈ names, '/' ∉ n.text.toList) :
    ((['/'].intercalate (names.map (·.text.toList))).splitOn '/').filter (!·.isEmpty) =
      names.map (·.text.toList) := by
  cases names with
  | nil => rfl
  | cons n ns =>
      rw [List.splitOn_intercalate]
      · apply List.filter_eq_self.mpr
        intro cs hcs
        obtain ⟨m, hm, rfl⟩ := List.mem_map.mp hcs
        simpa using hne m hm
      · intro cs hcs
        obtain ⟨m, hm, rfl⟩ := List.mem_map.mp hcs
        exact hslash m hm
      · exact List.cons_ne_nil _ _

end UnitName

/-- Between slashes there is nothing but characters of the text. -/
theorem mem_of_mem_splitOn {cs segment : List Char} (h : segment ∈ cs.splitOn '/') :
    ∀ c ∈ segment, c ∈ cs ∧ c ≠ '/' := by
  induction cs generalizing segment with
  | nil =>
      obtain rfl := List.mem_singleton.mp h
      exact nofun
  | cons d cs ih =>
      have hlater : ∀ {other : List Char}, other ∈ cs.splitOn '/' →
          ∀ c ∈ other, c ∈ d :: cs ∧ c ≠ '/' :=
        fun hother c hc => (ih hother c hc).imp_left (List.mem_cons_of_mem _)
      rw [List.splitOn_cons_eq_if_modifyHead] at h
      split at h
      · rcases List.mem_cons.mp h with rfl | h
        · exact nofun
        · exact hlater h
      · rename_i hd
        cases hsplit : cs.splitOn '/' with
        | nil => exact absurd hsplit (List.splitOn_ne_nil _ _)
        | cons first others =>
            rw [hsplit] at h hlater
            rcases List.mem_cons.mp h with rfl | h
            · intro c hc
              rcases List.mem_cons.mp hc with rfl | hc
              · exact ⟨List.mem_cons_self, by simpa using hd⟩
              · exact hlater List.mem_cons_self c hc
            · exact hlater (List.mem_cons_of_mem _ h)

theorem cons_intercalate (slash : Char) (cs : List Char) (css : List (List Char)) :
    slash :: [slash].intercalate (cs :: css) = (cs :: css).flatMap (slash :: ·) := by
  induction css generalizing cs with
  | nil => simp
  | cons ds css ih =>
      rw [List.intercalate_cons_cons, List.flatMap_cons, ← ih ds, List.append_assoc]
      rfl

end Devicetree
