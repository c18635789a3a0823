import Devicetree.Numeral
import Devicetree.Text.Place

/-!
# Node names

A node is told from its siblings by its name and, if it has one, its unit address. A unit
that is not a single hexadecimal number stays part of the name.
-/

namespace Devicetree

/-- What tells a node from its siblings. -/
structure UnitName where
  name : String
  address : Option UInt64
deriving DecidableEq, Repr

namespace UnitName

/-- Splits a text at its first `@`. -/
def read (text : String) : UnitName :=
  let name := text.toList.takeWhile (· ≠ '@')
  match text.toList.drop name.length with
  | [] => ⟨text, none⟩
  | _ :: unit =>
    match Numeral.word? 16 unit with
    | some address => ⟨String.ofList name, some address⟩
    | none => ⟨text, none⟩

/-- The written form `name@1f`. -/
def text (n : UnitName) : String :=
  match n.address with
  | some address => n.name ++ "@" ++ Numeral.hex address.toNat
  | none => n.name

end UnitName

/-- A node name where it is written. -/
abbrev NodeName := Spanned UnitName

/-- A label where it is written. -/
abbrev Label := Spanned String

end Devicetree
