/-!
# Blank characters

The characters with the Unicode property `White_Space`, twenty-five in number.
-/

namespace Devicetree.Blank

/-- First and last code point of each run of blank characters, in increasing order. -/
def ranges : List (Nat × Nat) :=
  [(0x09, 0x0d), (0x20, 0x20), (0x85, 0x85), (0xa0, 0xa0), (0x1680, 0x1680), (0x2000, 0x200a),
   (0x2028, 0x2029), (0x202f, 0x202f), (0x205f, 0x205f), (0x3000, 0x3000)]

/-- Whether a character is blank. -/
def isBlank (c : Char) : Bool :=
  ranges.any fun (first, last) => first ≤ c.toNat && c.toNat ≤ last

example : (ranges.map fun (first, last) => last + 1 - first).sum = 25 := by decide

end Devicetree.Blank
