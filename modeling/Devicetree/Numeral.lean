/-!
# Numerals

Unsigned numerals in a base up to sixteen. A numeral is one or more digits, after at most
one plus sign, and must fit the word it is read into. Cell numbers choose their base by
their first characters, and ignore the integer suffixes of C.
-/

namespace Devicetree.Numeral

/-- The value of a character as a digit, letters standing for ten and up. -/
def digitValue? (c : Char) : Option Nat :=
  if '0' ≤ c ∧ c ≤ '9' then some (c.toNat - '0'.toNat)
  else if 'a' ≤ c ∧ c ≤ 'f' then some (c.toNat - 'a'.toNat + 10)
  else if 'A' ≤ c ∧ c ≤ 'F' then some (c.toNat - 'A'.toNat + 10)
  else none

/-- The value of a character as a digit of the base. -/
def digit? (base : Nat) (c : Char) : Option Nat :=
  (digitValue? c).filter (· < base)

/-- The number that digits denote after those that denote `n`. -/
def extend? (base : Nat) (n : Nat) : List Char → Option Nat
  | [] => some n
  | c :: cs => (digit? base c).bind fun d => extend? base (n * base + d) cs

/-- The number that one or more digits denote. -/
def digits? (base : Nat) : List Char → Option Nat
  | [] => none
  | cs => extend? base 0 cs

/-- The number that digits denote after an optional plus sign. -/
def natural? (base : Nat) : List Char → Option Nat
  | '+' :: cs => digits? base cs
  | cs => digits? base cs

/-- A numeral that fits sixty-four bits. -/
def word? (base : Nat) (cs : List Char) : Option UInt64 :=
  ((natural? base cs).filter (· < UInt64.size)).map UInt64.ofNat

/-- A hexadecimal numeral that fits a byte. -/
def byte? (cs : List Char) : Option UInt8 :=
  ((natural? 16 cs).filter (· < UInt8.size)).map UInt8.ofNat

/-- The letters of C's integer suffixes. -/
def isSuffixLetter (c : Char) : Bool :=
  c == 'u' || c == 'U' || c == 'l' || c == 'L'

/-- The characters up to the last that is no suffix letter. -/
def dropSuffix (cs : List Char) : List Char :=
  (cs.reverse.dropWhile isSuffixLetter).reverse

/-- A number of a cell list: hexadecimal after `0x`, octal after a leading `0`, and decimal
otherwise. -/
def cell? (text : String) : Option UInt64 :=
  match dropSuffix text.toList with
  | '0' :: 'x' :: cs => word? 16 cs
  | '0' :: 'X' :: cs => word? 16 cs
  | '0' :: c :: cs => word? 8 (c :: cs)
  | cs => word? 10 cs

/-- Lower-case hexadecimal digits without leading zeros. -/
def hex (n : Nat) : String :=
  String.ofList (Nat.toDigits 16 n)

/-- The written form of a cell number. -/
def cellText (n : UInt64) : String :=
  "0x" ++ hex n.toNat

/-- Exactly two hexadecimal digits. -/
def byteText (b : UInt8) : String :=
  String.ofList [Nat.digitChar (b.toNat / 16), Nat.digitChar (b.toNat % 16)]

/-- The bytes that consecutive pairs of characters denote. -/
def bytePairs? : List Char → Option (List UInt8)
  | [] => some []
  | [_] => none
  | c :: d :: cs => do
    let b ← byte? [c, d]
    let bs ← bytePairs? cs
    return b :: bs

end Devicetree.Numeral
