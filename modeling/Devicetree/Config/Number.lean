import Devicetree.Numeral

/-!
# Numbers of a TOML document

Integers in four bases, and decimals. Underscores may stand between digits. A document may
write any number; one that is read must fit: an integer, 128 bits with or without a sign; a
decimal, the finite range of a 64-bit binary float.
-/

namespace Devicetree.Toml

/-- A number of digits times a power of ten. -/
structure Decimal where
  coefficient : Nat
  exponent : Int
deriving DecidableEq, Repr

namespace Decimal

/-- Halfway from the largest finite value to what would come next; from here on a value is
rounded to infinity. -/
def limit : Nat :=
  Nat.pow 2 1024 - Nat.pow 2 970

/-- The number of digits before the point, which may be negative; `limit` has 309. -/
def magnitude (d : Decimal) : Int :=
  (Nat.toDigits 10 d.coefficient).length + d.exponent

/-- Whether the value is below `limit`. -/
def isFinite (d : Decimal) : Bool :=
  if d.coefficient = 0 || d.magnitude < 309 then true
  else if 309 < d.magnitude then false
  else
    match d.exponent with
    | .ofNat n => d.coefficient * Nat.pow 10 n < limit
    | .negSucc n => d.coefficient < limit * Nat.pow 10 (n + 1)

end Decimal

inductive Number
  | integer (value : Int)
  /-- A decimal, whatever its sign. -/
  | decimal (size : Decimal)
  /-- Infinity, or no number at all. -/
  | special
deriving DecidableEq, Repr

namespace Number

/-- Whether a number can be read. -/
def fits : Number → Bool
  | integer (.ofNat n) => n < Nat.pow 2 128
  | integer (.negSucc n) => n < Nat.pow 2 127
  | decimal d => d.isFinite
  | special => true

/-- The digits of a base at the front, without the underscores between them, and what follows;
`inside` tells whether a digit came just before. -/
def digits? (base : Nat) (inside : Bool) : List Char → Option (List Char × List Char)
  | [] => if inside then some ([], []) else none
  | c :: cs =>
    if (Numeral.digit? base c).isSome then
      (digits? base true cs).map fun (ds, rest) => (c :: ds, rest)
    else if inside then (if c = '_' then digits? base false cs else some ([], c :: cs))
    else none

/-- A whole number, which has no leading zero. -/
def whole? : List Char → Option (List Char × List Char)
  | '0' :: cs => some (['0'], cs)
  | cs => digits? 10 false cs

/-- The digits after a point, if there is one. -/
def fraction? : List Char → Option (List Char × List Char)
  | '.' :: cs => digits? 10 false cs
  | cs => some ([], cs)

/-- Whether a minus sign is in front, and what follows the sign. -/
def signed : List Char → Bool × List Char
  | '+' :: cs => (false, cs)
  | '-' :: cs => (true, cs)
  | cs => (false, cs)

/-- The integer with a sign and digits. -/
def ofDigits (base : Nat) (negative : Bool) (ds : List Char) : Int :=
  let n : Int := (Numeral.digits? base ds).getD 0
  if negative then -n else n

/-- The power of ten after a mark, if there is one. -/
def exponent? : List Char → Option (Int × List Char)
  | [] => some (0, [])
  | c :: cs =>
    if c = 'e' || c = 'E' then
      let (negative, cs) := signed cs
      (digits? 10 false cs).map fun (ds, rest) => (ofDigits 10 negative ds, rest)
    else some (0, c :: cs)

/-- An integer whose base was given. -/
def based? (base : Nat) (cs : List Char) : Option Number :=
  match digits? base false cs with
  | some (ds, []) => some (.integer (ofDigits base false ds))
  | _ => none

/-- An integer or a decimal past its sign. -/
def unsigned? (negative : Bool) (cs : List Char) : Option Number :=
  (whole? cs).bind fun
    | (ds, []) => some (.integer (ofDigits 10 negative ds))
    | (ds, rest) =>
      (fraction? rest).bind fun (fs, rest) =>
        (exponent? rest).bind fun
          | (power, []) =>
            some (.decimal ⟨(Numeral.digits? 10 (ds ++ fs)).getD 0, power - fs.length⟩)
          | _ => none

/-- The number that a whole word is. -/
def ofWord? : List Char → Option Number
  | '0' :: 'x' :: cs => based? 16 cs
  | '0' :: 'o' :: cs => based? 8 cs
  | '0' :: 'b' :: cs => based? 2 cs
  | cs =>
    match signed cs with
    | (_, ['i', 'n', 'f']) => some .special
    | (_, ['n', 'a', 'n']) => some .special
    | (negative, cs) => unsigned? negative cs

end Number

end Devicetree.Toml
