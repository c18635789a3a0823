import Devicetree.Numeral

/-!
# Dates and times of a TOML document

A date, a time, or both with or without an offset. The seconds may be left out. Only whether a
word is one of these matters to a reader of settings.
-/

namespace Devicetree.Toml.Moment

/-- A number of exactly so many digits, and what follows. -/
def fixed? (width : Nat) (cs : List Char) : Option (Nat × List Char) :=
  let ds := cs.takeWhile Char.isDigit
  if ds.length = width then (Numeral.digits? 10 ds).map (·, cs.dropWhile Char.isDigit) else none

/-- A number of two digits up to a bound, and what follows. -/
def upTo? (bound : Nat) (cs : List Char) : Option (List Char) :=
  (fixed? 2 cs).bind fun (n, cs) => if n ≤ bound then some cs else none

/-- What follows a character. -/
def past? (mark : Char) : List Char → Option (List Char)
  | [] => none
  | c :: cs => if c = mark then some cs else none

def isLeap (year : Nat) : Bool :=
  year % 4 = 0 && (year % 100 ≠ 0 || year % 400 = 0)

def daysIn (year : Nat) : Nat → Nat
  | 2 => if isLeap year then 29 else 28
  | 4 => 30
  | 6 => 30
  | 9 => 30
  | 11 => 30
  | _ => 31

/-- What follows a date. -/
def date? (cs : List Char) : Option (List Char) := do
  let (year, cs) ← fixed? 4 cs
  let (month, cs) ← fixed? 2 (← past? '-' cs)
  let (day, cs) ← fixed? 2 (← past? '-' cs)
  if 1 ≤ month && month ≤ 12 && 1 ≤ day && day ≤ daysIn year month then some cs else none

/-- What follows the seconds and their fraction, if there are any. A minute may have a leap
second. -/
def seconds? : List Char → Option (List Char)
  | ':' :: cs =>
    (upTo? 60 cs).bind fun
      | '.' :: cs => if cs.head?.any Char.isDigit then some (cs.dropWhile Char.isDigit) else none
      | cs => some cs
  | cs => some cs

/-- What follows a time. -/
def time? (cs : List Char) : Option (List Char) := do
  let cs ← upTo? 23 cs
  let cs ← upTo? 59 (← past? ':' cs)
  seconds? cs

/-- What follows an offset, if there is one. -/
def offset? : List Char → Option (List Char)
  | [] => some []
  | c :: cs =>
    if c = 'Z' || c = 'z' then some cs
    else if c = '+' || c = '-' then do upTo? 59 (← past? ':' (← upTo? 23 cs))
    else none

/-- Whether a word is a date alone. -/
def isDate (cs : List Char) : Bool :=
  date? cs == some []

def isMoment (cs : List Char) : Bool :=
  time? cs == some [] ||
    match date? cs with
    | some [] => true
    | some (c :: cs) =>
      (c = 'T' || c = 't' || c = ' ') && (time? cs).bind offset? == some []
    | none => false

end Devicetree.Toml.Moment
