import Devicetree.Config.Moment
import Devicetree.Config.Toml

/-!
# Reading TOML

A document is read line by line. Every reader takes the characters left and gives what it
read and the characters after it, or nothing if they are not well formed.
-/

namespace Devicetree.Toml

/-- Characters that may stand in a comment or a string as they are. -/
def isPlain (c : Char) : Bool :=
  c == '\t' || (' ' ≤ c && c ≠ '\x7f')

def isGap (c : Char) : Bool :=
  c == ' ' || c == '\t'

def skipGap (cs : List Char) : List Char :=
  cs.dropWhile isGap

/-- The characters after the end of a line, if the line ends here. -/
def lineEnd? : List Char → Option (List Char)
  | [] => some []
  | '\n' :: cs => some cs
  | '\r' :: '\n' :: cs => some cs
  | _ => none

/-- The characters after a line that holds nothing more than a comment. -/
def lineTail? (cs : List Char) : Option (List Char) :=
  match skipGap cs with
  | '#' :: cs => lineEnd? (cs.dropWhile isPlain)
  | cs => lineEnd? cs

/-- Skips blanks, line ends and comments. -/
def skipLines? (inComment : Bool) : List Char → Option (List Char)
  | [] => some []
  | '\n' :: cs => skipLines? false cs
  | '\r' :: '\n' :: cs => skipLines? false cs
  | c :: cs =>
    if inComment then (if isPlain c then skipLines? true cs else none)
    else if c = '#' then skipLines? true cs
    else if isGap c then skipLines? false cs
    else some (c :: cs)

/-! ## Strings -/

/-- The character with a hexadecimal code. -/
def scalar? (digits : List Char) : Option Char :=
  ((Numeral.digits? 16 digits).filter Nat.isValidChar).map Char.ofNat

/-- The character that one character after a backslash stands for. -/
def escape? : Char → Option Char
  | 'b' => some '\x08'
  | 't' => some '\t'
  | 'n' => some '\n'
  | 'f' => some '\x0c'
  | 'r' => some '\r'
  | 'e' => some '\x1b'
  | '"' => some '"'
  | '\\' => some '\\'
  | _ => none

/-- Puts a character in front of what a reader gave. -/
def before (c : Char) (rest : Option (List Char × List Char)) : Option (List Char × List Char) :=
  rest.map fun (text, cs) => (c :: text, cs)

/-- The text up to a closing double quote. -/
def basic? : List Char → Option (List Char × List Char)
  | [] => none
  | '"' :: cs => some ([], cs)
  | '\\' :: 'x' :: a :: b :: cs => (scalar? [a, b]).bind (before · (basic? cs))
  | '\\' :: 'u' :: a :: b :: c :: d :: cs => (scalar? [a, b, c, d]).bind (before · (basic? cs))
  | '\\' :: 'U' :: a :: b :: c :: d :: e :: f :: g :: h :: cs =>
    (scalar? [a, b, c, d, e, f, g, h]).bind (before · (basic? cs))
  | '\\' :: c :: cs => (escape? c).bind (before · (basic? cs))
  | c :: cs => if isPlain c then before c (basic? cs) else none

/-- The text up to a closing single quote. -/
def literal? : List Char → Option (List Char × List Char)
  | [] => none
  | '\x27' :: cs => some ([], cs)
  | c :: cs => if isPlain c then before c (literal? cs) else none

/-- The text up to three closing double quotes; `trim` tells whether blanks and line ends
are being skipped after a backslash at the end of a line. -/
def basicLines? (trim : Bool) : List Char → Option (List Char × List Char)
  | [] => none
  | '"' :: '"' :: '"' :: '"' :: '"' :: cs => some (['"', '"'], cs)
  | '"' :: '"' :: '"' :: '"' :: cs => some (['"'], cs)
  | '"' :: '"' :: '"' :: cs => some ([], cs)
  | '\\' :: 'x' :: a :: b :: cs => (scalar? [a, b]).bind (before · (basicLines? false cs))
  | '\\' :: 'u' :: a :: b :: c :: d :: cs =>
    (scalar? [a, b, c, d]).bind (before · (basicLines? false cs))
  | '\\' :: 'U' :: a :: b :: c :: d :: e :: f :: g :: h :: cs =>
    (scalar? [a, b, c, d, e, f, g, h]).bind (before · (basicLines? false cs))
  | '\\' :: c :: cs =>
    match escape? c with
    | some e => before e (basicLines? false cs)
    | none =>
      match skipGap (c :: cs) with
      | '\n' :: _ => if isGap c || c = '\n' then basicLines? true cs else none
      | '\r' :: '\n' :: _ => if isGap c || c = '\r' then basicLines? true cs else none
      | _ => none
  | '\r' :: '\n' :: cs =>
    if trim then basicLines? true cs else before '\r' (before '\n' (basicLines? false cs))
  | c :: cs =>
    if c = '\n' || isPlain c then
      if trim && (c = '\n' || isGap c) then basicLines? true cs
      else before c (basicLines? false cs)
    else none

/-- The text up to three closing single quotes. -/
def literalLines? : List Char → Option (List Char × List Char)
  | [] => none
  | '\x27' :: '\x27' :: '\x27' :: '\x27' :: '\x27' :: cs => some (['\x27', '\x27'], cs)
  | '\x27' :: '\x27' :: '\x27' :: '\x27' :: cs => some (['\x27'], cs)
  | '\x27' :: '\x27' :: '\x27' :: cs => some ([], cs)
  | '\r' :: '\n' :: cs => before '\r' (before '\n' (literalLines? cs))
  | c :: cs => if c = '\n' || isPlain c then before c (literalLines? cs) else none

/-- A line end right after three opening quotes does not count. -/
def dropFirstLineEnd : List Char → List Char
  | '\n' :: cs => cs
  | '\r' :: '\n' :: cs => cs
  | cs => cs

/-! ## Keys and values -/

def isBare (c : Char) : Bool :=
  c.isAlphanum || c == '_' || c == '-'

/-- One part of a key. -/
def part? : List Char → Option (String × List Char)
  | '"' :: cs => (basic? cs).map fun (text, cs) => (String.ofList text, cs)
  | '\x27' :: cs => (literal? cs).map fun (text, cs) => (String.ofList text, cs)
  | cs =>
    match cs.takeWhile isBare with
    | [] => none
    | bare => some (String.ofList bare, cs.dropWhile isBare)

/-- A key, whose parts are divided by dots, and the blanks around it. The fuel bounds the
number of its parts. -/
def key? : Nat → List Char → Option (List String × List Char)
  | 0, _ => none
  | fuel + 1, cs =>
    (part? (skipGap cs)).bind fun (first, cs) =>
      match skipGap cs with
      | '.' :: cs => (key? fuel cs).map fun (more, cs) => (first :: more, cs)
      | cs => some ([first], cs)

/-- A word, and what follows it. A date takes the time that follows it after a blank. -/
def word (cs : List Char) : List Char × List Char :=
  let isPart (c : Char) : Bool := isBare c || c == '+' || c == '.' || c == ':'
  let first := cs.takeWhile isPart
  match cs.dropWhile isPart with
  | ' ' :: d :: rest =>
    if Moment.isDate first && d.isDigit then
      (first ++ ' ' :: (d :: rest).takeWhile isPart, (d :: rest).dropWhile isPart)
    else (first, ' ' :: d :: rest)
  | rest => (first, rest)

/-- A truth value, a number, a date or a time. -/
def bare? (cs : List Char) : Option (Value × List Char) :=
  let (text, rest) := word cs
  match text with
  | ['t', 'r', 'u', 'e'] => some (.boolean true, rest)
  | ['f', 'a', 'l', 's', 'e'] => some (.boolean false, rest)
  | text =>
    if Moment.isMoment text then some (.moment, rest)
    else (Number.ofWord? text).map fun n => (.number n, rest)

def quoted (read : Option (List Char × List Char)) : Option (Value × List Char) :=
  read.map fun (text, cs) => (.string (String.ofList text), cs)

/-- A value that holds no others. -/
def simple? : List Char → Option (Value × List Char)
  | '"' :: '"' :: '"' :: cs => quoted (basicLines? false (dropFirstLineEnd cs))
  | '"' :: cs => quoted (basic? cs)
  | '\x27' :: '\x27' :: '\x27' :: cs => quoted (literalLines? (dropFirstLineEnd cs))
  | '\x27' :: cs => quoted (literal? cs)
  | cs => bare? cs

/-- Values divided by commas, up to a closing bracket. The fuel bounds their number. -/
def items? (read : List Char → Option (Value × List Char)) :
    Nat → List Char → Option (List Value × List Char)
  | 0, _ => none
  | fuel + 1, cs =>
    (skipLines? false cs).bind fun
      | ']' :: cs => some ([], cs)
      | cs =>
        (read cs).bind fun (v, cs) =>
          (skipLines? false cs).bind fun
            | ']' :: cs => some ([v], cs)
            | ',' :: cs => (items? read fuel cs).map fun (vs, cs) => (v :: vs, cs)
            | _ => none

/-- A key and its value between braces, where lines may end on both sides of the sign. -/
def field? (read : List Char → Option (Value × List Char)) (cs : List Char) :
    Option ((List String × Value) × List Char) :=
  (key? cs.length cs).bind fun (key, cs) =>
    (skipLines? false cs).bind fun
      | '=' :: cs =>
        ((skipLines? false cs).bind read).map fun (v, cs) => ((key, v), cs)
      | _ => none

/-- Keys with values divided by commas, up to a closing brace, after some others. The fuel
bounds their number. -/
def fields? (read : List Char → Option (Value × List Char)) :
    Nat → Fields → List Char → Option (Fields × List Char)
  | 0, _, _ => none
  | fuel + 1, fields, cs =>
    (skipLines? false cs).bind fun
      | '\x7d' :: cs => some (fields, cs)
      | cs =>
        (field? read cs).bind fun ((key, v), cs) =>
          (assign key v fields).bind fun fields =>
            (skipLines? false cs).bind fun
              | '\x7d' :: cs => some (fields, cs)
              | ',' :: cs => fields? read fuel fields cs
              | _ => none

/-- A value in which brackets and braces nest at most so deep. -/
def value? : Nat → List Char → Option (Value × List Char)
  | 0, cs => simple? cs
  | depth + 1, cs =>
    match cs with
    | '[' :: cs =>
      (items? (value? depth) cs.length cs).map fun (items, cs) => (.array items, cs)
    | '\x7b' :: cs =>
      (fields? (value? depth) cs.length [] cs).map fun (fields, cs) => (.table .inline fields, cs)
    | cs => simple? cs

/-- How deep brackets and braces may nest. -/
def depthLimit : Nat := 80

/-! ## Documents -/

/-- What one line changes, and the characters after it. -/
def line? (d : Document) (cs : List Char) : Option (Document × List Char) :=
  match skipGap cs with
  | '[' :: '[' :: cs =>
    (key? cs.length cs).bind fun
      | (path, ']' :: ']' :: cs) => (d.openElement path).map (·, cs)
      | _ => none
  | '[' :: cs =>
    (key? cs.length cs).bind fun
      | (path, ']' :: cs) => (d.openTable path).map (·, cs)
      | _ => none
  | cs =>
    if (lineTail? cs).isSome then some (d, cs)
    else
      (key? cs.length cs).bind fun
        | (key, '=' :: cs) =>
          (value? depthLimit (skipGap cs)).bind fun (v, cs) => (d.put key v).map (·, cs)
        | _ => none

/-- The document after all lines left. The fuel bounds their number. -/
def lines? : Nat → Document → List Char → Option Document
  | _, d, [] => some d
  | 0, _, _ => none
  | fuel + 1, d, cs =>
    (line? d cs).bind fun (d, cs) => (lineTail? cs).bind fun cs => lines? fuel d cs

/-- The fields of a document. A byte order mark before it does not count. -/
def read? (text : String) : Option Fields :=
  let cs := match text.toList with
    | '\ufeff' :: cs => cs
    | cs => cs
  (lines? cs.length .empty cs).map (·.root)

end Devicetree.Toml
