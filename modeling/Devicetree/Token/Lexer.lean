import Devicetree.Diagnostic
import Devicetree.Text.Blank
import Devicetree.Text.Place
import Devicetree.Token.Basic

/-!
# Reading tokens

A text is read from left to right. At each place the first class of tokens that fits decides
how far the token goes. Where a token is opened and not closed, or nothing fits, a fault is
reported, one more character is skipped, and reading goes on.
-/

namespace Devicetree

/-- Why reading a token failed. -/
inductive Fault
  | unterminatedString
  | unterminatedComment
  | unterminatedPath
  | unexpectedCharacter
deriving DecidableEq, Repr

namespace Fault

def code : Fault → Code
  | unterminatedString => .unterminatedString
  | unterminatedComment => .unterminatedComment
  | unterminatedPath => .unterminatedPath
  | unexpectedCharacter => .unexpectedCharacter

def help : Fault → Option String
  | unterminatedString => some "add closing `\"` before the end of the line"
  | unterminatedComment => some "close the comment with `*/`"
  | unterminatedPath => some "close the path with `\x7d`"
  | unexpectedCharacter => none

def diagnostic (fault : Fault) (span : Span) : Diagnostic :=
  .errorAt fault.code fault.code.description span fault.code.description fault.help

end Fault

/-- What is found at a place of a text that has not ended. -/
inductive Scan
  /-- A token of one character and `more` others. -/
  | token (token : Token) (more : Nat)
  /-- A fault noticed after `reach` characters. -/
  | fault (fault : Fault) (reach : Nat)
deriving DecidableEq, Repr

namespace Scan

/-- Letters and digits of ASCII. -/
def isAlphanumeric (c : Char) : Bool :=
  c.isAlpha || c.isDigit

def isWordChar (c : Char) : Bool :=
  isAlphanumeric c || c == ',' || c == '.' || c == '_' || c == '+' || c == '-' || c == '?' ||
    c == '#' || c == '@'

def isLabelChar (c : Char) : Bool :=
  isAlphanumeric c || c == '_'

/-- The character that an escape stands for. An unknown escape stands for itself. -/
def unescape : Char → Char
  | 'n' => '\n'
  | 't' => '\t'
  | 'r' => '\r'
  | '0' => '\x00'
  | c => c

/-- A string literal read past its opening quote. -/
structure StringBody where
  content : List Char
  /-- Number of characters read, the closing quote included. -/
  length : Nat
  closed : Bool

/-- Content up to the closing quote, or to the first character that cannot be content. An
escape takes any character. -/
def stringBody : Text → StringBody
  | [] => ⟨[], 0, false⟩
  | ['\\'] => ⟨[], 0, false⟩
  | '\\' :: c :: cs =>
    let body := stringBody cs
    ⟨unescape c :: body.content, body.length + 2, body.closed⟩
  | c :: cs =>
    if c = '"' then ⟨[], 1, true⟩
    else if c = '\n' then ⟨[], 0, false⟩
    else
      let body := stringBody cs
      ⟨c :: body.content, body.length + 1, body.closed⟩

/-- Content up to the first `*/`. -/
def commentBody? : Text → Option (List Char)
  | '*' :: '/' :: _ => some []
  | c :: cs => (commentBody? cs).map (c :: ·)
  | [] => none

def lineComment? : Text → Option Scan
  | '/' :: '/' :: cs =>
    let content := cs.takeWhile (· ≠ '\n')
    some (.token (.lineComment (String.ofList content)) (content.length + 1))
  | _ => none

def blockComment? : Text → Option Scan
  | '/' :: '*' :: cs =>
    match commentBody? cs with
    | some content => some (.token (.blockComment (String.ofList content)) (content.length + 3))
    | none => some (.fault .unterminatedComment 2)
  | _ => none

def string? : Text → Option Scan
  | '"' :: cs =>
    let body := stringBody cs
    if body.closed then some (.token (.string (String.ofList body.content)) body.length)
    else some (.fault .unterminatedString (body.length + 1))
  | _ => none

/-- The directives, each of which is its own written form. -/
def directives : List Token :=
  [.deleteProperty, .deleteNode, .memoryReserve, .includeFile, .version, .plugin]

def directive? (cs : Text) : Option Scan :=
  (directives.find? fun token => token.text.toList.isPrefixOf cs).map fun token =>
    .token token (token.text.length - 1)

/-- Text up to a closing character on the same line. -/
def enclosed? (close : Char) (cs : Text) : Option (List Char) :=
  let content := cs.takeWhile fun c => c ≠ close ∧ c ≠ '\n'
  if (cs.drop content.length).head? = some close then some content else none

def hashInclude? (cs : Text) : Option Scan :=
  if "#include".toList.isPrefixOf cs then
    let rest := cs.drop 8
    let gap := rest.takeWhile fun c => c = ' ' ∨ c = '\t'
    if gap.isEmpty then none
    else
      match rest.drop gap.length with
      | '"' :: argument => (enclosed? '"' argument).map fun path =>
          .token (.hashInclude (String.ofList path) true) (gap.length + path.length + 9)
      | '<' :: argument => (enclosed? '>' argument).map fun path =>
          .token (.hashInclude (String.ofList path) false) (gap.length + path.length + 9)
      | _ => none
  else none

def pathRef? : Text → Option Scan
  | '&' :: '\x7b' :: cs =>
    match enclosed? '\x7d' cs with
    | some path => some (.token (.pathRef (String.ofList path)) (path.length + 2))
    | none =>
      some (.fault .unterminatedPath ((cs.takeWhile fun c => c ≠ '\x7d' ∧ c ≠ '\n').length + 2))
  | _ => none

def labelRef? : Text → Option Scan
  | '&' :: cs =>
    let name := cs.takeWhile isLabelChar
    if name.isEmpty then none
    else some (.token (.labelRef (String.ofList name)) name.length)
  | _ => none

/-- A label starts with no digit, and a colon follows it at once. -/
def label? (cs : Text) : Option Scan :=
  let name := cs.takeWhile isLabelChar
  match name with
  | [] => none
  | c :: _ =>
    if (c.isAlpha || c == '_') && (cs.drop name.length).head? = some ':' then
      some (.token (.label (String.ofList name)) name.length)
    else none

/-- A word starts with no comma. -/
def word? (cs : Text) : Option Scan :=
  let text := cs.takeWhile isWordChar
  match text with
  | [] => none
  | ',' :: _ => none
  | _ => some (.token (.word (String.ofList text)) (text.length - 1))

/-- The tokens of a single character. -/
def mark? : Text → Option Scan
  | '/' :: _ => some (.token .slash 0)
  | '\x7b' :: _ => some (.token .leftBrace 0)
  | '\x7d' :: _ => some (.token .rightBrace 0)
  | '<' :: _ => some (.token .leftAngle 0)
  | '>' :: _ => some (.token .rightAngle 0)
  | '[' :: _ => some (.token .leftBracket 0)
  | ']' :: _ => some (.token .rightBracket 0)
  | ';' :: _ => some (.token .semicolon 0)
  | ',' :: _ => some (.token .comma 0)
  | '=' :: _ => some (.token .equals 0)
  | '\n' :: _ => some (.token .newline 0)
  | _ => none

def blank? (cs : Text) : Option Scan :=
  let gap := cs.takeWhile fun c => Blank.isBlank c && c != '\n'
  if gap.isEmpty then none else some (.token .blank (gap.length - 1))

/-- The first class that fits decides. -/
def ofText (cs : Text) : Scan :=
  (lineComment? cs <|> blockComment? cs <|> string? cs <|> directive? cs <|> hashInclude? cs <|>
    pathRef? cs <|> labelRef? cs <|> label? cs <|> word? cs <|> mark? cs <|> blank? cs).getD
    (.fault .unexpectedCharacter 0)

end Scan

/-- The span of a fault: from the token's first character to where it was noticed. Of a
character that fits nothing the span takes the first byte. -/
def Fault.span (fault : Fault) (file : FileId) (start : Place) (c : Char) (reached : Place) :
    Span :=
  match fault with
  | .unexpectedCharacter =>
    ⟨file, start.offset, start.offset + 1, start.position,
      start.positionOf (start.offset + 1) [c]⟩
  | _ => start.spanTo reached file

/-- The tokens of a text and the faults found between them. -/
structure Tokens where
  lexemes : List Lexeme
  faults : List Diagnostic

namespace Tokens

/-- Reads the text that follows a place. -/
def readFrom (file : FileId) (place : Place) : Text → Tokens
  | [] => ⟨[], []⟩
  | c :: rest =>
    match Scan.ofText (c :: rest) with
    | .token token more =>
      let after := place.walk (c :: rest.take more)
      let tokens := readFrom file after (rest.drop more)
      ⟨⟨token, place.spanTo after file⟩ :: tokens.lexemes, tokens.faults⟩
    | .fault fault reach =>
      let reached := place.walk ((c :: rest).take reach)
      let tokens := readFrom file (place.walk (c :: rest.take reach)) (rest.drop reach)
      ⟨tokens.lexemes, fault.diagnostic (fault.span file place c reached) :: tokens.faults⟩
termination_by cs => cs.length
decreasing_by all_goals simp only [List.length_drop, List.length_cons]; omega

/-- Reads a whole text. -/
def read (file : FileId) (text : Text) : Tokens :=
  readFrom file Place.origin text

end Tokens

end Devicetree
