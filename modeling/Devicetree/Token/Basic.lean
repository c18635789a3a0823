import Devicetree.Text.Span

/-!
# Tokens

The vocabulary of devicetree source. Blanks and comments are tokens too; they are trivia,
which the grammar never sees.
-/

namespace Devicetree

inductive Token
  /-- The directive `/dts-v1/`. -/
  | version
  /-- The directive `/plugin/`. -/
  | plugin
  /-- The directive `/memreserve/`. -/
  | memoryReserve
  /-- The directive `/include/`. -/
  | includeFile
  /-- The directive `/delete-node/`. -/
  | deleteNode
  /-- The directive `/delete-property/`. -/
  | deleteProperty
  /-- A preprocessor line with its argument, in quotes or in angle brackets. -/
  | hashInclude (path : String) (quoted : Bool)
  /-- A string literal; the escapes are resolved. -/
  | string (content : String)
  /-- Names, numbers and bytes share one class of characters. -/
  | word (text : String)
  /-- A label definition, without its colon. -/
  | label (name : String)
  /-- A label reference, without its ampersand. -/
  | labelRef (name : String)
  /-- A path reference; the text between its braces. -/
  | pathRef (path : String)
  | slash
  | leftBrace
  | rightBrace
  | leftAngle
  | rightAngle
  | leftBracket
  | rightBracket
  | semicolon
  | comma
  | equals
  | lineComment (content : String)
  | blockComment (content : String)
  | blank
  | newline
deriving DecidableEq, Repr

namespace Token

/-- Blanks and comments. -/
def isTrivia : Token → Bool
  | lineComment _ => true
  | blockComment _ => true
  | blank => true
  | newline => true
  | _ => false

/-- The written form. A blank is shown as one space and a newline as its escape. -/
def text : Token → String
  | version => "/dts-v1/"
  | plugin => "/plugin/"
  | memoryReserve => "/memreserve/"
  | includeFile => "/include/"
  | deleteNode => "/delete-node/"
  | deleteProperty => "/delete-property/"
  | hashInclude path true => "#include \"" ++ path ++ "\""
  | hashInclude path false => "#include <" ++ path ++ ">"
  | string content => "\"" ++ content ++ "\""
  | word text => text
  | label name => name ++ ":"
  | labelRef name => "&" ++ name
  | pathRef path => "&\x7b" ++ path ++ "\x7d"
  | slash => "/"
  | leftBrace => "\x7b"
  | rightBrace => "\x7d"
  | leftAngle => "<"
  | rightAngle => ">"
  | leftBracket => "["
  | rightBracket => "]"
  | semicolon => ";"
  | comma => ","
  | equals => "="
  | lineComment content => "//" ++ content
  | blockComment content => "/*" ++ content ++ "*/"
  | blank => " "
  | newline => "\\n"

end Token

/-- A token and the span it was read from. -/
structure Lexeme where
  token : Token
  span : Span
deriving DecidableEq, Repr

end Devicetree
