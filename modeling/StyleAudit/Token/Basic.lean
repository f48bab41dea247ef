import StyleAudit.Position

/-!
# Tokens

A stylesheet is read as a list of tokens.  A token keeps the text it covers and
the text of the gap behind it, so that the tokens together hold the whole
stylesheet.
-/

namespace StyleAudit

/-- How a comment is written. -/
inductive CommentStyle where
  /-- Between `/*` and `*/`. -/
  | block
  /-- Between `/**` and `*/`. -/
  | doc
  /-- On consecutive lines that begin with `///`. -/
  | docLine
deriving DecidableEq, Repr

/-- A construct that the end of the text leaves open. -/
inductive OpenConstruct where
  | comment
  | string
  | parameters
  | interpolation
deriving DecidableEq, Repr

namespace OpenConstruct

/-- What is wrong with a construct that is left open. -/
def message : OpenConstruct → String
  | .comment => "unterminated comment"
  | .string => "unterminated string literal"
  | .parameters => "unterminated parameter list"
  | .interpolation => "unterminated interpolation"

end OpenConstruct

namespace Token

/-- The kinds of token, with what they carry. -/
inductive Kind where
  | openBrace
  | closeBrace
  | semicolon
  | colon
  | comma
  /-- A keyword such as `@mixin`, without its sign. -/
  | atKeyword (name : Text)
  /-- A word such as `c-button` or `hover`. -/
  | ident (name : Text)
  /-- A variable such as `$size`, without its sign. -/
  | variableName (name : Text)
  /-- What stands between `#{` and its closing brace. -/
  | interpolation (inner : Text)
  /-- What stands between a parenthesis and its closing one. -/
  | parameters (inner : Text)
  /-- The value of a quoted string. -/
  | string (value : Text)
  /-- Any other single character. -/
  | delimiter (character : Char)
  /-- A comment with its marks. -/
  | comment (style : CommentStyle) (text : Text)
  | endOfInput
  /-- The rest of a text that leaves a construct open. -/
  | unterminated (construct : OpenConstruct)
deriving DecidableEq, Repr

namespace Kind

/-- Is the token a comment? -/
def isComment : Kind → Bool
  | .comment _ _ => true
  | _ => false

/-- Does the token end a statement, or open or close a block? -/
def isBoundary : Kind → Bool
  | .openBrace | .closeBrace | .semicolon | .endOfInput => true
  | _ => false

/-- The name of the kind, for people. -/
def shown : Kind → String
  | .openBrace => "'\x7b'"
  | .closeBrace => "'\x7d'"
  | .semicolon => "';'"
  | .colon => "':'"
  | .comma => "','"
  | .atKeyword _ => "at-keyword"
  | .ident _ => "identifier"
  | .variableName _ => "variable"
  | .interpolation _ => "interpolation"
  | .parameters _ => "parameter list"
  | .string _ => "string"
  | .delimiter _ => "delimiter"
  | .comment _ _ => "comment"
  | .endOfInput => "end of input"
  | .unterminated _ => "error"

/-- The text that the token carries. -/
def value? : Kind → Option Text
  | .atKeyword name | .ident name | .variableName name => some name
  | .interpolation inner | .parameters inner => some inner
  | .string value => some value
  | .delimiter character => some [character]
  | .comment _ text => some text
  | .unterminated construct => some construct.message.toList
  | .openBrace | .closeBrace | .semicolon | .colon | .comma | .endOfInput =>
    none

end Kind

end Token

/-- A token in its place. -/
structure Token where
  /-- What the token is. -/
  kind : Token.Kind
  /-- Where the token is. -/
  span : Span
  /-- The text that the token covers. -/
  text : Text
  /-- The text between this token and the next one. -/
  gap : Text
deriving DecidableEq, Repr

namespace Token

/-- The token behind all others. -/
def endAt (position : Position) : Token :=
  { kind := .endOfInput, span := .point position, text := [], gap := [] }

end Token

end StyleAudit
