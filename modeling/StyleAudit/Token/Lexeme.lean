import StyleAudit.Token.Basic
import StyleAudit.Token.Gap

/-!
# The token at the front of a text

The first character of a token decides how far it reaches.  Each measuring
function below counts the characters that belong to a construct once its opening
is behind us; a construct that is never closed has no length.  The kind of a
token is then a function of the characters it covers.
-/

namespace StyleAudit

namespace Token

/-- The characters of words: ASCII letters and digits, hyphens, underscores, and
all characters beyond ASCII. -/
def isWordChar (c : Char) : Bool :=
  c.isAlphanum || c == '-' || c == '_' || 0x80 ≤ c.toNat

/-- The length of the word at the front of a text.  A backslash takes the
character behind it into the word, whatever that is. -/
def wordLength : Text → Nat
  | [] => 0
  | ['\\'] => 1
  | '\\' :: _ :: rest => 2 + wordLength rest
  | c :: rest => if isWordChar c then 1 + wordLength rest else 0

/-- The length of a run of doc lines, from inside its first line.  The run goes
on when the next line is a doc line too, behind spaces, tabs and carriage
returns. -/
def docLinesLength : Text → Nat
  | [] => 0
  | c :: rest =>
    if c = '\n' then
      if isDocLine
        (rest.dropWhile fun d => d == ' ' || d == '\t' || d == '\r') then
        1 + docLinesLength rest
      else 0
    else 1 + docLinesLength rest

/-- The length of a comment behind its opening, the closing mark included. -/
def commentLength : Text → Option Nat
  | [] => none
  | '*' :: '/' :: _ => some 2
  | _ :: rest => (commentLength rest).map (1 + ·)

/-- The length of a string behind its opening quote, the closing quote included.
A backslash keeps the character behind it from closing the string. -/
def stringLength (quote : Char) : Text → Option Nat
  | [] => none
  | ['\\'] => none
  | '\\' :: _ :: rest => (stringLength quote rest).map (2 + ·)
  | c :: rest =>
    if c = quote then some 1 else (stringLength quote rest).map (1 + ·)

/-- The characters of a string without the backslashes that keep them. -/
def unescape : Text → Text
  | [] => []
  | ['\\'] => ['\\']
  | '\\' :: c :: rest => c :: unescape rest
  | c :: rest => c :: unescape rest

/-- Is the character one of the two quotes? -/
def isQuote (c : Char) : Bool :=
  c == '"' || c == '\''

/-- The length of a parameter list behind its opening, the closing parenthesis
included.  `depth` counts the parentheses open inside it, and `quote` is the
quote of the string that the text is in.  Parentheses in a string do not
count. -/
def parametersLength (depth : Nat) (quote : Option Char) :
    Text → Except OpenConstruct Nat
  | [] => .error (if quote.isSome then .string else .parameters)
  | c :: rest =>
    match quote with
    | some mark =>
      if c = '\\' then
        match rest with
        | [] => .error .string
        | _ :: rest => (parametersLength depth (some mark) rest).map (2 + ·)
      else
        (parametersLength depth (if c = mark then none else some mark) rest).map
          (1 + ·)
    | none =>
      if c = ')' then
        match depth with
        | 0 => .ok 1
        | depth + 1 => (parametersLength depth none rest).map (1 + ·)
      else if c = '(' then (parametersLength (depth + 1) none rest).map (1 + ·)
      else
        (parametersLength depth (if isQuote c then some c else none) rest).map
          (1 + ·)

/-- The length of an interpolation behind its opening, the closing brace
included.  `depth` counts the braces open inside it. -/
def interpolationLength (depth : Nat) : Text → Option Nat
  | [] => none
  | c :: rest =>
    if c = '}' then
      match depth with
      | 0 => some 1
      | depth + 1 => (interpolationLength depth rest).map (1 + ·)
    else
      (interpolationLength (if c = '{' then depth + 1 else depth) rest).map
        (1 + ·)

/-- What a token is, and how many characters follow its first one. -/
structure Lexeme where
  /-- What the token is. -/
  kind : Kind
  /-- The number of its characters behind the first. -/
  tail : Nat
deriving DecidableEq, Repr

namespace Lexeme

/-- A token of one character. -/
def single (kind : Kind) : Lexeme :=
  ⟨kind, 0⟩

/-- The rest of a text that leaves a construct open. -/
def unterminated (construct : OpenConstruct) (rest : Text) : Lexeme :=
  ⟨.unterminated construct, rest.length⟩

/-- A word that has a sign in front, or the sign alone. -/
def signed (sign : Char) (kind : Text → Kind) (rest : Text) : Lexeme :=
  match rest with
  | [] => single (.delimiter sign)
  | c :: _ =>
    if isWordChar c then ⟨kind (rest.take (wordLength rest)), wordLength rest⟩
    else single (.delimiter sign)

/-- A comment that begins with a slash and a star. -/
def comment (rest : Text) : Lexeme :=
  match commentLength (rest.drop 1) with
  | none => unterminated .comment rest
  | some length =>
    let text := '/' :: rest.take (1 + length)
    let plain := Text.beginsWith ['*', '*', '/'] rest ||
      !Text.beginsWith ['*', '*'] rest
    ⟨.comment (if plain then .block else .doc) text, 1 + length⟩

/-- A run of doc lines. -/
def docLines (rest : Text) : Lexeme :=
  ⟨.comment .docLine ('/' :: rest.take (docLinesLength rest)),
    docLinesLength rest⟩

/-- A quoted string. -/
def string (quote : Char) (rest : Text) : Lexeme :=
  match stringLength quote rest with
  | none => unterminated .string rest
  | some length => ⟨.string (unescape (rest.take (length - 1))), length⟩

/-- A parameter list. -/
def parameters (rest : Text) : Lexeme :=
  match parametersLength 0 none rest with
  | .error construct => unterminated construct rest
  | .ok length => ⟨.parameters (rest.take (length - 1)), length⟩

/-- An interpolation; the text begins with its brace. -/
def interpolation (rest : Text) : Lexeme :=
  match interpolationLength 0 (rest.drop 1) with
  | none => unterminated .interpolation rest
  | some length =>
    ⟨.interpolation ((rest.drop 1).take (length - 1)), 1 + length⟩

/-- The token that begins with `c`, in front of `rest`. -/
def read (c : Char) (rest : Text) : Lexeme :=
  if c = '{' then single .openBrace
  else if c = '}' then single .closeBrace
  else if c = ';' then single .semicolon
  else if c = ':' then single .colon
  else if c = ',' then single .comma
  else if c = '/' ∧ Text.beginsWith ['/', '/'] rest then docLines rest
  else if c = '/' ∧ Text.beginsWith ['*'] rest then comment rest
  else if isQuote c then string c rest
  else if c = '(' then parameters rest
  else if c = '#' ∧ Text.beginsWith ['{'] rest then interpolation rest
  else if c = '@' then signed '@' .atKeyword rest
  else if c = '$' then signed '$' .variableName rest
  else if isWordChar c ∨ c = '\\' then
    ⟨.ident ((c :: rest).take (wordLength (c :: rest))),
      wordLength (c :: rest) - 1⟩
  else single (.delimiter c)

end Lexeme

end Token

end StyleAudit
