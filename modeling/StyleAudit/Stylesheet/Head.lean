import StyleAudit.Stylesheet.Node

/-!
# Heads of items

The tokens in front of a semicolon or a block tell what an item is.  An
at-keyword in front makes it an import, an include or another at-rule; anything
else is a selector or a property.
-/

namespace StyleAudit

namespace Token

/-- The text from the first of the tokens to the end of the last. -/
def runText : List Token → Text
  | [] => []
  | [token] => token.text
  | token :: next :: rest => token.text ++ token.gap ++ runText (next :: rest)

/-- The span from the first of the tokens to the last. -/
def runSpan : List Token → Span
  | [] => .first
  | token :: rest => token.span.joined (rest.getLastD token).span

/-- The tokens up to the last one that is no comment. -/
def dropTrailingComments (tokens : List Token) : List Token :=
  (tokens.reverse.dropWhile (·.kind.isComment)).reverse

end Token

/-- What the head of an item says. -/
inductive Head where
  /-- A selector, or a property. -/
  | style (selector : Text)
  | atRule (rule : AtRule)
  | importing (kind : ImportKind) (targets : List ImportTarget)
  | including (name : Text) (arguments : Option Text)
deriving DecidableEq, Repr

namespace Head

/-- The parameter list at the front of the tokens. -/
def parameters? : List Token → Option Text
  | { kind := .parameters inner, .. } :: _ => some inner
  | _ => none

/-- The text of an at-rule behind its keyword.  A name without anything behind
it brings the gap behind it along. -/
def prelude (tokens : List Token) : Text :=
  match tokens with
  | { kind := .ident name, span, text, gap } :: rest =>
    match Token.dropTrailingComments rest with
    | [] => Text.normalizeBlanks (text ++ gap)
    | kept =>
      Text.normalizeBlanks
        (Token.runText (⟨.ident name, span, text, gap⟩ :: kept))
  | _ =>
    Text.normalizeBlanks (Token.runText (Token.dropTrailingComments tokens))

/-- An at-rule other than an import or an include, from the tokens behind its
keyword. -/
def atRuleOf (keyword : Text) (tokens : List Token) : AtRule :=
  match tokens with
  | { kind := .ident name, .. } :: rest =>
    { keyword, name := some name, parameters := parameters? rest,
      prelude := prelude tokens }
  | _ =>
    { keyword, name := none, parameters := none, prelude := prelude tokens }

/-- Is the path left to the browser? -/
def isPlainCss (path : Text) : Bool :=
  Text.endsWith ".css".toList path || Text.beginsWith "http://".toList path ||
    Text.beginsWith "https://".toList path || Text.beginsWith "//".toList path

/-- The stylesheets named by the tokens behind an import keyword: quoted paths,
and paths in `url(…)`. -/
def targets : List Token → List ImportTarget
  | [] => []
  | { kind := .ident name, span, .. } ::
    { kind := .parameters inner, span := last, .. } :: rest =>
    if name = "url".toList then
      ⟨Text.trimAny (fun c => c == '"' || c == '\'') (Text.trim inner), true,
        span.joined last⟩ ::
        targets rest
    else targets rest
  | { kind := .string path, span, .. } :: rest =>
    ⟨path, isPlainCss path, span⟩ :: targets rest
  | _ :: rest => targets rest

/-- The rest of a dotted name, and the tokens behind it.  A dot without a word
behind it is passed over. -/
def dottedName : List Token → Text × List Token
  | { kind := .delimiter '.', .. } :: { kind := .ident part, .. } :: rest =>
    let (name, behind) := dottedName rest
    ('.' :: part ++ name, behind)
  | { kind := .delimiter '.', .. } :: rest => dottedName rest
  | tokens => ([], tokens)

/-- An include, from the tokens behind its keyword. -/
def includingOf : List Token → Head
  | { kind := .ident name, .. } :: rest =>
    let (dotted, behind) := dottedName rest
    .including (name ++ dotted) (parameters? behind)
  | _ => .including [] none

/-- What the tokens of a head say. -/
def ofTokens (tokens : List Token) : Head :=
  match tokens with
  | { kind := .atKeyword keyword, .. } :: rest =>
    match ImportKind.ofKeyword? keyword with
    | some kind => .importing kind (targets rest)
    | none =>
      if keyword = "include".toList then includingOf rest
      else .atRule (atRuleOf keyword rest)
  | _ =>
    .style
      (Text.normalizeBlanks (Token.runText (Token.dropTrailingComments tokens)))

end Head

end StyleAudit
