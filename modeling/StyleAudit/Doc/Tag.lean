import StyleAudit.Doc.Block
import StyleAudit.Text.Alphanumeric

/-!
# Tags of a doc comment

A tag line begins with an at sign and a name.  What may follow depends on the
name, and a line that does not keep to it is malformed.
-/

namespace StyleAudit

namespace Doc

namespace Tag

/-- Why a tag line is malformed. -/
inductive Flaw where
  | emptyName
  | missingKind
  | unknownKind (word : Text)
  | missingWord (tag : Text)
  | severalWords (tag : Text)
  | missingReturns
  | unclosedType
  | emptyType
  | unclosedBracket
  | emptyDefault
  | missingMemberName
  | invalidMemberName (name : Text)
  | optionalProperty (name : Text)
  | missingModifierName
  | invalidModifierName (name : Text)
deriving DecidableEq, Repr

namespace Flaw

/-- The flaw in words. -/
def message : Flaw → String
  | .emptyName => "empty tag name"
  | .missingKind => "@type needs a declaration kind"
  | .unknownKind word => s!"unknown declaration kind '{word.shown}'"
  | .missingWord tag => s!"@{tag.shown} needs a name"
  | .severalWords tag => s!"@{tag.shown} takes a single name"
  | .missingReturns => "@returns needs a value"
  | .unclosedType => "unclosed '\x7b' in type"
  | .emptyType => "empty type"
  | .unclosedBracket => "unclosed '[' in name"
  | .emptyDefault => "empty default value"
  | .missingMemberName => "missing name"
  | .invalidMemberName name => s!"invalid name '{name.shown}'"
  | .optionalProperty name =>
    s!"@prop '{name.shown}' cannot be optional or defaulted"
  | .missingModifierName => "@modifier needs a name"
  | .invalidModifierName name => s!"invalid modifier name '{name.shown}'"

end Flaw

end Tag

/-- What a tag line says. -/
inductive Tag where
  | kind (kind : DeclarationKind)
  | name (name : Text)
  | implements (name : Text)
  | returns (value : Text)
  | parameter (parameter : Parameter)
  | property (property : Property)
  | modifier (modifier : Modifier)
  | extension (tag value : Text)
deriving DecidableEq, Repr

namespace Tag

/-! ### Members -/

/-- A type in braces at the front, and what follows it. -/
def takeType (text : Text) : Except Flaw (Option Text × Text) :=
  if Text.beginsWith ['{'] text then
    match Text.splitFirst? (· == '}') (text.drop 1) with
    | none => .error .unclosedType
    | some (inner, behind) =>
      if (Text.trim inner).isEmpty then .error .emptyType
      else .ok (some (Text.trim inner), Text.trimStart behind)
  else .ok (none, text)

/-- The word or bracket at the front that holds the name of a member. -/
structure NamePart where
  /-- What the word or bracket holds. -/
  text : Text
  /-- Is it a bracket? -/
  optional : Bool
  /-- What follows it. -/
  behind : Text
deriving DecidableEq, Repr

/-- The word or bracket at the front. -/
def takeNamePart (text : Text) : Except Flaw NamePart :=
  if Text.beginsWith ['['] text then
    match Text.splitFirst? (· == ']') (text.drop 1) with
    | none => .error .unclosedBracket
    | some (inner, behind) => .ok ⟨inner, true, behind⟩
  else
    .ok ⟨text.takeWhile (!Text.isBlank ·), false,
      text.dropWhile (!Text.isBlank ·)⟩

/-- The name of a member, and the default value that an equals sign joins to
it. -/
def splitDefault (text : Text) : Except Flaw (Text × Option Text) :=
  match Text.splitFirst? (· == '=') text with
  | none => .ok (Text.trim text, none)
  | some (front, value) =>
    if (Text.trim value).isEmpty then .error .emptyDefault
    else .ok (Text.trim front, some (Text.trim value))

/-- A member's name without the sign of a variable in front. -/
def memberName (text : Text) : Except Flaw Text :=
  let name := (Text.dropFront? ['$'] text).getD text
  if name.isEmpty then .error .missingMemberName
  else if name.all Text.isNameChar then .ok name
  else .error (.invalidMemberName name)

/-- The text up to a hyphen between spaces, and the text from that hyphen on. -/
def splitDash : Text → Text × Text
  | [] => ([], [])
  | c :: rest =>
    if Text.beginsWith [' ', '-', ' '] (c :: rest) then ([], rest)
    else (c :: (splitDash rest).1, (splitDash rest).2)

/-- A default value that stands apart from the name, and what follows it. -/
def takeSpacedDefault (text : Text) : Except Flaw (Option Text × Text) :=
  if Text.beginsWith ['='] text then
    let (value, behind) := splitDash (text.drop 1)
    if (Text.trim value).isEmpty then .error .emptyDefault
    else .ok (some (Text.trim value), Text.trim behind)
  else .ok (none, text)

/-- A description, without the hyphen in front of it. -/
def description (text : Text) : Text :=
  match Text.dropFront? ['-'] text with
  | some behind => Text.trimStart behind
  | none => text

/-- The member that a text describes: a type in braces, a name, perhaps in
brackets, perhaps with a default value, and a description. -/
def member (text : Text) : Except Flaw Parameter := do
  let (type, named) ← takeType (Text.trim text)
  let part ← takeNamePart named
  let (raw, joined) ← splitDefault part.text
  let name ← memberName raw
  let behind := Text.trim part.behind
  let (spaced, behind) ←
    if joined.isNone && !part.optional then takeSpacedDefault behind
    else pure (none, behind)
  let default := joined <|> spaced
  pure
    { name, type, optional := part.optional || default.isSome, default,
      description := description behind }

/-- The property that a text describes. -/
def propertyOf (text : Text) : Except Flaw Property := do
  let parameter ← member text
  if parameter.optional then throw (.optionalProperty parameter.name)
  pure
    { name := parameter.name, type := parameter.type,
      description := parameter.description }

/-- The modifier that a text describes. -/
def modifierOf (text : Text) : Except Flaw Modifier :=
  let trimmed := Text.trim text
  let name := Text.dropPairs '-' '-' (trimmed.takeWhile (!Text.isBlank ·))
  if name.isEmpty then .error .missingModifierName
  else if name.all Text.isNameChar then
    let behind := trimmed.dropWhile (!Text.isBlank ·)
    .ok { name, description := description (Text.trim behind) }
  else .error (.invalidModifierName name)

/-! ### Tag lines -/

/-- The only word of a text. -/
def singleWord (tag text : Text) : Except Flaw Text :=
  match Text.words text with
  | [] => .error (.missingWord tag)
  | [word] => .ok word
  | _ :: _ :: _ => .error (.severalWords tag)

/-- The kind of declaration that the first word of a text names. -/
def kindOf (text : Text) : Except Flaw DeclarationKind :=
  match Text.words text with
  | [] => .error .missingKind
  | word :: _ =>
    match DeclarationKind.ofWord? word with
    | some found => .ok found
    | none => .error (.unknownKind word)

/-- The tag with the given name and text. -/
def ofParts (tag text : Text) : Except Flaw Tag :=
  if tag.isEmpty then .error .emptyName
  else if tag = "type".toList then (kindOf text).map .kind
  else if tag = "name".toList then (singleWord tag text).map .name
  else if tag = "implements".toList then
    (singleWord tag text).map fun word =>
      .implements (word.dropWhile (· == '.'))
  else if tag = "returns".toList then
    if text.isEmpty then .error .missingReturns else .ok (.returns text)
  else if tag = "param".toList then (member text).map .parameter
  else if tag = "prop".toList then (propertyOf text).map .property
  else if tag = "modifier".toList then (modifierOf text).map .modifier
  else .ok (.extension tag text)

/-- What a tag line says; the text begins with the at sign. -/
def parse (line : Text) : Except Flaw Tag :=
  let (tag, text) := Text.splitWord (line.drop 1)
  ofParts tag (Text.trim text)

/-! ### Continuation -/

/-- A text with more text behind it, apart from it by a space. -/
def join (text more : Text) : Text :=
  if text.isEmpty then more else text ++ ' ' :: more

/-- The tag with a further line of text.  Tags that hold a single word take
none. -/
def continueWith (tag : Tag) (more : Text) : Tag :=
  match tag with
  | .returns value => .returns (join value more)
  | .parameter it =>
    .parameter { it with description := join it.description more }
  | .property it =>
    .property { it with description := join it.description more }
  | .modifier it =>
    .modifier { it with description := join it.description more }
  | .extension tag value => .extension tag (join value more)
  | .kind _ | .name _ | .implements _ => tag

/-- The name of a tag that takes no further text. -/
def closedName? : Tag → Option Text
  | .kind _ => some "type".toList
  | .name _ => some "name".toList
  | .implements _ => some "implements".toList
  | .returns _ | .parameter _ | .property _ | .modifier _ | .extension _ _ =>
    none

end Tag

namespace Block

/-- The block with a further tag.  A value that is already there is replaced. -/
def add (block : Block) : Tag → Block
  | .kind kind => { block with kind := some kind }
  | .name name => { block with name := some name }
  | .implements name => { block with implements := some name }
  | .returns value => { block with returns := some value }
  | .parameter it => { block with parameters := block.parameters ++ [it] }
  | .property it => { block with properties := block.properties ++ [it] }
  | .modifier it => { block with modifiers := block.modifiers ++ [it] }
  | .extension tag value =>
    { block with extensions := block.extensions.add tag value }

/-- The name of the tag, when it replaces a value of the block. -/
def replaced? (block : Block) : Tag → Option Text
  | .kind _ => block.kind.map fun _ => "type".toList
  | .name _ => block.name.map fun _ => "name".toList
  | .implements _ => block.implements.map fun _ => "implements".toList
  | .returns _ => block.returns.map fun _ => "returns".toList
  | .parameter _ | .property _ | .modifier _ | .extension _ _ => none

end Block

end Doc

end StyleAudit
