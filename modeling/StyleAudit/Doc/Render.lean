import StyleAudit.Doc.Block

/-!
# Writing doc comments

A doc block is written as a description and one tag line for each thing it says,
in a fixed order, and then dressed as a comment.
-/

namespace StyleAudit

namespace Doc

/-- The two ways to write a doc comment. -/
inductive Style where
  /-- Between `/**` and `*/`, with a star in front of each line. -/
  | block
  /-- With three slashes in front of each line. -/
  | lines
deriving DecidableEq, Repr

/-- A tag line with the given name and text. -/
def tagLine (tag text : Text) : Text :=
  if text.isEmpty then '@' :: tag else '@' :: tag ++ ' ' :: text

/-- A type in braces in front of a name. -/
def typeText : Option Text → Text
  | none => []
  | some type => '{' :: type ++ ['}', ' ']

/-- A description behind a name. -/
def descriptionText (description : Text) : Text :=
  if description.isEmpty then [] else ' ' :: '-' :: ' ' :: description

namespace Parameter

/-- The name of a parameter as written: in brackets if it is optional, with its
default value. -/
def nameText (parameter : Parameter) : Text :=
  match parameter.default with
  | some value => '[' :: parameter.name ++ '=' :: value ++ [']']
  | none =>
    if parameter.optional then '[' :: parameter.name ++ [']']
    else parameter.name

/-- The tag line of a parameter. -/
def line (parameter : Parameter) : Text :=
  "@param ".toList ++ typeText parameter.type ++ parameter.nameText ++
    descriptionText parameter.description

end Parameter

/-- The tag line of a property. -/
def Property.line (property : Property) : Text :=
  "@prop ".toList ++ typeText property.type ++ property.name ++
    descriptionText property.description

/-- The tag line of a modifier. -/
def Modifier.line (modifier : Modifier) : Text :=
  "@modifier ".toList ++ modifier.name ++ descriptionText modifier.description

namespace Extensions

/-- The tag lines of extensions. -/
def lines (extensions : Extensions) : List Text :=
  extensions.flatMap fun entry => entry.2.map (tagLine entry.1)

end Extensions

namespace Block

/-- The lines of the description. -/
def descriptionLines (block : Block) : List Text :=
  Text.lines block.description

/-- The tag lines, in order. -/
def tagLines (block : Block) : List Text :=
  block.kind.toList.map (fun kind => "@type ".toList ++ kind.word) ++
    block.name.toList.map ("@name ".toList ++ ·) ++
    block.implements.toList.map ("@implements ".toList ++ ·) ++
    block.parameters.map Parameter.line ++
    block.properties.map Property.line ++
    block.modifiers.map Modifier.line ++
    block.returns.toList.map ("@returns ".toList ++ ·) ++
    block.extensions.lines

/-- The content lines: description and tag lines, with an empty line between
them. -/
def contentLines (block : Block) : List Text :=
  if block.descriptionLines.isEmpty ∨ block.tagLines.isEmpty then
    block.descriptionLines ++ block.tagLines
  else block.descriptionLines ++ [] :: block.tagLines

/-- A line behind a mark, with a space between them if the line is not empty. -/
def marked (mark line : Text) : Text :=
  if line.isEmpty then mark else mark ++ ' ' :: line

/-- Writes a block as a comment. -/
def render (style : Style) (block : Block) : Text :=
  match style with
  | .block =>
    "/**".toList ++ block.contentLines.flatMap (marked "\n *".toList) ++
      "\n */".toList
  | .lines =>
    if block.contentLines.isEmpty then "///".toList
    else Text.join ['\n'] (block.contentLines.map (marked "///".toList))

end Block

end Doc

end StyleAudit
