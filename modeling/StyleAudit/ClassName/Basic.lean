import StyleAudit.ClassName.Segment
import StyleAudit.Settings

/-!
# Class names

A class name consists of a type prefix, perhaps a namespace, a block, and
elements, where block and elements may have modifiers.  Every text can be taken
apart this way, and is given back by putting the parts together again.
-/

namespace StyleAudit

/-- An element of a class name. -/
structure Element where
  name : Text
  modifiers : List Text
deriving DecidableEq, Repr

namespace Element

/-- Takes apart a name and the modifiers behind it. -/
def ofText (text : Text) : Element :=
  match Text.splitOnDouble '-' text with
  | [] => ⟨[], []⟩
  | name :: modifiers => ⟨name, modifiers⟩

/-- Modifiers as written. -/
def modifierText (modifiers : List Text) : Text :=
  modifiers.flatMap fun modifier => '-' :: '-' :: modifier

/-- The element as written. -/
def text (element : Element) : Text :=
  element.name ++ modifierText element.modifiers

/-- The segments of the element. -/
def segments (element : Element) : List Text :=
  element.name :: element.modifiers

/-- Changes every segment of the element. -/
def mapSegments (change : Text → Text) (element : Element) : Element :=
  ⟨change element.name, element.modifiers.map change⟩

end Element

/-- A class name, taken apart. -/
structure ClassName where
  /-- The type prefix as written. -/
  typePrefix : Option Text
  /-- The namespace, if it is one of the known ones. -/
  scope : Option Text
  block : Text
  /-- The modifiers of the block. -/
  modifiers : List Text
  elements : List Element
deriving DecidableEq, Repr

namespace ClassName

/-- Is the text a single ASCII letter? -/
def isSingleLetter : Text → Bool
  | [c] => c.isAlpha
  | _ => false

/-- The text with its ASCII letters in lower case. -/
def lowerAscii (text : Text) : Text :=
  text.map Char.toLower

/-- The type prefix of a head, and the rest of it.  A single letter counts as a
type prefix even if it is not an accepted one. -/
def splitPrefix (settings : Settings) (head : Text) : Option Text × Text :=
  match Text.splitFirst? (· == '-') head with
  | none => (none, head)
  | some (front, rest) =>
    if settings.allows (lowerAscii front) || isSingleLetter front then
      (some front, rest)
    else (none, head)

/-- The namespace behind a type prefix, and the rest of the head. -/
def splitScope (settings : Settings) (text : Text) : Option Text × Text :=
  match Text.splitFirst? (· == '-') text with
  | none => (none, text)
  | some (front, rest) =>
    if settings.namespaces.contains front then (some front, rest)
    else (none, text)

/-- A name without one dot in front. -/
def dropDot (name : Text) : Text :=
  (Text.dropFront? ['.'] name).getD name

/-- Takes a class name apart. -/
def parse (settings : Settings) (name : Text) : ClassName :=
  match Text.splitOnDouble '_' (dropDot name) with
  | [] => ⟨none, none, [], [], []⟩
  | head :: elements =>
    let first := Element.ofText head
    let (typePrefix, rest) := splitPrefix settings first.name
    let (scope, block) :=
      if typePrefix.isSome then splitScope settings rest else (none, rest)
    { typePrefix, scope, block, modifiers := first.modifiers,
      elements := elements.map .ofText }

/-- A part with a hyphen behind it. -/
def hyphenated : Option Text → Text
  | none => []
  | some part => part ++ ['-']

/-- Puts a class name together. -/
def text (name : ClassName) : Text :=
  hyphenated name.typePrefix ++ hyphenated name.scope ++ name.block ++
    Element.modifierText name.modifiers ++
    name.elements.flatMap fun element => '_' :: '_' :: element.text

/-- The segments of a class name, in order. -/
def segments (name : ClassName) : List Text :=
  name.typePrefix.toList ++ name.scope.toList ++ name.block :: name.modifiers ++
    name.elements.flatMap Element.segments

/-- Changes every segment of a class name. -/
def mapSegments (change : Text → Text) (name : ClassName) : ClassName :=
  { typePrefix := name.typePrefix.map change, scope := name.scope.map change,
    block := change name.block, modifiers := name.modifiers.map change,
    elements := name.elements.map (·.mapSegments change) }

/-! ### Flattening -/

/-- A name with further names joined on by hyphens. -/
def joinNames (name : Text) (extras : List Element) : Text :=
  Text.join ['-'] (name :: extras.map (·.name))

/-- Joins further elements onto the last element of a list, or onto the block if
there is none. -/
def absorb (name : ClassName) (extras : List Element) : ClassName :=
  let modifiers := extras.flatMap (·.modifiers)
  match name.elements.getLast? with
  | some last =>
    { name with
      elements := name.elements.dropLast ++
        [⟨joinNames last.name extras, last.modifiers ++ modifiers⟩] }
  | none =>
    { name with
      block := joinNames name.block extras,
      modifiers := name.modifiers ++ modifiers }

/-- The class name with at most `max` elements: the others are joined onto the
last one kept. -/
def flatten (name : ClassName) (max : Nat) : ClassName :=
  if name.elements.length ≤ max then name
  else
    absorb { name with elements := name.elements.take max }
      (name.elements.drop max)

end ClassName

end StyleAudit
