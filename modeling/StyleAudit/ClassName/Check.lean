import StyleAudit.ClassName.Basic
import StyleAudit.ClassName.Violation
import StyleAudit.Selector

/-!
# Checking class names and selectors

A class name is checked for its type prefix, the form of its segments, the
number of its elements and the number of its modifiers.  A selector is checked
class by class, and each rule is reported once for all of it.
-/

namespace StyleAudit

namespace ClassName

/-- The type prefix of a kind of declaration. -/
def prefixOfKind? : DeclarationKind → Option Text
  | .component => some ['c']
  | .utility => some ['u']
  | .object | .interface | .unknown => none

/-- The type prefix to offer: that of the kind if it is accepted, or else the
first accepted one. -/
def expectedPrefix (settings : Settings) (kind : DeclarationKind) : Text :=
  let preferred := if kind = .utility then ['u'] else ['c']
  if settings.allows preferred then preferred
  else settings.allowedPrefixes.head?.getD preferred

/-- What is wrong with the type prefix of a name. -/
def prefixViolation? (settings : Settings) (kind : DeclarationKind)
    (name : Text) (parts : ClassName) : Option Violation :=
  match parts.typePrefix with
  | none => some (.missingPrefix name (expectedPrefix settings kind))
  | some typePrefix =>
    let lower := lowerAscii typePrefix
    if !settings.allows lower then
      some (.unknownPrefix name typePrefix (expectedPrefix settings kind)
        settings.allowedPrefixes)
    else
      match prefixOfKind? kind with
      | none => none
      | some expected =>
        if (lower = ['c'] ∨ lower = ['u']) ∧ lower ≠ expected then
          some (.kindMismatch name typePrefix expected kind)
        else none

/-- The name with every segment corrected, if that makes all of them well
formed. -/
def corrected? (parts : ClassName) : Option Text :=
  let fixed := parts.mapSegments Segment.correct
  if fixed.segments.all Segment.isValid then some fixed.text else none

/-- What is wrong with the segments of a name. -/
def segmentViolation? (name : Text) (parts : ClassName) : Option Violation :=
  (parts.segments.find? (!Segment.isValid ·)).map fun segment =>
    .invalidSegment name segment (corrected? parts)

/-- The violation of a name with too many elements. -/
def elementCount (settings : Settings) (name : Text) (parts : ClassName) :
    Violation :=
  .elementCount name parts.elements.length settings.maxElementDepth
    (parts.flatten settings.maxElementDepth).text

/-- Are there too many elements? -/
def depthViolation? (settings : Settings) (name : Text) (parts : ClassName) :
    Option Violation :=
  if settings.maxElementDepth < parts.elements.length then
    some (elementCount settings name parts)
  else none

/-- Does the block or an element have more than one modifier? -/
def modifierViolation? (name : Text) (parts : ClassName) : Option Violation :=
  if 1 < parts.modifiers.length ||
    parts.elements.any (1 < ·.modifiers.length) then
    some (.severalModifiers name)
  else none

/-- What is wrong with a class name of a declaration of the given kind. -/
def violations (settings : Settings) (kind : DeclarationKind)
    (className : Text) : List Violation :=
  let name := dropDot className
  let parts := parse settings name
  (prefixViolation? settings kind name parts).toList ++
    (segmentViolation? name parts).toList ++
    (depthViolation? settings name parts).toList ++
    (modifierViolation? name parts).toList

end ClassName

namespace Selector

/-- The names that are checked in a selector: its classes, or else its first
word. -/
def checkedNames (selector : Text) : List Text :=
  if (classNames selector).isEmpty then (firstIdentifier? selector).toList
  else classNames selector

/-- Adds a violation unless its rule has been reported. -/
def addViolation (reported : List Violation) (violation : Violation) :
    List Violation :=
  if reported.any (·.code == violation.code) then reported
  else reported ++ [violation]

/-- What is wrong with a selector of a declaration of the given kind, each rule
once. -/
def violations (settings : Settings) (kind : DeclarationKind)
    (selector : Text) : List Violation :=
  ((checkedNames selector).flatMap (ClassName.violations settings kind)).foldl
    addViolation []

end Selector

end StyleAudit
