import StyleAudit.Declaration.Kind
import StyleAudit.Diagnostic.Basic

/-!
# Violations of the grammar of class names

What can be wrong with a class name, how it is said, and which name is offered
instead.
-/

namespace StyleAudit

/-- What is wrong with a class name. -/
inductive Violation where
  /-- The name has no type prefix. -/
  | missingPrefix (name expected : Text)
  /-- The type prefix of the name is not an accepted one. -/
  | unknownPrefix (name typePrefix expected : Text) (allowed : List Text)
  /-- The type prefix of the name belongs to another kind of declaration. -/
  | kindMismatch (name typePrefix expected : Text) (kind : DeclarationKind)
  /-- A segment of the name is not well formed. -/
  | invalidSegment (name segment : Text) (corrected : Option Text)
  /-- The name has too many elements. -/
  | elementCount (name : Text) (count max : Nat) (flattened : Text)
  /-- An element stands too deep inside other elements. -/
  | elementLevel (name : Text) (level max : Nat)
  /-- A block or an element has more than one modifier. -/
  | severalModifiers (name : Text)
deriving DecidableEq, Repr

namespace Violation

/-- The code of the rule that is broken. -/
def code : Violation → Code
  | .missingPrefix _ _ => .missingPrefix
  | .unknownPrefix _ _ _ _ => .unknownPrefix
  | .kindMismatch _ _ _ _ => .prefixKindMismatch
  | .invalidSegment _ _ _ => .invalidSegment
  | .elementCount _ _ _ _ => .elementDepth
  | .elementLevel _ _ _ => .elementDepth
  | .severalModifiers _ => .multipleModifiers

/-- What is wrong, in words. -/
def detail : Violation → String
  | .missingPrefix name expected =>
    s!"`{name.shown}` should start with `{expected.shown}-`"
  | .unknownPrefix name typePrefix _ allowed =>
    s!"`{name.shown}` uses `{typePrefix.shown}-`; allowed prefixes: " ++
      Text.shown (Text.join [',', ' '] allowed)
  | .kindMismatch name typePrefix _ kind =>
    let lower := Text.shown (typePrefix.map Char.toLower)
    s!"`{name.shown}` is a {kind.word.shown} but uses the `{lower}-` prefix"
  | .invalidSegment name segment _ =>
    let part := if segment.isEmpty then "(empty)" else segment.shown
    s!"`{name.shown}` has segment `{part}`; segments must be lowercase-hyphenated"
  | .elementCount name count max _ =>
    s!"`{name.shown}` nests {count} elements; at most {max} allowed"
  | .elementLevel name level max =>
    s!"element `{name.shown}` is nested {level} levels deep; at most {max} allowed"
  | .severalModifiers name =>
    s!"`{name.shown}` applies more than one modifier to the same block or element"

/-- The name of the rule, and what is wrong. -/
def message (violation : Violation) : String :=
  s!"{violation.code.ruleName}: {violation.detail}"

/-- The name that is offered instead. -/
def suggestion : Violation → Option Text
  | .missingPrefix name expected => some (expected ++ '-' :: name)
  | .unknownPrefix name typePrefix expected _ =>
    some (expected ++ name.drop typePrefix.length)
  | .kindMismatch name typePrefix expected _ =>
    some (expected ++ name.drop typePrefix.length)
  | .invalidSegment _ _ corrected => corrected
  | .elementCount _ _ _ flattened => some flattened
  | .elementLevel _ _ _ => none
  | .severalModifiers _ => none

/-- The violation as an error at a place. -/
def toDiagnostic (violation : Violation) (location : Location) : Diagnostic :=
  { severity := .error, code := violation.code, message := violation.message,
    location, suggestion := violation.suggestion }

end Violation

end StyleAudit
