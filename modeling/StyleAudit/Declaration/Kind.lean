import StyleAudit.Text.Basic

/-!
# Kinds of declaration

What a declaration is for.  Its doc comment may say so; otherwise a type prefix
of its name may.
-/

namespace StyleAudit

/-- What a declaration is for. -/
inductive DeclarationKind where
  | component
  | utility
  | object
  | interface
  | unknown
deriving DecidableEq, Repr

namespace DeclarationKind

/-- All kinds. -/
def all : List DeclarationKind :=
  [.component, .utility, .object, .interface, .unknown]

/-- The word for the kind. -/
def word : DeclarationKind → Text
  | .component => "component".toList
  | .utility => "utility".toList
  | .object => "object".toList
  | .interface => "interface".toList
  | .unknown => "unknown".toList

/-- The kind with the given word. -/
def ofWord? (word : Text) : Option DeclarationKind :=
  all.find? (·.word == word)

/-- The kind that a type prefix stands for. -/
def ofPrefix? (typePrefix : Text) : Option DeclarationKind :=
  if typePrefix = ['c'] then some .component
  else if typePrefix = ['u'] then some .utility
  else none

/-- The kind that a name tells by what stands in front of its first hyphen. -/
def ofName? (name : Text) : Option DeclarationKind :=
  (Text.splitFirst? (· == '-') name).bind fun parts => ofPrefix? parts.1

end DeclarationKind

end StyleAudit
