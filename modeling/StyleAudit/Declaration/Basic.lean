import StyleAudit.Doc.Block
import StyleAudit.Position

/-!
# Declarations

A declaration is a named unit of a stylesheet with what its doc comment says.
Rules inside it are declarations too.
-/

namespace StyleAudit

/-- Where a declaration stands in the one around it. -/
inductive Nesting where
  /-- At the top of a file. -/
  | root
  /-- An element of the block around it. -/
  | element
  /-- A modifier of the block around it. -/
  | modifier
  /-- Any other rule inside a rule. -/
  | nested
  /-- A later rule for the same name. -/
  | reopened
deriving DecidableEq, Repr

/-- A named unit of a stylesheet. -/
structure Declaration where
  kind : DeclarationKind
  name : Text
  /-- The selector, or the at-rule without its block. -/
  signature : Text
  location : Location
  doc : Option Doc.Block
  /-- The declarations directly inside, in order. -/
  children : List Declaration
  nesting : Nesting
  /-- The mixins that its block includes. -/
  includes : List Text
deriving Repr

namespace Declaration

/-- Is the declaration an interface? -/
def isInterface (declaration : Declaration) : Bool :=
  declaration.kind == .interface

/-- Is the declaration an at-rule? -/
def isAtRule (declaration : Declaration) : Bool :=
  Text.beginsWith ['@'] declaration.signature

mutual

/-- The declaration and all inside it, each in front of what it holds. -/
def walk : Declaration → List Declaration
  | ⟨kind, name, signature, location, doc, children, nesting, includes⟩ =>
    ⟨kind, name, signature, location, doc, children, nesting, includes⟩ ::
      walkList children

/-- The declarations of a list and all inside them. -/
def walkList : List Declaration → List Declaration
  | [] => []
  | declaration :: rest => walk declaration ++ walkList rest

end

/-! ### Modifiers -/

/-- What stands in front of the first double hyphen. -/
def beforeHyphens? : Text → Option Text
  | '-' :: '-' :: _ => some []
  | [] => none
  | c :: rest => (beforeHyphens? rest).map (c :: ·)

/-- What stands behind the last double hyphen of a name. -/
def modifierPart? (name : Text) : Option Text :=
  (beforeHyphens? name.reverse).map List.reverse

/-- The modifier that a declaration directly inside adds. -/
def ownModifier? (declaration : Declaration) : Option Text :=
  if declaration.nesting = .modifier then modifierPart? declaration.name
  else none

/-- The declarations directly inside the block of a declaration, those of its
later blocks last. -/
def blockChildren (declaration : Declaration) : List Declaration :=
  declaration.children ++
    (declaration.children.filter (·.nesting = .reopened)).flatMap (·.children)

/-- The modifiers of a declaration: those that its doc block names, then those
that its rules add, each of these once. -/
def modifierNames (declaration : Declaration) : List Text :=
  (declaration.blockChildren.filterMap ownModifier?).foldl
    (fun names name => if names.contains name then names else names ++ [name])
    ((declaration.doc.map (·.modifiers.map (·.name))).getD [])

/-! ### Equality -/

mutual

/-- Decides whether two declarations are equal. -/
def decEq : (left right : Declaration) → Decidable (left = right)
  | ⟨kind, name, signature, location, doc, children, nesting, includes⟩,
    ⟨kind', name', signature', location', doc', children', nesting',
      includes'⟩ =>
    match decEqList children children' with
    | .isTrue same =>
      decidable_of_decidable_of_iff
        (p := kind = kind' ∧ name = name' ∧ signature = signature' ∧
          location = location' ∧ doc = doc' ∧ nesting = nesting' ∧
          includes = includes')
        (by simp [same])
    | .isFalse different => .isFalse (by simp [different])

/-- Decides whether two lists of declarations are equal. -/
def decEqList : (left right : List Declaration) → Decidable (left = right)
  | [], [] => .isTrue rfl
  | [], _ :: _ => .isFalse (by simp)
  | _ :: _, [] => .isFalse (by simp)
  | a :: left, b :: right =>
    match decEq a b with
    | .isTrue same =>
      match decEqList left right with
      | .isTrue rest => .isTrue (by simp [same, rest])
      | .isFalse rest => .isFalse (by simp [rest])
    | .isFalse different => .isFalse (by simp [different])

end

instance : DecidableEq Declaration :=
  decEq

end Declaration

end StyleAudit
