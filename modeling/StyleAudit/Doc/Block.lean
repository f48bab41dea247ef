import StyleAudit.Declaration.Kind
import StyleAudit.Text.Order

/-!
# Doc blocks

What a doc comment says: a description, and what its tags tell about the
declaration.  Tags that have no meaning of their own are kept by name.
-/

namespace StyleAudit

namespace Doc

/-- A member that a user of the declaration may set. -/
structure Parameter where
  name : Text
  type : Option Text := none
  /-- May the parameter be left out? -/
  optional : Bool := false
  /-- The value that it has when left out. -/
  default : Option Text := none
  description : Text := []
deriving DecidableEq, Repr

/-- A member that is always there. -/
structure Property where
  name : Text
  type : Option Text := none
  description : Text := []
deriving DecidableEq, Repr

/-- A variant of the declaration. -/
structure Modifier where
  name : Text
  description : Text := []
deriving DecidableEq, Repr

/-- Tags by name, sorted, each with its values in order. -/
abbrev Extensions := List (Text × List Text)

namespace Extensions

/-- Adds a value to a tag. -/
def add (tag value : Text) : Extensions → Extensions
  | [] => [(tag, [value])]
  | (key, values) :: rest =>
    match Text.compare tag key with
    | .lt => (tag, [value]) :: (key, values) :: rest
    | .eq => (key, values ++ [value]) :: rest
    | .gt => (key, values) :: add tag value rest

end Extensions

/-- What a doc comment says. -/
structure Block where
  kind : Option DeclarationKind := none
  name : Option Text := none
  /-- The lines in front of the first tag. -/
  description : Text := []
  parameters : List Parameter := []
  properties : List Property := []
  modifiers : List Modifier := []
  /-- The interface that the declaration claims to implement. -/
  implements : Option Text := none
  returns : Option Text := none
  /-- The tags without a meaning of their own. -/
  extensions : Extensions := []
deriving DecidableEq, Repr

namespace Block

/-- Does the block document an interface? -/
def isInterface (block : Block) : Bool :=
  block.kind == some .interface

/-- Is there a parameter or a property of this name? -/
def hasMember (block : Block) (name : Text) : Bool :=
  block.parameters.any (·.name == name) || block.properties.any (·.name == name)

/-- The type of the first parameter of this name, or else of the first
property. -/
def memberType? (block : Block) (name : Text) : Option Text :=
  match block.parameters.find? (·.name == name) with
  | some parameter => parameter.type
  | none => (block.properties.find? (·.name == name)).bind (·.type)

end Block

end Doc

end StyleAudit
