import StyleAudit.Doc.Block

/-!
# Contracts

The contract of an interface is the list of its members: parameters first, then
properties, each name once.
-/

namespace StyleAudit

namespace Contract

/-- A member that an implementer has to have. -/
structure Member where
  name : Text
  type : Option Text
  /-- Is its lack an error? -/
  required : Bool
deriving DecidableEq, Repr

namespace Member

/-- The member that a parameter asks for.  It may be lacking if users may leave
it out. -/
def ofParameter (parameter : Doc.Parameter) : Member :=
  { name := parameter.name, type := parameter.type,
    required := !parameter.optional && parameter.default.isNone }

/-- The member that a property asks for. -/
def ofProperty (property : Doc.Property) : Member :=
  { name := property.name, type := property.type, required := true }

end Member

/-- The members without those whose name came earlier. -/
def firstByName (members : List Member) : List Member :=
  members.foldl
    (fun kept member =>
      if kept.any (·.name == member.name) then kept else kept ++ [member])
    []

/-- The contract of an interface with the given doc block. -/
def ofBlock (block : Doc.Block) : List Member :=
  firstByName
    (block.parameters.map .ofParameter ++ block.properties.map .ofProperty)

end Contract

end StyleAudit
