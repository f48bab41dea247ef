import StyleAudit.Conformance.Contract
import StyleAudit.Proofs.FirstOfKey

/-!
# Members by name

A doc block may name a member more than once; its first entry counts, and
parameters come before properties.  The contract of an interface and the lookups
in an implementer both go by this.
-/

namespace StyleAudit

/-! ## Doc blocks -/

namespace Doc.Block

/-- All members that the block names, parameters first. -/
def members (block : Block) : List Contract.Member :=
  block.parameters.map .ofParameter ++ block.properties.map .ofProperty

/-- The member of the given name: the first one that has it. -/
def member? (block : Block) (name : Text) : Option Contract.Member :=
  block.members.find? (·.name == name)

theorem member?_eq (block : Block) (name : Text) :
    block.member? name =
      ((block.parameters.find? (·.name == name)).map .ofParameter).or
        ((block.properties.find? (·.name == name)).map .ofProperty) := by
  rw [member?, members, List.find?_append, List.find?_map, List.find?_map]
  rfl

theorem isSome_member? (block : Block) (name : Text) :
    (block.member? name).isSome = block.hasMember name := by
  rw [member?_eq, hasMember, Option.isSome_or, Option.isSome_map,
    Option.isSome_map, List.isSome_find?, List.isSome_find?]

theorem type_member? (block : Block) (name : Text) :
    (block.member? name).bind (·.type) = block.memberType? name := by
  rw [member?_eq, memberType?]
  cases block.parameters.find? (·.name == name) with
  | none =>
      cases block.properties.find? (·.name == name) with
      | none => rfl
      | some property => rfl
  | some parameter => rfl

/-- A property behind the others counts if no other member has its name. -/
theorem member?_append_property (block : Block) (property : Property)
    (name : Text) :
    { block with properties := block.properties ++ [property] }.member? name =
      (block.member? name).or
        (if property.name == name then some (.ofProperty property)
          else none) := by
  have members_eq :
      { block with properties := block.properties ++ [property] }.members =
      block.members ++ [.ofProperty property] := by
    simp [members]
  rw [member?, members_eq, List.find?_append, List.find?_singleton]
  rfl

end Doc.Block

/-! ## Contracts -/

namespace Contract

theorem ofBlock_eq (block : Doc.Block) :
    ofBlock block = block.members.foldl (addByKey Member.name) [] :=
  rfl

/-- No two members of a contract have the same name. -/
theorem nodup_names_ofBlock (block : Doc.Block) :
    ((ofBlock block).map (·.name)).Nodup := by
  rw [ofBlock_eq]
  exact nodup_foldl_addByKey Member.name block.members [] List.nodup_nil

/-- The contract of an interface holds what its names are looked up as. -/
theorem mem_ofBlock_iff {block : Doc.Block} {member : Member} :
    member ∈ ofBlock block ↔ block.member? member.name = some member := by
  rw [ofBlock_eq]
  exact mem_foldl_addByKey_iff Member.name

/-- The names of a contract are those that its block has members of. -/
theorem mem_names_ofBlock_iff {block : Doc.Block} {name : Text} :
    name ∈ (ofBlock block).map (·.name) ↔ block.hasMember name = true := by
  rw [ofBlock_eq, mem_map_foldl_addByKey_iff, List.nil_append,
    ← Doc.Block.isSome_member?, Doc.Block.member?, List.find?_isSome,
    List.mem_map]
  simp only [beq_iff_eq]

/-- A member of a contract has the type that its name is looked up with. -/
theorem memberType?_of_mem_ofBlock {block : Doc.Block} {member : Member}
    (inContract : member ∈ ofBlock block) :
    block.memberType? member.name = member.type := by
  rw [← Doc.Block.type_member?, mem_ofBlock_iff.mp inContract, Option.bind_some]

/-- A member of a contract stands in it once. -/
theorem exists_ofBlock_eq_append {block : Doc.Block} {member : Member}
    (inContract : member ∈ ofBlock block) :
    ∃ front back, ofBlock block = front ++ member :: back ∧
      ∀ other, other ∈ front ∨ other ∈ back → other.name ≠ member.name := by
  obtain ⟨front, back, split⟩ := List.append_of_mem inContract
  have distinct := nodup_names_ofBlock block
  rw [split, List.map_append, List.map_cons, List.nodup_append, List.nodup_cons]
    at distinct
  obtain ⟨-, ⟨notBehind, -⟩, apart⟩ := distinct
  refine ⟨front, back, split, ?_⟩
  rintro other (inFront | inBack) same
  · exact apart _ (List.mem_map_of_mem inFront) _ List.mem_cons_self same
  · exact notBehind (same ▸ List.mem_map_of_mem inBack)

end Contract

end StyleAudit
