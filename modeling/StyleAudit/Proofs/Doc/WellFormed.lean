import StyleAudit.Proofs.Doc.Extracted

/-!
# The shape of what is read

A doc comment is free text, and its tags can be spelled in several ways and go
on over several lines.  The block that is read from it has one shape all the
same: names are names, types and default values are trimmed, nothing but the
description has more than one line, and what has no value is not there at all.
-/

namespace StyleAudit

namespace Doc

namespace Block

/-- Everything in a block that is a text, but for the description. -/
def fields (block : Block) : List Text :=
  block.name.toList ++ block.implements.toList ++ block.returns.toList ++
    block.parameters.flatMap Parameter.texts ++
    block.properties.flatMap (fun it => it.parameter.texts) ++
    block.modifiers.flatMap (fun it => [it.name, it.description]) ++
    block.extensions.flatMap fun entry => entry.1 :: entry.2

/-- What is sure of a block that was read. -/
structure WellFormed (block : Block) : Prop where
  parameterNames : ∀ it ∈ block.parameters, Text.IsName it.name
  propertyNames : ∀ it ∈ block.properties, Text.IsName it.name
  modifierNames : ∀ it ∈ block.modifiers,
    Text.IsName it.name ∧ Text.beginsWith ['-', '-'] it.name = false
  parameterTypes : ∀ it ∈ block.parameters, ∀ type ∈ it.type,
    type ≠ [] ∧ Text.Trimmed type ∧ '}' ∉ type
  propertyTypes : ∀ it ∈ block.properties, ∀ type ∈ it.type,
    type ≠ [] ∧ Text.Trimmed type ∧ '}' ∉ type
  defaults : ∀ it ∈ block.parameters, ∀ value ∈ it.default,
    value ≠ [] ∧ Text.Trimmed value ∧ it.optional = true
  name : ∀ word ∈ block.name, word ≠ [] ∧ Text.BlankFree word
  implements : ∀ word ∈ block.implements,
    Text.BlankFree word ∧ Text.beginsWith ['.'] word = false
  returns : ∀ value ∈ block.returns, value ≠ []
  extensions : ∀ entry ∈ block.extensions,
    entry.1 ≠ [] ∧ Text.BlankFree entry.1 ∧ entry.1 ∉ Tag.reserved ∧
      entry.2 ≠ []
  oneLine : ∀ text ∈ block.fields, '\n' ∉ text
  described : ∀ line ∈ Text.splitOn '\n' block.description,
    Text.Trimmed line ∧ Text.beginsWith ['@'] line = false
  framed : block.description ≠ [] →
    (Text.splitOn '\n' block.description).head? ≠ some [] ∧
      (Text.splitOn '\n' block.description).getLast? ≠ some []

/-- Every field of a block is a text of one of its tags, if all extensions have
values. -/
theorem exists_tag_of_mem_fields {block : Block}
    (filled : ∀ entry ∈ block.extensions, entry.2 ≠ []) {text : Text}
    (member : text ∈ block.fields) : ∃ tag ∈ block.tags, text ∈ tag.texts := by
  simp only [fields, List.mem_append, Option.mem_toList, List.mem_flatMap]
    at member
  rcases member with
    (((((isName | isInterface) | isValue) | ⟨it, given, inside⟩) | ⟨it, given,
      inside⟩) | ⟨it, given, inside⟩) | ⟨⟨key, values⟩, given, inside⟩
  · exact ⟨.name text, mem_tags_iff.mpr isName, List.mem_singleton_self text⟩
  · exact ⟨.implements text, mem_tags_iff.mpr isInterface,
      List.mem_singleton_self text⟩
  · exact ⟨.returns text, mem_tags_iff.mpr isValue,
      List.mem_singleton_self text⟩
  · exact ⟨.parameter it, mem_tags_iff.mpr given, inside⟩
  · exact ⟨.property it, mem_tags_iff.mpr given, inside⟩
  · exact ⟨.modifier it, mem_tags_iff.mpr given, inside⟩
  · rcases List.mem_cons.mp inside with rfl | inValues
    · obtain ⟨value, inValues⟩ :=
        List.exists_mem_of_ne_nil values (filled _ given)
      exact ⟨.extension text value,
        mem_tags_iff.mpr ⟨values, given, inValues⟩, by simp [Tag.texts]⟩
    · exact ⟨.extension key text,
        mem_tags_iff.mpr ⟨values, given, inValues⟩, by simp [Tag.texts]⟩

end Block

/-- The lines of a description that was read. -/
theorem line_of_mem_splitOn_description {comment line : Text}
    (member : line ∈ Text.splitOn '\n' (extract comment).block.description) :
    Text.Trimmed line ∧ Text.beginsWith ['@'] line = false := by
  by_cases empty : describing comment = []
  · rw [block_extract, empty] at member
    obtain rfl := List.mem_singleton.mp member
    decide
  · rw [splitOn_description empty] at member
    obtain ⟨own, inLines, rfl, noTag⟩ := exists_line_of_mem_describing member
    exact ⟨trimmed_of_mem_all inLines, noTag⟩

/-- Whatever a comment says, the block that is read from it is well-formed. -/
theorem wellFormed_extract (comment : Text) :
    (extract comment).block.WellFormed := by
  have legible : ∀ tag, (extract comment).block.Has tag → tag.Legible :=
    fun _ given =>
    legible_of_mem_tags (Block.mem_tags_iff.mpr given)
  have parameter : ∀ it ∈ (extract comment).block.parameters,
      it.Legible := fun it =>
    legible (.parameter it)
  have property : ∀ it ∈ (extract comment).block.properties,
      it.parameter.Legible := fun it =>
    legible (.property it)
  have filled : ∀ entry ∈ (extract comment).block.extensions, entry.2 ≠ [] := by
    rw [block_extract]
    exact (Block.ordered_foldl_add Extensions.ordered_nil
      (readings comment)).filled
  constructor
  case parameterNames => exact fun it given => (parameter it given).name
  case propertyNames => exact fun it given => (property it given).name
  case modifierNames =>
    intro it given
    obtain ⟨isName, undashed, -⟩ := legible (.modifier it) given
    exact ⟨isName, undashed⟩
  case parameterTypes => exact fun it given => (parameter it given).type
  case propertyTypes => exact fun it given => (property it given).type
  case defaults =>
    intro it given value isDefault
    obtain ⟨nonempty, trimmed⟩ := (parameter it given).default value isDefault
    exact ⟨nonempty, trimmed,
      (parameter it given).optional (Option.isSome_of_mem isDefault)⟩
  case name => exact fun word => legible (.name word)
  case implements => exact fun word => legible (.implements word)
  case returns => exact fun value given => (legible (.returns value) given).1
  case extensions =>
    rintro ⟨key, values⟩ given
    obtain ⟨value, inValues⟩ :=
      List.exists_mem_of_ne_nil values (filled _ given)
    obtain ⟨⟨nonempty, blankFree, free⟩, -⟩ :=
      legible (.extension key value) ⟨values, given, inValues⟩
    exact ⟨nonempty, blankFree, free, filled _ given⟩
  case oneLine =>
    intro text member
    obtain ⟨tag, inTags, inTexts⟩ :=
      Block.exists_tag_of_mem_fields filled member
    exact oneLine_of_mem_tags inTags text inTexts
  case described => exact fun line => line_of_mem_splitOn_description
  case framed =>
    intro nonempty
    have describes : describing comment ≠ [] := by
      intro empty
      rw [block_extract, empty] at nonempty
      exact nonempty rfl
    rw [splitOn_description describes]
    exact describing_ends comment

end Doc

end StyleAudit
