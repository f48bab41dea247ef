import StyleAudit.Proofs.Doc.TagLine
import StyleAudit.Proofs.Text.Order

/-!
# Written doc blocks are read back

Reading a comment inverts writing it.  A written comment is a description and
the lines of tags.  Reading finds the description between empty lines, reads
each tag line as the tag it was written from, and adds the tags up.  The two
directions meet at `Builds`, which says that tags add up to a block without one
of them replacing what another said.
-/

namespace StyleAudit

namespace Doc

/-! ## Canonical blocks -/

@[mk_iff]
structure CanonicalDescription (style : Style) (text : Text) : Prop where
  writable : ∀ line ∈ Text.splitOn '\n' text, Writable style line
  noTag : ∀ line ∈ Text.splitOn '\n' text, Text.beginsWith ['@'] line = false
  first : (Text.splitOn '\n' text).head? ≠ some []
  last : (Text.splitOn '\n' text).getLast? ≠ some []

@[mk_iff]
structure Extensions.Canonical (extensions : Extensions) : Prop where
  sorted : extensions.Pairwise fun left right => Text.compare left.1 right.1 =
    .lt
  names : ∀ entry ∈ extensions,
    entry.1 ≠ [] ∧ Text.BlankFree entry.1 ∧ entry.1 ∉ Tag.reserved
  filled : ∀ entry ∈ extensions, entry.2 ≠ []
  values : ∀ entry ∈ extensions, ∀ value ∈ entry.2,
    Clean value ∧ (value = [] → Text.endsWith ['*', '/'] entry.1 = false)

/-- A block that a style of comment can hold: nothing that it says looks like a
part of the comment, or like another part of the block. -/
@[mk_iff]
structure Block.Canonical (style : Style) (block : Block) : Prop where
  description : block.description = [] ∨
    CanonicalDescription style block.description
  name : ∀ name ∈ block.name, IsWord name
  implements : ∀ name ∈ block.implements,
    IsWord name ∧ Text.beginsWith ['.'] name = false
  returns : ∀ value ∈ block.returns, value ≠ [] ∧ Clean value
  parameters : ∀ it ∈ block.parameters, it.Canonical
  properties : ∀ it ∈ block.properties, it.Canonical
  modifiers : ∀ it ∈ block.modifiers, it.Canonical
  extensions : block.extensions.Canonical

instance (style : Style) : DecidablePred (CanonicalDescription style) :=
  fun _ => decidable_of_iff _ (canonicalDescription_iff ..).symm

instance : DecidablePred Extensions.Canonical :=
  fun _ => decidable_of_iff _ (Extensions.canonical_iff _).symm

instance (style : Style) : DecidablePred (Block.Canonical style) :=
  fun _ => decidable_of_iff _ (Block.canonical_iff ..).symm

/-! ## Tags add up to a block -/

/-- Adding the tags one by one leads from the first block to the second, and no
tag replaces a value. -/
inductive Builds : Block → List Tag → Block → Prop where
  | nil (block : Block) : Builds block [] block
  | cons {block result : Block} {tag : Tag} {tags : List Tag}
      (fresh : block.replaced? tag = none)
      (rest : Builds (block.add tag) tags result) :
      Builds block (tag :: tags) result

theorem Builds.append {first second third : Block} {front back : List Tag}
    (begun : Builds first front second) (ended : Builds second back third) :
    Builds first (front ++ back) third := by
  induction begun with
  | nil => exact ended
  | cons fresh _ ih => exact .cons fresh (ih ended)

section Fields

variable {α : Type} (tag : α → Tag)

/-- A field that holds at most one value is filled by at most one tag. -/
theorem builds_option (filled : Option α → Block)
    (fresh : ∀ value, (filled none).replaced? (tag value) = none)
    (added : ∀ value, (filled none).add (tag value) = filled (some value))
    (value : Option α) :
    Builds (filled none) (value.toList.map tag) (filled value) := by
  cases value with
  | none => exact .nil _
  | some value =>
      apply Builds.cons (fresh value)
      rw [added]
      exact .nil _

/-- A field that holds a list is filled by one tag after the other. -/
theorem builds_list (filled : List α → Block)
    (fresh : ∀ values value, (filled values).replaced? (tag value) = none)
    (added : ∀ values value,
      (filled values).add (tag value) = filled (values ++ [value]))
    (before values : List α) :
    Builds (filled before) (values.map tag) (filled (before ++ values)) := by
  induction values generalizing before with
  | nil =>
      rw [List.append_nil]
      exact .nil _
  | cons value values ih =>
      have later := ih (before ++ [value])
      rw [List.append_assoc, List.singleton_append] at later
      apply Builds.cons (fresh before value)
      rw [added]
      exact later

end Fields

/-- All keys stand before the given one. -/
def Extensions.Below (key : Text) (extensions : Extensions) : Prop :=
  ∀ entry ∈ extensions, Text.compare entry.1 key = .lt

theorem Extensions.add_of_below {key : Text} {before : Extensions}
    (below : before.Below key) (value : Text) (after : Extensions) :
    Extensions.add key value (before ++ after) =
      before ++ Extensions.add key value after := by
  induction before with
  | nil => rfl
  | cons entry before ih =>
      have behind : Text.compare key entry.1 = .gt :=
        Text.compare_eq_gt_of_lt (below entry List.mem_cons_self)
      have later :=
        ih fun other member => below other (List.mem_cons_of_mem entry member)
      rw [List.cons_append, Extensions.add, behind]
      simp only [later, List.cons_append]

/-- The tags of an extension. -/
def Extensions.entryTags (entry : Text × List Text) : List Tag :=
  entry.2.map (.extension entry.1)

private theorem builds_entry (block : Block) {before : Extensions}
    {entry : Text × List Text} (below : before.Below entry.1)
    (nonempty : entry.2 ≠ []) :
    Builds { block with extensions := before } (Extensions.entryTags entry)
      { block with extensions := before ++ [entry] } := by
  obtain ⟨key, values⟩ := entry
  obtain ⟨first, others, rfl⟩ := List.exists_cons_of_ne_nil nonempty
  have opened : Extensions.add key first before =
      before ++ [(key, [first])] := by
    have added := Extensions.add_of_below below first []
    rwa [List.append_nil] at added
  have grown : ∀ given value,
      Extensions.add key value (before ++ [(key, given)]) =
      before ++ [(key, given ++ [value])] := by
    intro given value
    rw [Extensions.add_of_below below, Extensions.add, Text.compare_self]
  have rest := builds_list (.extension key)
    (fun given => { block with extensions := before ++ [(key, given)] })
    (fun _ _ => rfl) (fun given value => by rw [Block.add, grown])
    [first] others
  apply Builds.cons rfl
  rw [Block.add, opened]
  exact rest

private theorem builds_extensions (block : Block) (before : Extensions)
    {extensions : Extensions} (sorted : (before ++ extensions).Pairwise
      fun left right => Text.compare left.1 right.1 = .lt)
    (filled : ∀ entry ∈ extensions, entry.2 ≠ []) :
    Builds { block with extensions := before }
      (extensions.flatMap Extensions.entryTags)
      { block with extensions := before ++ extensions } := by
  induction extensions generalizing before with
  | nil =>
      rw [List.append_nil]
      exact .nil _
  | cons entry extensions ih =>
      have below : before.Below entry.1 := fun other member =>
        (List.pairwise_append.mp sorted).2.2 other member entry
          List.mem_cons_self
      have here := builds_entry block below (filled entry List.mem_cons_self)
      have regrouped : before ++ entry :: extensions = (before ++ [entry]) ++
          extensions := by
        rw [List.append_assoc, List.singleton_append]
      rw [regrouped] at sorted ⊢
      exact here.append (ih (before ++ [entry]) sorted fun other member =>
        filled other (List.mem_cons_of_mem entry member))

namespace Block

/-- The tags of a block, in the order in which they are written. -/
def tags (block : Block) : List Tag :=
  block.kind.toList.map .kind ++ block.name.toList.map .name ++
    block.implements.toList.map .implements ++
    block.parameters.map .parameter ++
    block.properties.map .property ++ block.modifiers.map .modifier ++
    block.returns.toList.map .returns ++ block.extensions.flatMap
      Extensions.entryTags

theorem builds_tags {block : Block} (canonical : block.extensions.Canonical) :
    Builds {} block.tags { block with description := [] } := by
  obtain ⟨kind, name, description, parameters, properties, modifiers,
    implements, returns, extensions⟩ := block
  have withKind := builds_option .kind (fun kind => { kind }) (fun _ => rfl)
    (fun _ => rfl) kind
  have withName := builds_option .name (fun name => { kind, name })
    (fun _ => rfl) (fun _ => rfl) name
  have withImplements := builds_option .implements
    (fun implements => { kind, name, implements }) (fun _ => rfl)
    (fun _ => rfl) implements
  have withParameters := builds_list .parameter
    (fun parameters => { kind, name, implements, parameters })
    (fun _ _ => rfl) (fun _ _ => rfl) [] parameters
  have withProperties := builds_list .property
    (fun properties => { kind, name, implements, parameters, properties })
    (fun _ _ => rfl) (fun _ _ => rfl) [] properties
  have withModifiers := builds_list .modifier
    (fun modifiers =>
      { kind, name, implements, parameters, properties, modifiers })
    (fun _ _ => rfl) (fun _ _ => rfl) [] modifiers
  have withReturns := builds_option .returns
    (fun returns =>
      { kind, name, implements, parameters, properties, modifiers, returns })
    (fun _ => rfl) (fun _ => rfl) returns
  have withExtensions := builds_extensions
    { kind, name, implements, parameters, properties, modifiers, returns }
    [] canonical.sorted canonical.filled
  exact ((((((withKind.append withName).append withImplements).append
    withParameters).append withProperties).append withModifiers).append
      withReturns).append withExtensions

/-- The block says what the tag says. -/
def Has (block : Block) : Tag → Prop
  | .kind it => block.kind = some it
  | .name it => block.name = some it
  | .implements it => block.implements = some it
  | .returns it => block.returns = some it
  | .parameter it => it ∈ block.parameters
  | .property it => it ∈ block.properties
  | .modifier it => it ∈ block.modifiers
  | .extension key value =>
    ∃ values, (key, values) ∈ block.extensions ∧ value ∈ values

theorem mem_tags_iff {block : Block} {tag : Tag} : tag ∈ block.tags ↔
    block.Has tag := by
  cases tag with
  | extension key value =>
      simp only [tags, Has, Extensions.entryTags, List.mem_append, List.mem_map,
        List.mem_flatMap, reduceCtorEq, and_false, exists_false, false_or,
        Tag.extension.injEq]
      constructor
      · rintro ⟨entry, inBlock, value, inValues, rfl, rfl⟩
        exact ⟨entry.2, inBlock, inValues⟩
      · rintro ⟨values, inBlock, inValues⟩
        exact ⟨(key, values), inBlock, value, inValues, rfl, rfl⟩
  | _ => simp [tags, Has, Extensions.entryTags]

theorem Canonical.tags {style : Style} {block : Block}
    (canonical : block.Canonical style) :
    ∀ tag ∈ block.tags, tag.Canonical := by
  intro tag member
  have given := mem_tags_iff.mp member
  cases tag with
  | kind it => exact trivial
  | name it => exact canonical.name it given
  | implements it => exact canonical.implements it given
  | returns it => exact canonical.returns it given
  | parameter it => exact canonical.parameters it given
  | property it => exact canonical.properties it given
  | modifier it => exact canonical.modifiers it given
  | extension key value =>
      obtain ⟨values, inBlock, inValues⟩ := given
      exact ⟨canonical.extensions.names _ inBlock,
        canonical.extensions.values _ inBlock _ inValues⟩

/-! ## The lines of a block -/

private theorem tagLines_eq_map_written (block : Block) :
    block.tagLines = block.tags.map Tag.written := by
  have kind : ∀ it : DeclarationKind,
      "@type ".toList ++ it.word = (Tag.kind it).written :=
    fun it => Tag.append_eq_written (.kind it) (by simp) rfl
  have name : ∀ it : Text, "@name ".toList ++ it = (Tag.name it).written :=
    fun it => Tag.append_eq_written (.name it) (by simp) rfl
  have interface : ∀ it : Text,
      "@implements ".toList ++ it = (Tag.implements it).written :=
    fun it => Tag.append_eq_written (.implements it) (by simp) rfl
  have returns : ∀ it : Text,
      "@returns ".toList ++ it = (Tag.returns it).written :=
    fun it => Tag.append_eq_written (.returns it) (by simp) rfl
  have members : ∀ (label : Text) (it : Parameter),
      label ++ typeText it.type ++ it.nameText ++
      descriptionText it.description = label ++ Tag.memberText it := by
    intro label it
    simp only [Tag.memberText, List.append_assoc]
  have parameter : ∀ it : Parameter, it.line = (Tag.parameter it).written :=
    fun it =>
    (members "@param ".toList it).trans
      (Tag.append_eq_written (.parameter it) (by simp) rfl)
  have property : ∀ it : Property, it.line = (Tag.property it).written :=
    fun it =>
    (members "@prop ".toList it.parameter).trans
      (Tag.append_eq_written (.property it) (by simp) rfl)
  have modifier : ∀ it : Modifier, it.line = (Tag.modifier it).written :=
    fun it =>
    (List.append_assoc _ _ _).trans
      (Tag.append_eq_written (.modifier it) (by simp) rfl)
  simp only [tagLines, tags, Extensions.lines, List.map_append, List.map_map,
    List.map_flatMap, Extensions.entryTags, kind, name, interface, returns,
    funext parameter, funext property, funext modifier]
  rfl

/-- The content lines, with the empty line between the two parts, if there is
one. -/
theorem contentLines_eq_written (block : Block) :
    ∃ gap : List Text, (∀ line ∈ gap, line = []) ∧
      block.contentLines = block.descriptionLines ++ gap ++
        block.tags.map Tag.written := by
  rw [← tagLines_eq_map_written, contentLines]
  split
  · exact ⟨[], nofun, by rw [List.append_nil]⟩
  · exact ⟨[[]], fun line => List.mem_singleton.mp, by simp⟩

theorem mem_contentLines {block : Block} {line : Text}
    (member : line ∈ block.contentLines) :
    line ∈ block.descriptionLines ∨ line = [] ∨ ∃ tag ∈ block.tags,
      tag.written = line := by
  obtain ⟨gap, empty, whole⟩ := block.contentLines_eq_written
  simp only [whole, List.mem_append, List.mem_map] at member
  rcases member with (described | between) | tagged
  · exact .inl described
  · exact .inr (.inl (empty line between))
  · exact .inr (.inr tagged)

end Block

theorem isTag_of_empty {line : Line} (empty : line.text = []) :
    line.isTag = false := by
  rw [Line.isTag, empty]
  rfl

theorem entries_append {plain : List Line}
    (noTag : ∀ line ∈ plain, line.isTag = false) (rest : List Line) :
    entries (plain ++ rest) =
      (plain ++ (entries rest).1, (entries rest).2) := by
  induction plain with
  | nil => rfl
  | cons line plain ih =>
      have later :=
        ih fun other member => noTag other (List.mem_cons_of_mem line member)
      have notHere := noTag line List.mem_cons_self
      rw [List.cons_append, entries, later]
      simp only [notHere, Bool.false_eq_true, if_false, List.cons_append]

/-- Tag lines with nothing but empty lines behind them. -/
theorem entries_tagged {tagged tail : List Line}
    (isTag : ∀ line ∈ tagged, line.isTag = true)
    (empty : ∀ line ∈ tail, line.text = []) :
    (∀ line ∈ (entries (tagged ++ tail)).1, line.text = []) ∧
      (entries (tagged ++ tail)).2.map (·.tag) = tagged ∧
      ∀ entry ∈ (entries (tagged ++ tail)).2, entry.continuation = [] := by
  induction tagged with
  | nil =>
      have plain : ∀ line ∈ tail, line.isTag = false := fun line member =>
        isTag_of_empty (empty line member)
      have split := entries_append plain []
      rw [List.append_nil] at split
      rw [List.nil_append, split]
      simpa [entries] using empty
  | cons line tagged ih =>
      obtain ⟨body, tags, bare⟩ := ih fun other member =>
        isTag other (List.mem_cons_of_mem line member)
      have alone : Entry.continuation ⟨line, (entries (tagged ++ tail)).1⟩ =
          [] := by
        rw [Entry.continuation, List.filter_eq_nil_iff]
        intro other member
        simp [body other member]
      rw [List.cons_append, entries]
      simp only [isTag line List.mem_cons_self, if_true]
      refine ⟨by simp, by rw [List.map_cons, tags], ?_⟩
      intro entry member
      rcases List.mem_cons.mp member with rfl | later
      · exact alone
      · exact bare entry later

/-! ## Reading the tag lines -/

private theorem add_of_canonical {block : Block} {tag : Tag} {entry : Entry}
    (canonical : tag.Canonical) (written : entry.tag.text = tag.line)
    (bare : entry.continuation = []) (fresh : block.replaced? tag = none)
    (issues : List Issue) :
    Extraction.add ⟨block, issues⟩ entry = ⟨block.add tag, issues⟩ := by
  have noIssues : Extraction.entryIssues block entry tag = [] := by
    rw [Extraction.entryIssues, fresh, bare]
    cases tag.closedName? <;> rfl
  rw [Extraction.add, written, Tag.parse_line canonical]
  simp only [bare, List.map_nil, List.foldl_nil, noIssues, List.append_nil]

theorem foldl_add {block result : Block} {tags : List Tag} {items : List Entry}
    (builds : Builds block tags result)
    (canonical : ∀ tag ∈ tags, tag.Canonical)
    (written : items.map (·.tag.text) = tags.map Tag.line)
    (bare : ∀ entry ∈ items, entry.continuation = []) (issues : List Issue) :
    items.foldl Extraction.add ⟨block, issues⟩ = ⟨result, issues⟩ := by
  induction builds generalizing items with
  | nil block =>
      rw [List.map_nil, List.map_eq_nil_iff] at written
      rw [written, List.foldl_nil]
  | @cons block result tag tags fresh _ ih =>
      obtain ⟨entry, others, rfl, here, later⟩ :=
        List.map_eq_cons_iff.mp written
      rw [List.foldl_cons,
        add_of_canonical (canonical tag List.mem_cons_self) here
          (bare entry List.mem_cons_self) fresh]
      exact ih
        (fun other member => canonical other (List.mem_cons_of_mem tag member))
        later fun other member => bare other (List.mem_cons_of_mem entry member)

/-! ## Reading the description -/

theorem dropWhile_padding {padding lines : List Text}
    (empty : ∀ line ∈ padding, line = []) (first : lines.head? ≠ some []) :
    (padding ++ lines).dropWhile (·.isEmpty) = lines := by
  rw [List.dropWhile_append_of_pos
    fun line member => by simp [empty line member]]
  cases lines with
  | nil => rfl
  | cons line rest =>
      apply List.dropWhile_cons_of_neg
      intro blank
      exact first (by rw [List.head?_cons, List.isEmpty_iff.mp blank])

theorem trimLines_padded {front lines back : List Text}
    (frontEmpty : ∀ line ∈ front, line = [])
    (backEmpty : ∀ line ∈ back, line = []) (first : lines.head? ≠ some [])
    (last : lines.getLast? ≠ some []) :
    trimLines (front ++ lines ++ back) = lines := by
  by_cases none : lines = []
  · subst none
    have allEmpty : ∀ line ∈ front ++ back, line = [] := by
      intro line member
      rcases List.mem_append.mp member with inFront | inBack
      · exact frontEmpty line inFront
      · exact backEmpty line inBack
    have nothing := dropWhile_padding allEmpty first
    rw [List.append_nil] at nothing
    rw [trimLines, List.append_nil, nothing]
    rfl
  · have begins : (lines ++ back).head? ≠ some [] := by
      obtain ⟨line, rest, rfl⟩ := List.exists_cons_of_ne_nil none
      exact first
    have reversedEmpty : ∀ line ∈ back.reverse, line = [] := fun line member =>
      backEmpty line (List.mem_reverse.mp member)
    have ends : lines.reverse.head? ≠ some [] := by
      rwa [List.head?_reverse]
    rw [trimLines, List.append_assoc, dropWhile_padding frontEmpty begins,
      List.reverse_append, dropWhile_padding reversedEmpty ends,
      List.reverse_reverse]

private theorem dropReturn_of_trimmed {line : Text}
    (trimmed : Text.Trimmed line) :
    Text.dropReturn line = line := by
  cases found : Text.dropBack? ['\r'] line with
  | none => rw [Text.dropReturn, found, Option.getD_none]
  | some rest =>
      have shorter := Text.length_trimEnd_le rest
      have whole := Text.dropBack?_eq_some_iff.mp found
      have same := trimmed.trimEnd_eq
      rw [whole, Text.trimEnd_concat_of_blank (by decide)] at same
      rw [same, List.length_append, List.length_singleton] at shorter
      omega

theorem linesOfPieces_of_trimmed {pieces : List Text}
    (trimmed : ∀ piece ∈ pieces, Text.Trimmed piece)
    (last : pieces.getLast? ≠ some []) :
    Text.linesOfPieces pieces = pieces := by
  fun_induction Text.linesOfPieces pieces with
  | case1 => rfl
  | case2 piece empty => exact (last (by simpa using empty)).elim
  | case3 piece filled => rfl
  | case4 piece next pieces ih =>
      rw [List.getLast?_cons_cons] at last
      rw [dropReturn_of_trimmed (trimmed piece List.mem_cons_self),
        ih (fun other member =>
          trimmed other (List.mem_cons_of_mem piece member)) last]

/-- The lines of a canonical description are its pieces between line breaks. -/
theorem CanonicalDescription.lines_eq {style : Style} {text : Text}
    (canonical : CanonicalDescription style text) :
    Text.lines text = Text.splitOn '\n' text :=
  linesOfPieces_of_trimmed
    (fun line member => (canonical.writable line member).clean.trimmed)
    canonical.last

/-- What reading relies on in the lines of a description. -/
structure Describes (style : Style) (lines : List Text) (text : Text) :
    Prop where
  writable : ∀ line ∈ lines, Writable style line
  noTag : ∀ line ∈ lines, Text.beginsWith ['@'] line = false
  first : lines.head? ≠ some []
  last : lines.getLast? ≠ some []
  joined : Text.join ['\n'] lines = text

theorem Block.Canonical.describes {style : Style} {block : Block}
    (canonical : block.Canonical style) :
    Describes style block.descriptionLines block.description := by
  rcases canonical.description with none | described
  · have nothing : block.descriptionLines = [] := by
      rw [descriptionLines, none]; rfl
    rw [nothing, none]
    exact ⟨nofun, nofun, nofun, nofun, rfl⟩
  · rw [descriptionLines, described.lines_eq]
    exact ⟨described.writable, described.noTag, described.first, described.last,
      Text.join_splitOn block.description⟩

theorem Describes.descriptionOf_eq {style : Style} {lines : List Text}
    {text : Text} (described : Describes style lines text)
    {front back : List Text} (frontEmpty : ∀ line ∈ front, line = [])
    (backEmpty : ∀ line ∈ back, line = []) {read : List Line}
    (texts : read.map (·.text) = front ++ lines ++ back) :
    descriptionOf read = text := by
  rw [descriptionOf, texts,
    trimLines_padded frontEmpty backEmpty described.first described.last,
    described.joined]

/-! ## The round trip -/

theorem contentLines_eq {style : Style} {block : Block}
    (canonical : block.Canonical style) :
    ∃ gap : List Text, (∀ line ∈ gap, line = []) ∧
      block.contentLines = block.descriptionLines ++ gap ++
        block.tags.map Tag.line := by
  have lines : block.tags.map Tag.written = block.tags.map Tag.line := by
    apply List.map_congr_left
    intro tag member
    have isCanonical := canonical.tags tag member
    exact Tag.written_eq_line
      (isCanonical.legible.text_ne_nil isCanonical.expressible.ne_implements)
  rw [← lines]
  exact block.contentLines_eq_written

theorem writable_contentLines {style : Style} {block : Block}
    (canonical : block.Canonical style) :
    ∀ line ∈ block.contentLines, Writable style line := by
  obtain ⟨gap, empty, whole⟩ := contentLines_eq canonical
  intro line member
  simp only [whole, List.mem_append, List.mem_map] at member
  rcases member with (described | between) | ⟨tag, inTags, rfl⟩
  · exact canonical.describes.writable line described
  · rw [empty line between]
    exact ⟨by decide, fun _ => rfl⟩
  · exact Tag.writable_line style (canonical.tags tag inTags)

private theorem padding_empty (style : Style) (lines : List Text) :
    (∀ line ∈ (padding style lines).1, line = []) ∧
      ∀ line ∈ (padding style lines).2, line = [] := by
  cases style with
  | block => simp [padding]
  | lines =>
      rw [padding]
      split <;> simp

/-- The lines say the block, in three parts: the description between empty
lines, the tag lines, and empty lines. -/
structure Expresses (block : Block) (plain tagged tail : List Line) : Prop where
  description : ∃ front gap : List Text, (∀ line ∈ front, line = []) ∧
  (∀ line ∈ gap, line = []) ∧
    plain.map (·.text) = front ++ block.descriptionLines ++ gap
  tags : tagged.map (·.text) = block.tags.map Tag.line
  empty : ∀ line ∈ tail, line.text = []

theorem exists_expresses_render {style : Style} {block : Block}
    (canonical : block.Canonical style) :
    ∃ plain tagged tail : List Line,
      Line.all (block.render style) = plain ++ (tagged ++ tail) ∧
        Expresses block plain tagged tail := by
  obtain ⟨gap, gapEmpty, whole⟩ := contentLines_eq canonical
  obtain ⟨frontEmpty, backEmpty⟩ := padding_empty style block.contentLines
  have texts := map_text_all_render style (writable_contentLines canonical)
  generalize padding style block.contentLines =
    pads at frontEmpty backEmpty texts
  have regrouped : (Line.all (block.render style)).map (·.text) =
      (pads.1 ++ block.descriptionLines ++ gap) ++
        (block.tags.map Tag.line ++ pads.2) := by
    rw [texts, whole]
    simp only [List.append_assoc]
  obtain ⟨plain, rest, split, plainTexts, restTexts⟩ :=
    List.map_eq_append_iff.mp regrouped
  obtain ⟨tagged, tail, rfl, taggedTexts, tailTexts⟩ :=
    List.map_eq_append_iff.mp restTexts
  refine ⟨plain, tagged, tail, split,
    ⟨_, gap, frontEmpty, gapEmpty, plainTexts⟩, taggedTexts, ?_⟩
  intro line member
  exact backEmpty line.text (tailTexts ▸ List.mem_map_of_mem member)

theorem Expresses.isTag_plain {style : Style} {block : Block}
    {plain tagged tail : List Line} (said : Expresses block plain tagged tail)
    (canonical : block.Canonical style) :
    ∀ line ∈ plain, line.isTag = false := by
  obtain ⟨front, gap, frontEmpty, gapEmpty, plainTexts⟩ := said.description
  intro line member
  have inTexts : line.text ∈ front ++ block.descriptionLines ++ gap :=
    plainTexts ▸ List.mem_map_of_mem member
  simp only [List.mem_append] at inTexts
  rcases inTexts with (inFront | inDescription) | inGap
  · exact isTag_of_empty (frontEmpty _ inFront)
  · exact canonical.describes.noTag _ inDescription
  · exact isTag_of_empty (gapEmpty _ inGap)

theorem Expresses.isTag_tagged {block : Block} {plain tagged tail : List Line}
    (said : Expresses block plain tagged tail) :
    ∀ line ∈ tagged, line.isTag = true := by
  intro line member
  have inTexts : line.text ∈ block.tags.map Tag.line :=
    said.tags ▸ List.mem_map_of_mem member
  obtain ⟨tag, -, same⟩ := List.mem_map.mp inTexts
  rw [Line.isTag, ← same]
  exact Tag.beginsWith_line tag

/-- A comment whose lines say a canonical block is read as that block. -/
theorem extract_of_expresses {style : Style} {block : Block}
    (canonical : block.Canonical style) {comment : Text}
    {plain tagged tail : List Line}
    (whole : Line.all comment = plain ++ (tagged ++ tail))
    (said : Expresses block plain tagged tail) :
    extract comment = { block, issues := [] } := by
  obtain ⟨front, gap, frontEmpty, gapEmpty, plainTexts⟩ := said.description
  obtain ⟨behindEmpty, tags, bare⟩ :=
    entries_tagged said.isTag_tagged said.empty
  have written : (entries (tagged ++ tail)).2.map (·.tag.text) =
      block.tags.map Tag.line := by
    have mapped := congrArg (List.map (·.text)) tags
    rw [List.map_map] at mapped
    exact mapped.trans said.tags
  have folded :=
    foldl_add (Block.builds_tags canonical.extensions) canonical.tags
      written bare []
  have spareEmpty : ∀ line ∈ gap ++ (entries (tagged ++ tail)).1.map (·.text),
      line = [] := by
    intro line member
    rcases List.mem_append.mp member with inGap | spare
    · exact gapEmpty line inGap
    · obtain ⟨other, inBody, rfl⟩ := List.mem_map.mp spare
      exact behindEmpty other inBody
  have description :
      descriptionOf (plain ++ (entries (tagged ++ tail)).1) =
        block.description := by
    apply canonical.describes.descriptionOf_eq frontEmpty spareEmpty
    rw [List.map_append, plainTexts, List.append_assoc]
  simp only [extract, whole, entries_append (said.isTag_plain canonical),
    folded, description]

/-- In either style of comment, reading what
was written for a canonical block gives that block, and finds nothing wrong. -/
theorem extract_render (style : Style) (block : Block)
    (canonical : block.Canonical style) :
    extract (block.render style) = { block, issues := [] } := by
  obtain ⟨plain, tagged, tail, whole, said⟩ := exists_expresses_render canonical
  exact extract_of_expresses canonical whole said

/-- A block whose texts hold the signs that divide a tag line. -/
def Block.awkward : Block where
  kind := some .component
  name := some "card@".toList
  description := "- a\n\n= /** b".toList
  parameters := [
    { name := "-".toList, description := "- = c".toList },
    { name := "d".toList, type := some "\x7b [e] =".toList, optional := true,
      default := some "= [f - g".toList, description := "=".toList }]
  properties := [{ name := "--h".toList, type := some "i ]".toList }]
  modifiers := [{ name := "-".toList, description := "-".toList }]
  implements := some "j.k".toList
  returns := some "@l = [m] - n".toList
  extensions := [("o".toList, [[], "- p".toList]), ("q*/".toList, ["r".toList])]

theorem extract_render_awkward :
    (Block.awkward.Canonical .block ∧ Block.awkward.Canonical .lines) ∧
      extract (Block.awkward.render .block) =
        { block := Block.awkward, issues := [] } ∧
      extract (Block.awkward.render .lines) =
        { block := Block.awkward, issues := [] } := by
  have inBlock : Block.awkward.Canonical .block := by decide +kernel
  have inLines : Block.awkward.Canonical .lines := by decide +kernel
  exact ⟨⟨inBlock, inLines⟩, extract_render .block Block.awkward inBlock,
    extract_render .lines Block.awkward inLines⟩

end Doc

end StyleAudit
