import StyleAudit.Proofs.Doc.Comment
import StyleAudit.Proofs.Doc.Issues
import StyleAudit.Proofs.Doc.Legible

/-!
# What a comment can say

A block that was read from a comment has the shape that its tags and lines have.
-/

namespace StyleAudit

namespace Doc

/-! ## Content lines -/

theorem trimmed_content (raw : Text) : Text.Trimmed (content raw).rest := by
  rw [content_rest]
  exact Text.trimmed_trim _

theorem content_isInfix (raw : Text) : (content raw).rest <:+: raw :=
  (List.suffix_append _ _).isInfix.trans (content_isPrefix raw).isInfix

theorem exists_raw_of_mem_all {comment : Text} {line : Line}
    (member : line ∈ Line.all comment) :
    ∃ raw ∈ Text.splitOn '\n' comment, line.text = (content raw).rest := by
  have inTexts : line.text ∈ (Line.all comment).map (·.text) :=
    List.mem_map_of_mem member
  rw [Line.all, map_text_ofRaws] at inTexts
  obtain ⟨raw, inRaws, same⟩ := List.mem_map.mp inTexts
  exact ⟨raw, inRaws, same.symm⟩

theorem trimmed_of_mem_all {comment : Text} {line : Line}
    (member : line ∈ Line.all comment) :
    Text.Trimmed line.text := by
  obtain ⟨raw, -, same⟩ := exists_raw_of_mem_all member
  rw [same]
  exact trimmed_content raw

theorem oneLine_of_mem_all {comment : Text} {line : Line}
    (member : line ∈ Line.all comment) :
    '\n' ∉ line.text := by
  obtain ⟨raw, inRaws, same⟩ := exists_raw_of_mem_all member
  rw [same]
  exact fun newline =>
    Text.not_mem_of_mem_splitOn inRaws ((content_isInfix raw).subset newline)

/-! ### Closing marks -/

theorem inherited_unclosed : Text.Inherited Text.Unclosed where
  part inside unclosed := unclosed.of_isInfix inside
  joined left right :=
    (Text.unclosed_append_cons (by decide) (by decide)).mpr ⟨left, right⟩

theorem dropClosing_closed (inner : Text) :
    dropClosing (inner ++ ['*', '/']) = inner := by
  have trimmed : Text.trimEnd (inner ++ ['*', '/']) = inner ++ ['*', '/'] :=
    Text.trimEnd_append inner (by simp) (by decide)
  rw [dropClosing, trimmed, Text.dropBack?_eq_some_iff.mpr rfl,
    Option.getD_some]

/-- A part of the end of a line that has a closing mark at its end only. -/
theorem unclosed_dropClosing_of_suffix {line text : Text}
    (unclosed : Text.Unclosed line) (ends : text <:+ line ++ ['*', '/']) :
    Text.Unclosed (dropClosing text) := by
  by_cases short : text.length < 2
  · intro closing
    have shorter :=
      (closing.trans (dropClosing_isPrefix text).isInfix).length_le
    simp only [List.length_cons, List.length_nil] at shorter
    omega
  · have marked : ['*', '/'] <:+ text :=
      List.suffix_of_suffix_length_le (List.suffix_append line ['*', '/']) ends
        (by simp; omega)
    obtain ⟨inner, rfl⟩ := marked
    obtain ⟨front, whole⟩ := ends
    rw [← List.append_assoc] at whole
    have inside : inner <:+: line := by
      rw [← List.append_cancel_right whole]
      exact (List.suffix_append front inner).isInfix
    rw [dropClosing_closed]
    exact unclosed.of_isInfix inside

/-- A line of a comment that has `line` between its marks. -/
def Framed (line raw : Text) : Prop :=
  ∃ opening closing, (opening = [] ∨ opening = ['/', '*']) ∧
    (closing = [] ∨ closing = ['*', '/']) ∧ raw = opening ++ (line ++ closing)

theorem exists_framed_of_mem_splitOn {inner raw : Text}
    (member : raw ∈ Text.splitOn '\n' ('/' :: '*' :: inner ++ ['*', '/'])) :
    ∃ line ∈ Text.splitOn '\n' inner, Framed line raw := by
  obtain ⟨others, last, split⟩ :=
    (List.eq_nil_or_concat (Text.splitOn '\n' inner)).resolve_left
      (Text.splitOn_ne_nil inner)
  rw [List.concat_eq_append] at split
  have closed := Text.splitOn_append_back (by decide : '\n' ∉ ['*', '/']) split
  change raw ∈ Text.splitOn '\n' (['/', '*'] ++ (inner ++ ['*', '/'])) at member
  rw [split]
  cases others with
  | nil =>
      rw [Text.splitOn_append_front (by decide) closed] at member
      rw [List.mem_singleton.mp member]
      exact ⟨last, by simp, _, _, .inr rfl, .inr rfl, rfl⟩
  | cons first others =>
      rw [Text.splitOn_append_front (by decide) closed] at member
      rcases List.mem_cons.mp member with rfl | later
      · exact ⟨first, by simp, ['/', '*'], [], .inr rfl,
          .inl rfl, by rw [List.append_nil]⟩
      · rcases List.mem_append.mp later with between | isLast
        · exact ⟨raw, by simp [between], [], [], .inl rfl, .inl rfl, by simp⟩
        · rw [List.mem_singleton.mp isLast]
          exact ⟨last, by simp, [], _, .inl rfl, .inr rfl, rfl⟩

/-- The opening mark of a comment is no part of what is read. -/
theorem opened_suffix {line raw closing : Text} {opening : Text}
    (isOpening : opening = [] ∨ opening = ['/', '*'])
    (whole : raw = opening ++ (line ++ closing)) :
    (Text.trimStart raw).drop (openingLength (Text.trimStart raw)) <:+
      line ++ closing := by
  rcases isOpening with rfl | rfl
  · rw [whole]
    exact (List.drop_suffix _ _).trans (List.dropWhile_suffix _)
  · have filled : Text.trimStart raw = '/' :: '*' :: (line ++ closing) := by
      rw [whole]
      exact Text.trimStart_cons_of_filled (by decide) _
    have long : 2 ≤ openingLength (Text.trimStart raw) := by
      rw [filled, openingLength]
      split
      · omega
      · simp [Text.beginsWith, Text.dropFront?]
    obtain ⟨more, length⟩ := Nat.exists_eq_add_of_le long
    rw [length, filled, Nat.add_comm]
    exact List.drop_suffix more (line ++ closing)

private theorem unclosed_content {line raw : Text}
    (unclosed : Text.Unclosed line) (framed : Framed line raw) :
    Text.Unclosed (content raw).rest := by
  obtain ⟨opening, closing, isOpening, isClosing, whole⟩ := framed
  have ends := opened_suffix isOpening whole
  have inside : (content raw).rest <:+: dropClosing
      ((Text.trimStart raw).drop (openingLength (Text.trimStart raw))) := by
    rw [content_rest]
    exact (Text.trim_isInfix _).trans (List.drop_suffix _ _).isInfix
  rcases isClosing with rfl | rfl
  · rw [List.append_nil] at ends
    exact unclosed.of_isInfix
      ((inside.trans (dropClosing_isPrefix _).isInfix).trans ends.isInfix)
  · exact (unclosed_dropClosing_of_suffix unclosed ends).of_isInfix inside

/-- No content line of a comment between marks holds the closing mark. -/
theorem unclosed_of_mem_all {inner : Text} (unclosed : Text.Unclosed inner) :
    ∀ line ∈ Line.all ('/' :: '*' :: inner ++ ['*', '/']),
      Text.Unclosed line.text := by
  intro line member
  obtain ⟨raw, inRaws, same⟩ := exists_raw_of_mem_all member
  obtain ⟨between, inInner, framed⟩ := exists_framed_of_mem_splitOn inRaws
  rw [same]
  exact unclosed_content
    (unclosed.of_isInfix (Text.isInfix_of_mem_splitOn inInner)) framed

/-! ## Adding tags to a block -/

namespace Extensions

theorem mem_add {tag value key : Text} {values : List Text}
    {extensions : Extensions}
    (member : (key, values) ∈ Extensions.add tag value extensions) :
    (key, values) ∈ extensions ∨
      key = tag ∧
        (values = [value] ∨ ∃ old, (tag, old) ∈ extensions ∧
          values = old ++ [value]) := by
  induction extensions with
  | nil =>
      obtain ⟨rfl, rfl⟩ := Prod.mk.inj (List.mem_singleton.mp member)
      exact .inr ⟨rfl, .inl rfl⟩
  | cons entry rest ih =>
      obtain ⟨own, held⟩ := entry
      rw [add] at member
      split at member
      · rcases List.mem_cons.mp member with here | later
        · obtain ⟨rfl, rfl⟩ := Prod.mk.inj here
          exact .inr ⟨rfl, .inl rfl⟩
        · exact .inl later
      · rename_i same
        obtain rfl := Text.compare_eq_eq_iff.mp same
        rcases List.mem_cons.mp member with here | later
        · obtain ⟨rfl, rfl⟩ := Prod.mk.inj here
          exact .inr ⟨rfl, .inr ⟨held, List.mem_cons_self, rfl⟩⟩
        · exact .inl (List.mem_cons_of_mem _ later)
      · rcases List.mem_cons.mp member with here | later
        · exact .inl (here ▸ List.mem_cons_self)
        · rcases ih later with old | ⟨rfl, alone | ⟨old, inRest, grown⟩⟩
          · exact .inl (List.mem_cons_of_mem _ old)
          · exact .inr ⟨rfl, .inl alone⟩
          · exact .inr ⟨rfl, .inr ⟨old, List.mem_cons_of_mem _ inRest, grown⟩⟩

/-- The keys ascend, and each has a value. -/
structure Ordered (extensions : Extensions) : Prop where
  sorted : extensions.Pairwise fun left right => Text.compare left.1 right.1 =
    .lt
  filled : ∀ entry ∈ extensions, entry.2 ≠ []

theorem ordered_nil : Ordered [] :=
  ⟨.nil, nofun⟩

private theorem sorted_add (tag value : Text) {extensions : Extensions}
    (sorted : extensions.Pairwise fun left right =>
      Text.compare left.1 right.1 = .lt) :
    (Extensions.add tag value extensions).Pairwise
      fun left right => Text.compare left.1 right.1 = .lt := by
  induction extensions with
  | nil => exact List.pairwise_singleton _ _
  | cons entry rest ih =>
      obtain ⟨own, held⟩ := entry
      obtain ⟨below, later⟩ := List.pairwise_cons.mp sorted
      rw [add]
      split
      · rename_i before
        refine List.pairwise_cons.mpr ⟨?_, sorted⟩
        intro other member
        rcases List.mem_cons.mp member with rfl | inRest
        · exact before
        · exact Text.compare_lt_trans before (below other inRest)
      · exact List.pairwise_cons.mpr ⟨below, later⟩
      · rename_i behind
        refine List.pairwise_cons.mpr ⟨?_, ih later⟩
        rintro ⟨key, values⟩ member
        rcases mem_add member with old | ⟨rfl, -⟩
        · exact below _ old
        · rw [← Text.swap_compare, behind]
          rfl

theorem Ordered.add {extensions : Extensions} (ordered : extensions.Ordered)
    (tag value : Text) :
    (Extensions.add tag value extensions).Ordered where
  sorted := sorted_add tag value ordered.sorted
  filled := by
    rintro ⟨key, values⟩ member
    rcases mem_add member with old | ⟨-, rfl | ⟨old, -, rfl⟩⟩
    · exact ordered.filled _ old
    · exact List.cons_ne_nil _ _
    · simp

end Extensions

namespace Block

theorem has_of_has_add {block : Block} {tag other : Tag}
    (given : (block.add tag).Has other) :
    other = tag ∨ block.Has other := by
  cases tag with
  | kind it =>
      cases other with
      | kind _ => exact .inl (congrArg Tag.kind (Option.some.inj given).symm)
      | _ => exact .inr given
  | name it =>
      cases other with
      | name _ => exact .inl (congrArg Tag.name (Option.some.inj given).symm)
      | _ => exact .inr given
  | implements it =>
      cases other with
      | implements _ =>
          exact .inl (congrArg Tag.implements (Option.some.inj given).symm)
      | _ => exact .inr given
  | returns it =>
      cases other with
      | returns _ =>
          exact .inl (congrArg Tag.returns (Option.some.inj given).symm)
      | _ => exact .inr given
  | parameter it =>
      cases other with
      | parameter _ => simpa [Has, add, or_comm] using given
      | _ => exact .inr given
  | property it =>
      cases other with
      | property _ => simpa [Has, add, or_comm] using given
      | _ => exact .inr given
  | modifier it =>
      cases other with
      | modifier _ => simpa [Has, add, or_comm] using given
      | _ => exact .inr given
  | extension key value =>
      cases other with
      | extension otherKey otherValue =>
          obtain ⟨values, inBlock, inValues⟩ := given
          rcases Extensions.mem_add inBlock with
            old | ⟨rfl, rfl | ⟨old, inOld, rfl⟩⟩
          · exact .inr ⟨values, old, inValues⟩
          · exact .inl (congrArg _ (List.mem_singleton.mp inValues))
          · rcases List.mem_append.mp inValues with before | last
            · exact .inr ⟨old, inOld, before⟩
            · exact .inl (congrArg _ (List.mem_singleton.mp last))
      | _ => exact .inr given

private theorem ordered_add {block : Block} (ordered : block.extensions.Ordered)
    (tag : Tag) :
    (block.add tag).extensions.Ordered := by
  cases tag with
  | extension key value => exact ordered.add key value
  | _ => exact ordered

theorem ordered_foldl_add {block : Block} (ordered : block.extensions.Ordered)
    (tags : List Tag) :
    (tags.foldl Block.add block).extensions.Ordered := by
  induction tags generalizing block with
  | nil => exact ordered
  | cons tag rest ih => exact ih (ordered_add ordered tag)

theorem has_of_has_foldl_add {block : Block} {tags : List Tag} {other : Tag}
    (given : (tags.foldl Block.add block).Has other) :
    other ∈ tags ∨ block.Has other := by
  induction tags generalizing block with
  | nil => exact .inr given
  | cons tag rest ih =>
      rcases ih given with later | added
      · exact .inl (List.mem_cons_of_mem tag later)
      · rcases has_of_has_add added with rfl | before
        · exact .inl List.mem_cons_self
        · exact .inr before

end Block

/-! ## The tags of an extracted block -/

/-- The tag that an entry holds, with the lines that continue it. -/
def Entry.reading? (entry : Entry) : Option Tag :=
  match Tag.parse entry.tag.text with
  | .error _ => none
  | .ok tag =>
    some ((entry.continuation.map (·.text)).foldl Tag.continueWith tag)

theorem block_foldl_add (extraction : Extraction) (list : List Entry) :
    (list.foldl Extraction.add extraction).block =
      (list.filterMap Entry.reading?).foldl Block.add extraction.block := by
  induction list generalizing extraction with
  | nil => rfl
  | cons entry rest ih =>
      rw [List.foldl_cons, ih, List.filterMap_cons, Entry.reading?,
        Extraction.add]
      cases Tag.parse entry.tag.text <;> rfl

/-- The tags that a comment holds, in order. -/
def readings (comment : Text) : List Tag :=
  (entries (Line.all comment)).2.filterMap Entry.reading?

/-- The lines of the description of a comment. -/
def describing (comment : Text) : List Text :=
  trimLines ((entries (Line.all comment)).1.map (·.text))

theorem block_extract (comment : Text) :
    (extract comment).block =
      { (readings comment).foldl Block.add {} with
        description := Text.join ['\n'] (describing comment) } := by
  have added : ((entries (Line.all comment)).2.foldl Extraction.add {}).block =
      (readings comment).foldl Block.add {} :=
    block_foldl_add {} _
  rw [← added]
  rfl

private theorem mem_readings_of_mem_tags {comment : Text} {tag : Tag}
    (member : tag ∈ (extract comment).block.tags) : tag ∈ readings comment := by
  rw [block_extract] at member
  have given : ((readings comment).foldl Block.add {}).Has tag :=
    Block.mem_tags_iff.mp member
  rcases Block.has_of_has_foldl_add given with read | initial
  · exact read
  · cases tag <;> simp [Block.Has] at initial

/-- Every tag of an extracted block stands in the lines of the comment. -/
theorem exists_entry_of_mem_tags {comment : Text} {tag : Tag}
    (member : tag ∈ (extract comment).block.tags) :
    ∃ own : Tag, ∃ line ∈ Line.all comment, ∃ more : List Text,
      line.isTag = true ∧ Tag.parse line.text = .ok own ∧
      (∀ text ∈ more, text ≠ [] ∧ ∃ other ∈ Line.all comment,
        other.text = text) ∧
      tag = more.foldl Tag.continueWith own := by
  obtain ⟨entry, inEntries, found⟩ :=
    List.mem_filterMap.mp (mem_readings_of_mem_tags member)
  obtain ⟨tagInLines, isTag, bodyInLines⟩ :=
    mem_of_mem_entries.2 entry inEntries
  rw [Entry.reading?] at found
  split at found
  · cases found
  · rename_i own parsed
    refine ⟨own, entry.tag, tagInLines, _, isTag, parsed, ?_,
      (Option.some.inj found).symm⟩
    intro text inMore
    obtain ⟨line, continued, rfl⟩ := List.mem_map.mp inMore
    obtain ⟨inBody, filled⟩ := List.mem_filter.mp continued
    exact ⟨by simpa using filled, line, bodyInLines line inBody, rfl⟩

theorem legible_of_mem_tags {comment : Text} {tag : Tag}
    (member : tag ∈ (extract comment).block.tags) : tag.Legible := by
  obtain ⟨own, line, -, more, -, parsed, continued, rfl⟩ :=
    exists_entry_of_mem_tags member
  apply (Tag.legible_parse parsed).1.foldl_continueWith
  · intro text inMore
    obtain ⟨-, other, inLines, rfl⟩ := continued text inMore
    exact trimmed_of_mem_all inLines
  · exact fun text inMore => (continued text inMore).1

theorem forall_texts_of_mem_tags {property : Text → Prop}
    (inherited : Text.Inherited property) {comment : Text}
    (held : ∀ line ∈ Line.all comment, property line.text) {tag : Tag}
    (member : tag ∈ (extract comment).block.tags) :
    ∀ text ∈ tag.texts, property text := by
  obtain ⟨own, line, inLines, more, -, parsed, continued, rfl⟩ :=
    exists_entry_of_mem_tags member
  apply Tag.forall_texts_foldl_continueWith inherited
  · intro text inOwn
    have inside := (Tag.legible_parse parsed).2.isInfix text inOwn
    exact inherited.part (inside.trans (List.drop_suffix 1 _).isInfix)
      (held line inLines)
  · intro text inMore
    obtain ⟨-, other, inLines, rfl⟩ := continued text inMore
    exact held other inLines

theorem oneLine_of_mem_tags {comment : Text} {tag : Tag}
    (member : tag ∈ (extract comment).block.tags) :
    ∀ text ∈ tag.texts, '\n' ∉ text :=
  forall_texts_of_mem_tags (Text.inherited_not_mem (by decide))
    (fun _ inLines => oneLine_of_mem_all inLines) member

/-! ## The description of an extracted block -/

theorem isTag_of_mem_description {lines : List Line} :
    ∀ line ∈ (entries lines).1, line.isTag = false := by
  induction lines with
  | nil => exact List.forall_mem_nil _
  | cons line rest ih =>
      rw [entries]
      cases isTag : line.isTag with
      | true => exact List.forall_mem_nil _
      | false => exact List.forall_mem_cons.mpr ⟨isTag, ih⟩

theorem exists_line_of_mem_describing {comment text : Text}
    (member : text ∈ describing comment) :
    ∃ line ∈ Line.all comment, line.text = text ∧ line.isTag = false := by
  have inside : text ∈ (entries (Line.all comment)).1.map (·.text) := by
    have trimmed := List.dropWhile_subset _ (List.mem_reverse.mp member)
    exact List.dropWhile_subset _ (List.mem_reverse.mp trimmed)
  obtain ⟨line, inDescription, rfl⟩ := List.mem_map.mp inside
  exact ⟨line, mem_of_mem_entries.1 line inDescription, rfl,
    isTag_of_mem_description line inDescription⟩

theorem describing_ends (comment : Text) :
    (describing comment).head? ≠ some [] ∧ (describing comment).getLast? ≠
      some [] := by
  constructor
  · intro first
    cases Text.not_of_mem_head?_dropEnds first
  · intro last
    cases Text.not_of_mem_getLast?_dropEnds last

theorem splitOn_description {comment : Text}
    (filled : describing comment ≠ []) :
    Text.splitOn '\n' (extract comment).block.description =
      describing comment := by
  rw [block_extract]
  apply Text.splitOn_join filled
  intro text member
  obtain ⟨line, inLines, rfl, -⟩ := exists_line_of_mem_describing member
  exact oneLine_of_mem_all inLines

theorem descriptionLines_extract (comment : Text) :
    (extract comment).block.descriptionLines = describing comment := by
  by_cases empty : describing comment = []
  · rw [Block.descriptionLines, block_extract, empty]
    rfl
  · rw [Block.descriptionLines, Text.lines, splitOn_description empty]
    apply linesOfPieces_of_trimmed _ (describing_ends comment).2
    intro text member
    obtain ⟨line, inLines, rfl, -⟩ := exists_line_of_mem_describing member
    exact trimmed_of_mem_all inLines

private theorem canonicalDescription_extract {comment : Text}
    (notClosing : ∀ line ∈ describing comment,
      Text.endsWith ['*', '/'] line = false) :
    (extract comment).block.description = [] ∨
      CanonicalDescription .block (extract comment).block.description := by
  by_cases empty : describing comment = []
  · left
    rw [block_extract, empty]
    rfl
  · right
    obtain ⟨first, last⟩ := describing_ends comment
    rw [← splitOn_description empty] at notClosing first last
    refine ⟨?_, ?_, first, last⟩
    · intro text member
      obtain ⟨line, inLines, rfl, -⟩ :=
        exists_line_of_mem_describing (splitOn_description empty ▸ member)
      exact ⟨⟨trimmed_of_mem_all inLines, oneLine_of_mem_all inLines,
        notClosing _ member⟩, nofun⟩
    · intro text member
      obtain ⟨line, -, rfl, noTag⟩ :=
        exists_line_of_mem_describing (splitOn_description empty ▸ member)
      exact noTag

/-! ## Canonical blocks -/

theorem Block.canonical_of_tags {style : Style} {block : Block}
    (description : block.description = [] ∨
      CanonicalDescription style block.description)
    (ordered : block.extensions.Ordered)
    (canonical : ∀ tag ∈ block.tags, tag.Canonical) :
    block.Canonical style := by
  have has : ∀ tag, block.Has tag → tag.Canonical := fun tag given =>
    canonical tag (mem_tags_iff.mpr given)
  refine ⟨description, fun it => has (.name it), fun it => has (.implements it),
    fun it => has (.returns it), fun it => has (.parameter it),
    fun it => has (.property it), fun it => has (.modifier it), ordered.sorted,
    ?_, ordered.filled, ?_⟩
  · rintro ⟨key, values⟩ member
    obtain ⟨value, inValues⟩ :=
      List.exists_mem_of_ne_nil values (ordered.filled _ member)
    exact (has (.extension key value) ⟨values, member, inValues⟩).1
  · rintro ⟨key, values⟩ member value inValues
    exact (has (.extension key value) ⟨values, member, inValues⟩).2

theorem canonical_extract {comment : Text}
    (expressible : ∀ tag ∈ (extract comment).block.tags, tag.Expressible)
    (described : ∀ line ∈ describing comment,
      Text.endsWith ['*', '/'] line = false)
    (tagged : ∀ tag ∈ (extract comment).block.tags,
      Text.endsWith ['*', '/'] tag.line = false) :
    (extract comment).block.Canonical .block := by
  apply Block.canonical_of_tags (canonicalDescription_extract described)
  · rw [block_extract]
    exact Block.ordered_foldl_add Extensions.ordered_nil (readings comment)
  · intro tag member
    exact (legible_of_mem_tags member).canonical (expressible tag member)
      (oneLine_of_mem_tags member) (tagged tag member)

end Doc

end StyleAudit
