import StyleAudit.Proofs.Doc.Weight

/-!
# Writing what was read

A block that was read from a comment can be written again, and is then read as
the same block, but for three things: an interface without a name, a default
value with a bracket in it, and a line that ends with the closing mark of a
comment.  Each of them is lost for good.  The first two are never read from a
written line, and a closing mark takes a slash with it that nothing brings back.
-/

namespace StyleAudit

namespace Doc

open Text (weight weight_cons weight_append)

/-! ## A line that is written and read -/

/-- What is read from a line that was written between marks. -/
def readBack (line : Text) : Text :=
  (content (Block.marked (lineMark .block) line)).rest

theorem map_text_all_render_block {block : Block}
    (oneLine : ∀ line ∈ block.contentLines, '\n' ∉ line) :
    (Line.all (block.render .block)).map (·.text) =
      [[]] ++ block.contentLines.map readBack ++ [[]] := by
  have opening : (content ['/', '*', '*']).rest = [] := by decide
  have closing : (content [' ', '*', '/']).rest = [] := by decide
  rw [Line.all, map_text_ofRaws, splitOn_render .block oneLine, dressed,
    List.map_cons, List.map_append, List.map_map, List.map_singleton,
    opening, closing]
  rfl

theorem count_readBack_le (line : Text) :
    (readBack line).count '/' ≤ line.count '/' := by
  have marked : (Block.marked (lineMark .block) line).count '/' =
      line.count '/' := by
    by_cases empty : line = []
    · subst empty
      decide
    · simp [Block.marked, lineMark, empty]
  rw [← marked]
  exact (content_isInfix _).sublist.count_le '/'

/-- A closing mark is lost. -/
theorem count_readBack_lt {line : Text}
    (closing : Text.endsWith ['*', '/'] line = true) :
    (readBack line).count '/' < line.count '/' := by
  obtain ⟨front, rfl⟩ := Text.endsWith_iff.mp closing
  have marked : Block.marked (lineMark .block) (front ++ ['*', '/']) =
      ' ' :: ('*' :: ' ' :: front ++ ['*', '/']) := by
    simp [Block.marked, lineMark]
  have indented : Text.trimStart (' ' :: ('*' :: ' ' :: front ++ ['*', '/'])) =
      '*' :: ' ' :: front ++ ['*', '/'] := by
    rw [Text.trimStart_cons_of_blank Text.isBlank_space, List.cons_append,
      Text.trimStart_cons_of_filled (by decide)]
  have noOpening : openingLength ('*' :: ' ' :: front ++ ['*', '/']) = 0 := by
    simp [openingLength, Text.beginsWith, Text.dropFront?]
  have inside : readBack (front ++ ['*', '/']) <:+: '*' :: ' ' :: front := by
    rw [readBack, marked, content_rest, indented, noOpening]
    simp only [List.drop_zero, dropClosing_closed]
    exact (Text.trim_isInfix _).trans (List.drop_suffix _ _).isInfix
  calc (readBack (front ++ ['*', '/'])).count '/'
    _ ≤ ('*' :: ' ' :: front).count '/' := inside.sublist.count_le '/'
    _ = front.count '/' := by simp
    _ < (front ++ ['*', '/']).count '/' := by simp

private theorem weight_readBack_le (lines : List Text) :
    weight (· == '/') (lines.map readBack) ≤ weight (· == '/') lines := by
  induction lines with
  | nil => exact Nat.le_refl _
  | cons line rest ih =>
      rw [List.map_cons, weight_cons, weight_cons]
      exact Nat.add_le_add (count_readBack_le line) ih

/-- No line ends with a closing mark if no slash is lost. -/
theorem notClosing_of_weight_le {lines : List Text}
    (kept : weight (· == '/') lines ≤ weight (· == '/') (lines.map readBack)) :
    ∀ line ∈ lines, Text.endsWith ['*', '/'] line = false := by
  induction lines with
  | nil => exact nofun
  | cons line rest ih =>
      have later := weight_readBack_le rest
      rw [List.map_cons, weight_cons, weight_cons] at kept
      change line.count '/' + _ ≤ (readBack line).count '/' + _ at kept
      refine List.forall_mem_cons.mpr ⟨?_, ih ?_⟩
      · rw [← Bool.not_eq_true]
        intro closing
        have here := count_readBack_lt closing
        omega
      · have here := count_readBack_le line
        omega

/-- The line of a tag that was read, even if it ends with a space. -/
theorem readBack_written {tag : Tag} (legible : tag.Legible)
    (oneLine : ∀ text ∈ tag.texts, '\n' ∉ text)
    (notClosing : Text.endsWith ['*', '/'] tag.written = false) :
    readBack tag.written = tag.line := by
  by_cases unnamed : tag = .implements []
  · subst unnamed
    decide
  · have same := Tag.written_eq_line (legible.text_ne_nil unnamed)
    have oneLineWritten := Tag.not_mem_written (by decide) oneLine
    rw [same] at notClosing oneLineWritten ⊢
    exact content_starred ⟨legible.trimmed_line, oneLineWritten, notClosing⟩

/-! ## The content lines of an extracted block -/

theorem oneLine_contentLines (comment : Text) :
    ∀ line ∈ (extract comment).block.contentLines, '\n' ∉ line := by
  intro line member
  rcases Block.mem_contentLines member with described | rfl | ⟨tag, inTags, rfl⟩
  · rw [descriptionLines_extract] at described
    obtain ⟨other, inLines, rfl, -⟩ := exists_line_of_mem_describing described
    exact oneLine_of_mem_all inLines
  · exact List.not_mem_nil
  · exact Tag.not_mem_written (by decide) (oneLine_of_mem_tags inTags)

/-- Where no line ends with a closing mark, every tag line that is read was
written for a tag. -/
theorem exists_tag_of_isTag {comment : Text}
    (notClosing : ∀ line ∈ (extract comment).block.contentLines,
      Text.endsWith ['*', '/'] line = false)
    {line : Line}
    (inLines : line ∈ Line.all ((extract comment).block.render .block))
    (isTag : line.isTag = true) : ∃ tag ∈ (extract comment).block.tags,
    line.text = tag.line := by
  have notEmpty : line.text ≠ [] := by
    intro empty
    rw [isTag_of_empty empty] at isTag
    cases isTag
  have inTexts : line.text ∈
      [[]] ++ (extract comment).block.contentLines.map readBack ++ [[]] := by
    rw [← map_text_all_render_block (oneLine_contentLines comment)]
    exact List.mem_map_of_mem inLines
  simp only [List.mem_append, List.mem_singleton, notEmpty, false_or, or_false]
    at inTexts
  obtain ⟨written, inContent, same⟩ := List.mem_map.mp inTexts
  have ends := notClosing written inContent
  rcases Block.mem_contentLines inContent with
    described | rfl | ⟨tag, inTags, rfl⟩
  · rw [descriptionLines_extract] at described
    obtain ⟨other, inComment, rfl, noTag⟩ :=
      exists_line_of_mem_describing described
    have kept : readBack other.text = other.text :=
      content_starred
        ⟨trimmed_of_mem_all inComment, oneLine_of_mem_all inComment, ends⟩
    rw [Line.isTag, ← same, kept, ← Line.isTag, noTag] at isTag
    cases isTag
  · exact (notEmpty same.symm).elim
  · refine ⟨tag, inTags, ?_⟩
    rw [← same]
    exact readBack_written (legible_of_mem_tags inTags)
      (oneLine_of_mem_tags inTags) ends

/-! ## Fixed points -/

section Fixed

variable {comment : Text}
  (fixed : (extract ((extract comment).block.render .block)).block =
    (extract comment).block)
include fixed

/-- The block is read with as many slashes as it is written with, so none of
them may be lost. -/
theorem notClosing_of_fixed :
    ∀ line ∈ (extract comment).block.contentLines,
      Text.endsWith ['*', '/'] line = false := by
  have plain := Tag.plain_of_not_mem (by decide : '/' ∉ Tag.frame)
  have read :=
    weight_extract plain (by decide) ((extract comment).block.render .block)
  have emptyWeight : weight (· == '/') [[]] = 0 := rfl
  rw [fixed, map_text_all_render_block (oneLine_contentLines comment),
    weight_append, weight_append] at read
  apply notClosing_of_weight_le
  rwa [emptyWeight, Nat.zero_add, Nat.add_zero] at read

theorem expressible_of_fixed : ∀ tag ∈ (extract comment).block.tags,
    tag.Expressible := by
  intro tag member
  rw [← fixed] at member
  obtain ⟨own, line, inLines, more, isTag, parsed, -, rfl⟩ :=
    exists_entry_of_mem_tags member
  obtain ⟨written, inTags, same⟩ :=
    exists_tag_of_isTag (notClosing_of_fixed fixed) inLines isTag
  rw [same] at parsed
  rw [Tag.expressible_foldl_continueWith]
  exact Tag.expressible_of_parse_line (legible_of_mem_tags inTags) parsed

end Fixed

theorem Block.expressible_iff {block : Block} :
    (∀ tag ∈ block.tags, tag.Expressible) ↔
      block.implements ≠ some [] ∧ ∀ it ∈ block.parameters,
        ∀ value ∈ it.default, ']' ∉ value := by
  constructor
  · intro expressible
    refine ⟨?_, ?_⟩
    · exact fun unnamed =>
        expressible (.implements []) (mem_tags_iff.mpr unnamed) rfl
    · exact fun it member =>
        expressible (.parameter it) (mem_tags_iff.mpr member)
  · rintro ⟨named, enclosed⟩ tag member
    have given := mem_tags_iff.mp member
    cases tag with
    | implements word =>
        rintro rfl
        exact named given
    | parameter it => exact enclosed it given
    | _ => trivial

private theorem fixed_of_expressible {comment : Text}
    (expressible : ∀ tag ∈ (extract comment).block.tags, tag.Expressible)
    (notClosing : ∀ line ∈ (extract comment).block.contentLines,
      Text.endsWith ['*', '/'] line = false) :
    (extract ((extract comment).block.render .block)).block =
      (extract comment).block := by
  obtain ⟨gap, empty, whole⟩ := (extract comment).block.contentLines_eq_written
  have canonical : (extract comment).block.Canonical .block := by
    apply canonical_extract expressible
    · intro line described
      rw [← descriptionLines_extract] at described
      exact notClosing line (by simp [whole, described])
    · intro tag inTags
      have filled := (legible_of_mem_tags inTags).text_ne_nil
        (expressible tag inTags).ne_implements
      rw [← Tag.written_eq_line filled]
      exact notClosing tag.written (by simp [whole, List.mem_map_of_mem inTags])
  obtain ⟨plain, tagged, tail, lines, said⟩ := exists_expresses_render canonical
  rw [extract_of_expresses canonical lines said]

/-- In a comment between marks no line ends with a closing mark. -/
theorem unclosed_contentLines_extract {source : Text} {token : Token}
    (scanned : token ∈ Token.scan source) {style : CommentStyle}
    {comment : Text} (isComment : token.kind = .comment style comment)
    (marked : style ≠ .docLine) :
    ∀ line ∈ (extract comment).block.contentLines, Text.Unclosed line := by
  obtain ⟨inner, rfl, unclosed⟩ :=
    Token.closesOnce_of_mem_scan scanned style comment isComment marked
  have lines := unclosed_of_mem_all unclosed
  apply Block.unclosed_contentLines
  · intro line described
    rw [descriptionLines_extract] at described
    obtain ⟨other, inComment, rfl, -⟩ := exists_line_of_mem_describing described
    exact lines other inComment
  · exact fun tag inTags => forall_texts_of_mem_tags inherited_unclosed
      lines inTags

/-- A block that was read is read again from what is written for it, but for
three things: an interface without a name, a default value with a bracket in it,
and a line that ends with the closing mark of a comment.  The last of them can
be read from doc lines only. -/
theorem extract_render_extract {source : Text} {token : Token}
    (scanned : token ∈ Token.scan source) {style : CommentStyle}
    {comment : Text} (isComment : token.kind = .comment style comment) :
    ((extract ((extract comment).block.render .block)).block =
      (extract comment).block ↔
      (extract comment).block.implements ≠ some [] ∧
      (∀ it ∈ (extract comment).block.parameters,
        ∀ value ∈ it.default, ']' ∉ value) ∧
      ∀ line ∈ (extract comment).block.contentLines,
        Text.endsWith ['*', '/'] line = false) ∧
    (style ≠ .docLine → ∀ line ∈ (extract comment).block.contentLines,
      Text.endsWith ['*', '/'] line = false) := by
  refine ⟨⟨?_, ?_⟩, ?_⟩
  · intro fixed
    obtain ⟨named, enclosed⟩ :=
      Block.expressible_iff.mp (expressible_of_fixed fixed)
    exact ⟨named, enclosed, notClosing_of_fixed fixed⟩
  · rintro ⟨named, enclosed, notClosing⟩
    exact fixed_of_expressible (Block.expressible_iff.mpr ⟨named, enclosed⟩)
      notClosing
  · intro marked line member
    exact (unclosed_contentLines_extract scanned isComment marked line
      member).endsWith_eq_false

/-- A comment that says nothing in the form that writing gives it. -/
def freelyWritten : Text :=
  "/** Card *\n@param $gap = [1 - Wide\nor not\n * @implements ..box */".toList

theorem extract_render_extract_freelyWritten :
    Token.commentAtFront .doc freelyWritten [] ∈ Token.scan freelyWritten ∧
      (extract ((extract freelyWritten).block.render .block)).block =
        (extract freelyWritten).block := by
  have scanned : Token.commentAtFront .doc freelyWritten [] ∈
      Token.scan freelyWritten := by
    decide +kernel
  obtain ⟨fixed, unclosed⟩ := extract_render_extract scanned rfl
  exact ⟨scanned,
    fixed.mpr ⟨by decide +kernel, by decide +kernel, unclosed (by decide)⟩⟩

/-- A comment that a source can hold, with a block that is not read from what is
written for it. -/
def Lossy (comment : Text) : Prop :=
  Token.commentAtFront .docLine comment [] ∈ Token.scan comment ∧
    (extract ((extract comment).block.render .block)).block ≠
      (extract comment).block

instance (comment : Text) : Decidable (Lossy comment) :=
  inferInstanceAs (Decidable (_ ∧ _))

theorem extract_render_extract_lossy :
    Lossy "/// @implements .".toList ∧ Lossy "/// @param $grid = [a]".toList ∧
      Lossy "/// Closes. */ */".toList := by
  decide +kernel

end Doc

end StyleAudit
