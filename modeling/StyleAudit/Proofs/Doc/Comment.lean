import StyleAudit.Proofs.Doc.RoundTrip
import StyleAudit.Proofs.Token.Comment

/-!
# A written block is one comment

Whoever reads a stylesheet does not know which of its comments were written for
a block.  So that a comment is found again, nothing in the block may close it
early.  Doc lines cannot be closed, but between marks the texts of the block
must not hold the closing mark.
-/

namespace StyleAudit

namespace Doc

open Text (Unclosed unclosed_cons unclosed_append_cons)

/-! ## The texts of a block -/

/-- Everything in a block that is a text. -/
def Block.texts (block : Block) : List Text :=
  block.description :: block.tags.flatMap Tag.texts

theorem unclosed_append_descriptionText {front description : Text}
    (unclosed : Unclosed front) (described : Unclosed description) :
    Unclosed (front ++ descriptionText description) := by
  by_cases empty : description = []
  · simpa [descriptionText, empty] using unclosed
  · rw [Tag.descriptionText_of_filled empty,
      unclosed_append_cons (by decide) (by decide), unclosed_cons (by decide),
      unclosed_cons (by decide)]
    exact ⟨unclosed, described⟩

namespace Tag

theorem unclosed_memberText {parameter : Parameter}
    (unclosed : ∀ text ∈ parameter.texts, Unclosed text) :
    Unclosed (memberText parameter) := by
  obtain ⟨name, type, optional, default, description⟩ := parameter
  simp only [Parameter.texts, List.mem_append, List.mem_cons, Option.mem_toList,
    List.not_mem_nil, or_false, or_imp, forall_and, forall_eq] at unclosed
  obtain ⟨typed, named, defaulted, described⟩ := unclosed
  have nameText : Unclosed
      (Parameter.nameText ⟨name, type, optional, default, description⟩) := by
    cases default with
    | some value =>
        have valued := defaulted value rfl
        simp [Parameter.nameText, unclosed_cons, unclosed_append_cons,
          named, valued, Text.unclosed_nil]
    | none =>
        cases optional with
        | true =>
            simp [Parameter.nameText, unclosed_cons, unclosed_append_cons,
              named, Text.unclosed_nil]
        | false => exact named
  have rest := unclosed_append_descriptionText nameText described
  cases type with
  | none => exact rest
  | some type =>
      have inBraces := typed type rfl
      rw [memberText]
      simp only [typeText, List.cons_append, List.append_assoc]
      simp only [List.nil_append]
      rw [unclosed_cons (by decide),
        unclosed_append_cons (by decide) (by decide), unclosed_cons (by decide)]
      exact ⟨inBraces, rest⟩

private theorem unclosed_parts {tag : Tag}
    (unclosed : ∀ text ∈ tag.texts, Unclosed text) :
    Unclosed tag.parts.1 ∧ Unclosed tag.parts.2 := by
  have reservedTable : ∀ word ∈ reserved, '*' ∉ word := by decide
  have kindTable : ∀ it : DeclarationKind, '*' ∉ it.word := by
    intro it
    cases it <;> decide
  constructor
  · rcases parts_reserved tag with own | ⟨name, value, rfl⟩
    · exact Text.unclosed_of_not_mem (reservedTable _ own)
    · exact unclosed name List.mem_cons_self
  · cases tag with
    | kind it => exact Text.unclosed_of_not_mem (kindTable it)
    | name text => exact unclosed text List.mem_cons_self
    | implements text => exact unclosed text List.mem_cons_self
    | returns text => exact unclosed text List.mem_cons_self
    | parameter it => exact unclosed_memberText unclosed
    | property it => exact unclosed_memberText unclosed
    | modifier it =>
        exact unclosed_append_descriptionText
          (unclosed it.name List.mem_cons_self)
          (unclosed it.description (by simp [texts]))
    | extension tag value => exact unclosed value (by simp [texts])

private theorem unclosed_written {tag : Tag}
    (unclosed : ∀ text ∈ tag.texts, Unclosed text) :
    Unclosed tag.written := by
  obtain ⟨named, valued⟩ := unclosed_parts unclosed
  have signed : Unclosed ('@' :: tag.parts.1) :=
    (unclosed_cons (by decide)).mpr named
  have spaced : Unclosed ('@' :: tag.parts.1 ++ ' ' :: tag.parts.2) :=
    (unclosed_append_cons (by decide) (by decide)).mpr ⟨signed, valued⟩
  cases tag with
  | extension key value =>
      rw [written, tagLine]
      split
      · exact signed
      · exact spaced
  | _ => exact spaced

end Tag

theorem Block.unclosed_contentLines {block : Block}
    (described : ∀ line ∈ block.descriptionLines, Unclosed line)
    (tagged : ∀ tag ∈ block.tags, ∀ text ∈ tag.texts, Unclosed text) :
    ∀ line ∈ block.contentLines, Unclosed line := by
  intro line member
  rcases mem_contentLines member with inDescription | rfl | ⟨tag, inTags, rfl⟩
  · exact described line inDescription
  · exact Text.unclosed_nil
  · exact Tag.unclosed_written (tagged tag inTags)

theorem Block.Canonical.unclosed_contentLines {style : Style} {block : Block}
    (canonical : block.Canonical style)
    (unclosed : ∀ text ∈ block.texts, Unclosed text) :
    ∀ line ∈ block.contentLines, Unclosed line := by
  apply Block.unclosed_contentLines
  · have description := unclosed block.description List.mem_cons_self
    rwa [← canonical.describes.joined,
      Text.unclosed_join (by decide) (by decide)] at description
  · intro tag inTags text inTag
    exact unclosed text
      (List.mem_cons_of_mem _ (List.mem_flatMap.mpr ⟨tag, inTags, inTag⟩))

/-! ## The comment of a block -/

/-- The comments that are written in a style. -/
def Style.comment : Style → CommentStyle
  | .block => .doc
  | .lines => .docLine

/-- What stands between the marks of a comment that says the given lines. -/
def innerLines (lines : List Text) : List Text :=
  ['*'] :: (lines.map (Block.marked (lineMark .block)) ++ [[' ']])

theorem unclosed_innerLines {lines : List Text}
    (unclosed : ∀ line ∈ lines, Unclosed line) :
    Unclosed (Text.join ['\n'] (innerLines lines)) := by
  rw [Text.unclosed_join (by decide) (by decide)]
  intro piece member
  simp only [innerLines, List.mem_cons, List.mem_append, List.mem_map,
    List.not_mem_nil, or_false] at member
  rcases member with rfl | ⟨line, inLines, rfl⟩ | rfl
  · decide
  · rw [Block.marked]
    split
    · decide
    · rw [unclosed_append_cons (by decide) (by decide)]
      exact ⟨by decide, unclosed line inLines⟩
  · decide

private theorem render_eq_innerLines (block : Block) :
    block.render .block =
      '/' :: '*' :: Text.join ['\n'] (innerLines block.contentLines) ++
        ['*', '/'] := by
  rw [render_eq_join, dressed, innerLines, Text.join_cons_eq_flatMap,
    Text.join_cons_eq_flatMap]
  simp

private theorem isDocLine_of_mem_dressed {lines : List Text}
    (oneLine : ∀ line ∈ lines, '\n' ∉ line) :
    ∀ raw ∈ dressed .lines lines, Token.IsDocLine raw := by
  intro raw member
  refine ⟨?_, oneLine_dressed .lines oneLine raw member⟩
  rw [dressed] at member
  split at member
  · rw [List.mem_singleton.mp member]
    rfl
  · obtain ⟨line, -, rfl⟩ := List.mem_map.mp member
    rw [Block.marked]
    split <;> rfl

/-- In front of a line that is no doc line, what is written for a block is one
comment. -/
theorem readsComment_render {style : Style} {block : Block}
    (canonical : block.Canonical style)
    (unclosed : style = .block → ∀ text ∈ block.texts, Unclosed text)
    {more : Text} (ended : Token.AtLineEnd more)
    (stops : Token.docLinesLength more = 0) :
    Token.ReadsComment style.comment (block.render style) more := by
  cases style with
  | block =>
      have lines :=
        unclosed_innerLines (canonical.unclosed_contentLines (unclosed rfl))
      rw [render_eq_innerLines]
      rw [innerLines, Text.join_cons_eq_flatMap] at lines ⊢
      exact Token.readsComment_doc lines more
  | lines =>
      have docLines := isDocLine_of_mem_dressed fun line member =>
        (writable_contentLines canonical line member).clean.oneLine
      obtain ⟨first, others, split⟩ :=
        List.exists_cons_of_ne_nil (dressed_ne_nil .lines block.contentLines)
      rw [split] at docLines
      rw [render_eq_join, split, Text.join_cons_eq_flatMap]
      exact Token.readsComment_docLine (docLines first List.mem_cons_self)
        (fun line member => docLines line (List.mem_cons_of_mem first member))
        ended stops

end Doc

end StyleAudit
