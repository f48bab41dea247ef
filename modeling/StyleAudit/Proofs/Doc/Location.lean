import StyleAudit.Proofs.Doc.Extracted
import StyleAudit.Proofs.Stylesheet.Placement

/-!
# Issues point at their text

An issue is about the content of one line of a comment.  It says where this
content stands, both in the comment and, once the place of the comment is known,
in the source around it.  The two agree, since a comment is a token that carries
the text which it covers.
-/

namespace StyleAudit

namespace Doc

/-- An issue is about the content of the line that it tells. -/
theorem exists_raw_of_mem_issues {comment : Text} {issue : Issue}
    (member : issue ∈ (extract comment).issues) :
    ∃ raw, (Text.splitOn '\n' comment)[issue.line.line]? = some raw ∧
      issue.line.text = (content raw).rest := by
  have numbered := Line.getElem?_all (line_of_mem_issues member).1
  have contents := map_text_ofRaws 0 0 (Text.splitOn '\n' comment)
  have found : ((Line.all comment).map (·.text))[issue.line.line]? =
      some issue.line.text := by
    rw [List.getElem?_map, numbered, Option.map_some]
  rw [Line.all, contents, List.getElem?_map] at found
  obtain ⟨raw, isRaw, same⟩ := Option.map_eq_some_iff.mp found
  exact ⟨raw, isRaw, same.symm⟩

section Placed

variable {comment front : Text} {issue : Issue}

private theorem slice_of_placed (placed : issue.line.Placed comment front) :
    Text.slice issue.line.offset (issue.line.offset + issue.byteSize) comment =
      issue.line.text := by
  obtain ⟨back, rfl⟩ := placed.begins
  rw [placed.bytes, Issue.byteSize, ← Text.byteSize_append, Text.slice_append]

/-- An issue of a comment is located at its text, wherever the comment
stands. -/
theorem located_of_placed (placed : issue.line.Placed comment front)
    {source : Text} {span : Span} (shows : Span.Shows source comment span) :
    (issue.locate span).start.offset = span.start.offset + issue.line.offset ∧
      (issue.locate span).text source = issue.line.text ∧
      (issue.locate span).start.IsIn source := by
  obtain ⟨before, begins, rfl⟩ := shows
  have inSource : before ++ front ++ issue.line.text <+: source := by
    rw [List.append_assoc]
    exact ((List.prefix_append_right_inj before).mpr placed.begins).trans begins
  have start : (Position.first.advance (before ++ front)).IsIn source :=
    Position.isIn_advance ((List.prefix_append _ _).trans inSource)
  rw [issue.locate_eq placed]
  refine ⟨?_, ?_, start⟩
  · change (Position.first.advance (before ++ front)).offset = _
    rw [Position.byteSize_advance_first, Position.byteSize_advance_first,
      Text.byteSize_append, placed.bytes]
  · obtain ⟨back, rfl⟩ := inSource
    rw [Span.text, Span.ofOffsets, Position.byteSize_advance_first,
      Text.slice_append]

end Placed

/-- The text of an issue is the content of the line that it tells, and not
empty.  It stands in the comment at the offset of the issue, which has the line
and the column that counting gives.  And in any source with the comment as a
token, the issue is located at this text, at the position that counting gives
there. -/
theorem issues_point_at_text {comment : Text} {issue : Issue}
    (member : issue ∈ (extract comment).issues) :
    (∃ raw, (Text.splitOn '\n' comment)[issue.line.line]? = some raw ∧
      issue.line.text = (content raw).rest) ∧
    Text.Trimmed issue.line.text ∧ issue.line.text ≠ [] ∧
    Text.slice issue.line.offset (issue.line.offset + issue.byteSize) comment =
      issue.line.text ∧
    (∃ front back, comment = front ++ back ∧ issue.line.offset =
      Text.byteSize front ∧
      issue.line.line = front.count '\n' ∧
      issue.line.column = 1 + (Text.lastLine front).length) ∧
    ∀ (source : Text) (token : Token) (style : CommentStyle),
      token ∈ Token.scan source →
      token.kind = .comment style comment →
      (issue.locate token.span).start.offset = token.span.start.offset +
        issue.line.offset ∧
      (issue.locate token.span).text source = issue.line.text ∧
      (issue.locate token.span).start.IsIn source := by
  obtain ⟨inLines, filled⟩ := line_of_mem_issues member
  obtain ⟨front, placed⟩ := Line.placed_of_mem_all inLines filled
  refine ⟨exists_raw_of_mem_issues member, trimmed_of_mem_all inLines, filled,
    slice_of_placed placed, ?_, ?_⟩
  · obtain ⟨back, whole⟩ := (List.prefix_append front _).trans placed.begins
    exact ⟨front, back, whole.symm, placed.bytes, placed.lines, placed.columns⟩
  · intro source token style scanned isComment
    have shows := (Token.inOrder_scan source).shown token scanned
    rw [Token.text_of_comment_mem_scan scanned isComment] at shows
    exact located_of_placed placed shows

theorem issues_point_at_text_two_lines :
    let comment := "/** @type é\n\u00a0* @name ü w */".toList
    let source := "é\x7b\x7d ".toList ++ comment
    let span : Span := ⟨⟨5, 1, 5⟩, ⟨35, 2, 16⟩⟩
    (⟨.comment .doc comment, span, comment, []⟩ : Token) ∈ Token.scan source ∧
      (extract comment).issues.map (fun issue => (issue.locate span).start) =
        [⟨9, 1, 9⟩, ⟨22, 2, 4⟩] ∧
      ∀ issue ∈ (extract comment).issues,
        (issue.locate span).text source = issue.line.text ∧
          (issue.locate span).start.IsIn source := by
  intro comment source span
  have scanned : (⟨.comment .doc comment, span, comment, []⟩ : Token) ∈
      Token.scan source := by
    decide +kernel
  refine ⟨scanned, by decide +kernel, ?_⟩
  intro issue member
  obtain ⟨-, -, -, -, -, located⟩ := issues_point_at_text member
  exact (located source _ .doc scanned rfl).2

end Doc

end StyleAudit
