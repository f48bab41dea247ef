import StyleAudit.Doc.Extract
import StyleAudit.Proofs.Position
import StyleAudit.Proofs.Text.Ends
import StyleAudit.Proofs.Text.Pieces
import StyleAudit.Proofs.Text.Trim

/-!
# What is wrong with a comment is where it is said to be

A content line remembers how many bytes, lines and columns of the comment stand
in front of it.  An issue is about a content line that holds some text, so its
place in the source can be told from the place of the comment.
-/

namespace StyleAudit

namespace Doc

/-! ## Content lines -/

namespace Cut

/-- The text from which the front was cut off. -/
def text (cut : Cut) : Text :=
  cut.front ++ cut.rest

theorem text_drop (cut : Cut) (count : Nat) :
    (cut.drop count).text = cut.text := by
  rw [text, drop, List.append_assoc, List.take_append_drop, text]

theorem text_dropBlanks (cut : Cut) : cut.dropBlanks.text = cut.text := by
  rw [text, dropBlanks, List.append_assoc, List.takeWhile_append_dropWhile,
    text]

theorem text_isPrefix (cut : Cut) {shorter : Text}
    (begins : shorter <+: cut.rest) :
    Cut.text ⟨cut.front, shorter⟩ <+: cut.text :=
  (List.prefix_append_right_inj cut.front).mpr begins

end Cut

theorem dropClosing_isPrefix (text : Text) : dropClosing text <+: text := by
  rw [dropClosing]
  cases closed : Text.dropBack? ['*', '/'] (Text.trimEnd text) with
  | none => exact Text.trimEnd_isPrefix text
  | some rest =>
      have whole := Text.dropBack?_eq_some_iff.mp closed
      exact (whole ▸ List.prefix_append rest _ : rest <+:
        Text.trimEnd text).trans (Text.trimEnd_isPrefix text)

/-- The content of a line stands behind what was cut off. -/
theorem content_isPrefix (raw : Text) : (content raw).text <+: raw := by
  rw [content]
  refine (Cut.text_isPrefix _ (Text.trimEnd_isPrefix _)).trans ?_
  rw [Cut.text_dropBlanks, Cut.text_drop]
  refine (Cut.text_isPrefix _ (dropClosing_isPrefix _)).trans ?_
  rw [Cut.text_drop, Cut.text_dropBlanks]
  exact List.prefix_refl raw

namespace Line

/-- The content of the line stands in the comment where the line says. -/
structure Placed (comment : Text) (line : Line) (front : Text) : Prop where
  begins : front ++ line.text <+: comment
  bytes : line.offset = Text.byteSize front
  lines : line.line = front.count '\n'
  columns : line.column = 1 + (Text.lastLine front).length

private theorem placed_ofRaw {comment before raw : Text}
    (begins : before ++ raw <+: comment) (lineStart : Text.lastLine before = [])
    (oneLine : '\n' ∉ raw)
    (filled : (ofRaw (before.count '\n') (Text.byteSize before) raw).text ≠
      []) :
    ∃ front,
      Placed comment (ofRaw (before.count '\n') (Text.byteSize before) raw)
        front := by
  have inRaw := content_isPrefix raw
  rw [ofRaw] at filled ⊢
  generalize content raw = cut at inRaw filled ⊢
  rw [Cut.text] at inRaw
  have cutOneLine : '\n' ∉ cut.front := fun member =>
    oneLine (inRaw.subset (List.mem_append_left _ member))
  cases empty : cut.rest.isEmpty with
  | true => simp [empty] at filled
  | false =>
      simp only [Bool.false_eq_true, if_false]
      refine ⟨before ++ cut.front, ?_⟩
      constructor
      · rw [List.append_assoc]
        exact ((List.prefix_append_right_inj before).mpr inRaw).trans begins
      · rw [Text.byteSize_append]
      · rw [List.count_append, List.count_eq_zero.mpr cutOneLine]
        exact Nat.add_zero _
      · rw [Text.lastLine_append_of_not_mem _ cutOneLine, lineStart]
        exact Nat.add_comm _ 1

private theorem placed_ofRaws {comment before : Text} {raws : List Text}
    (whole : before ++ Text.join ['\n'] raws = comment)
    (lineStart : Text.lastLine before = []) (oneLine : ∀ raw ∈ raws, '\n' ∉ raw)
    {line : Line}
    (member : line ∈ ofRaws (before.count '\n') (Text.byteSize before) raws)
    (filled : line.text ≠ []) : ∃ front, Placed comment line front := by
  induction raws generalizing before with
  | nil => exact (List.not_mem_nil member).elim
  | cons raw rest ih =>
      rw [Text.join_cons_eq_flatMap, ← List.append_assoc] at whole
      rw [ofRaws] at member
      rcases List.mem_cons.mp member with same | later
      · rw [same] at filled ⊢
        exact placed_ofRaw ⟨_, whole⟩ lineStart (oneLine raw List.mem_cons_self)
          filled
      · cases rest with
        | nil => exact (List.not_mem_nil later).elim
        | cons next others =>
            have counted : (before ++ raw ++ ['\n']).count '\n' =
                before.count '\n' + 1 := by
              rw [List.count_append, List.count_append,
                List.count_eq_zero.mpr (oneLine raw List.mem_cons_self)]
              rfl
            have sized : Text.byteSize (before ++ raw ++ ['\n']) =
                Text.byteSize before + Text.byteSize raw + 1 := by
              rw [Text.byteSize_append, Text.byteSize_append]
              rfl
            rw [← counted, ← sized] at later
            refine ih ?_ (Text.lastLine_append_cons _ List.not_mem_nil)
              (fun other inRest =>
                oneLine other (List.mem_cons_of_mem raw inRest)) later
            rw [← whole, Text.join_cons_eq_flatMap, List.flatMap_cons]
            simp only [List.append_assoc]

/-- A content line that holds some text stands in the comment where it says. -/
theorem placed_of_mem_all {comment : Text} {line : Line}
    (member : line ∈ all comment) (filled : line.text ≠ []) :
    ∃ front, Placed comment line front := by
  refine placed_ofRaws ?_ (Text.lastLine_of_not_mem List.not_mem_nil)
    (fun raw inRaws => Text.not_mem_of_mem_splitOn inRaws) member filled
  exact Text.join_splitOn comment

end Line

/-! ## Issues -/

theorem mem_of_mem_entries {lines : List Line} :
    (∀ line ∈ (entries lines).1, line ∈ lines) ∧
      ∀ entry ∈ (entries lines).2, entry.tag ∈ lines ∧ entry.tag.isTag = true ∧
        ∀ line ∈ entry.body, line ∈ lines := by
  induction lines with
  | nil => exact ⟨nofun, nofun⟩
  | cons line rest ih =>
      obtain ⟨body, others⟩ := ih
      have later : ∀ entry ∈ (entries rest).2, entry.tag ∈ line :: rest ∧
          entry.tag.isTag = true ∧ ∀ other ∈ entry.body,
            other ∈ line :: rest := by
        intro entry member
        obtain ⟨tag, isTag, inside⟩ := others entry member
        exact ⟨List.mem_cons_of_mem line tag, isTag,
          fun other inBody => List.mem_cons_of_mem line (inside other inBody)⟩
      rw [entries]
      cases isTag : line.isTag with
      | true =>
          refine ⟨nofun, ?_⟩
          intro entry member
          rcases List.mem_cons.mp member with rfl | inRest
          · exact ⟨List.mem_cons_self, isTag,
              fun other inBody => List.mem_cons_of_mem line (body other inBody)⟩
          · exact later entry inRest
      | false =>
          refine ⟨?_, later⟩
          intro other member
          rcases List.mem_cons.mp member with rfl | inBody
          · exact List.mem_cons_self
          · exact List.mem_cons_of_mem line (body other inBody)

namespace Extraction

/-- The lines of an entry that may have something wrong with them. -/
def Concerns (entry : Entry) (line : Line) : Prop :=
  line = entry.tag ∨ line ∈ entry.continuation

private theorem concerns_of_mem_add {extraction : Extraction} {entry : Entry}
    {issue : Issue} (member : issue ∈ (extraction.add entry).issues) :
    issue ∈ extraction.issues ∨ Concerns entry issue.line := by
  rw [add] at member
  split at member
  · rcases List.mem_append.mp member with old | new
    · exact .inl old
    · rw [List.mem_singleton.mp new]
      exact .inr (.inl rfl)
  · rcases List.mem_append.mp member with old | new
    · exact .inl old
    · right
      rcases List.mem_append.mp new with repeated | stray
      · obtain ⟨name, -, rfl⟩ := List.mem_map.mp repeated
        exact .inl rfl
      · split at stray
        · obtain ⟨line, inside, rfl⟩ := List.mem_map.mp stray
          exact .inr inside
        · exact (List.not_mem_nil stray).elim

private theorem concerns_of_mem_foldl {extraction : Extraction}
    {list : List Entry} {issue : Issue}
    (member : issue ∈ (list.foldl add extraction).issues) :
    issue ∈ extraction.issues ∨ ∃ entry ∈ list, Concerns entry issue.line := by
  induction list generalizing extraction with
  | nil => exact .inl member
  | cons entry rest ih =>
      rcases ih member with added | ⟨other, inRest, concerns⟩
      · rcases concerns_of_mem_add added with old | here
        · exact .inl old
        · exact .inr ⟨entry, List.mem_cons_self, here⟩
      · exact .inr ⟨other, List.mem_cons_of_mem entry inRest, concerns⟩

end Extraction

/-- An issue is about a content line that holds some text. -/
theorem line_of_mem_issues {comment : Text} {issue : Issue}
    (member : issue ∈ (extract comment).issues) :
    issue.line ∈ Line.all comment ∧ issue.line.text ≠ [] := by
  rw [extract] at member
  rcases Extraction.concerns_of_mem_foldl member with
    none | ⟨entry, inEntries, concerns⟩
  · exact (List.not_mem_nil none).elim
  · obtain ⟨tag, isTag, body⟩ := mem_of_mem_entries.2 entry inEntries
    rcases concerns with same | continued
    · rw [same]
      refine ⟨tag, ?_⟩
      intro empty
      rw [Line.isTag, empty] at isTag
      cases isTag
    · obtain ⟨inBody, filled⟩ := List.mem_filter.mp continued
      refine ⟨body _ inBody, ?_⟩
      intro empty
      rw [empty] at filled
      cases filled

/-- Where a line of a comment stands, given where the comment begins. -/
theorem Issue.advance_eq (issue : Issue) {comment front : Text}
    (placed : issue.line.Placed comment front) (start : Position) :
    start.advance front =
      if issue.line.line = 0 then
        ⟨start.offset + issue.line.offset, start.line,
          start.column + issue.line.column - 1⟩
      else
        ⟨start.offset + issue.line.offset, start.line + issue.line.line,
          issue.line.column⟩ := by
  have whole : start.advance front =
      ⟨(start.advance front).offset, (start.advance front).line,
        (start.advance front).column⟩ := rfl
  rw [whole, start.offset_advance, start.line_advance, start.column_advance,
    placed.bytes, placed.lines, placed.columns]
  by_cases oneLine : '\n' ∈ front
  · have several : front.count '\n' ≠ 0 := by
      rw [Ne, List.count_eq_zero]
      exact fun absent => absent oneLine
    rw [if_pos oneLine, if_neg several]
  · have one : front.count '\n' = 0 := List.count_eq_zero.mpr oneLine
    have column : start.column + front.length =
        start.column + (1 + (Text.lastLine front).length) - 1 := by
      rw [Text.lastLine_of_not_mem oneLine]
      omega
    rw [if_neg oneLine, if_pos one, one, Nat.add_zero, column]

/-- An issue is located where its line stands behind what is in front of the
comment. -/
theorem Issue.locate_eq (issue : Issue) {comment front : Text}
    (placed : issue.line.Placed comment front) (before : Text)
    (stop : Position) :
    issue.locate ⟨Position.first.advance before, stop⟩ =
      Span.ofOffsets (Position.first.advance (before ++ front))
        (Text.byteSize (before ++ front ++ issue.line.text)) := by
  have start := issue.advance_eq placed (Position.first.advance before)
  have size : Text.byteSize (before ++ front ++ issue.line.text) =
      (Position.first.advance before).offset + issue.line.offset +
        issue.byteSize := by
    rw [Position.byteSize_advance_first, placed.bytes, Issue.byteSize,
      Text.byteSize_append, Text.byteSize_append]
  rw [locate, Position.advance_append _ before front, start, size]

/-- An issue of a comment is located where its line stands in the source. -/
theorem Issue.isReckoned_locate {source text : Text} {span : Span}
    (shows : Span.Shows source text span) {issue : Issue}
    (member : issue ∈ (extract text).issues) :
    Span.IsReckoned source (issue.locate span) := by
  obtain ⟨inLines, filled⟩ := line_of_mem_issues member
  obtain ⟨front, placed⟩ := Line.placed_of_mem_all inLines filled
  obtain ⟨before, begins, shown⟩ := shows
  refine ⟨before ++ front, issue.line.text, ?_, ?_⟩
  · rw [List.append_assoc]
    exact ((List.prefix_append_right_inj before).mpr placed.begins).trans begins
  · rw [shown, issue.locate_eq placed]

end Doc

end StyleAudit
