import StyleAudit.Proofs.Doc.Extracted
import StyleAudit.Proofs.Doc.Entries

/-!
# Comments on one line

The opening mark is cut off a line at its front and the closing mark at its end,
one after the other.  On one line the two could meet.  They do so in the comment
without a body only: its star is taken for part of the opening mark, and the
slash that is left closes nothing.
-/

namespace StyleAudit

namespace Doc

/-- A comment with the given body. -/
def between (body : Text) : Text :=
  '/' :: '*' :: body ++ ['*', '/']

/-- The text without a star at its front. -/
def withoutStar (text : Text) : Text :=
  (Text.dropFront? ['*'] text).getD text

/-- What the body of a comment on one line says: one star belongs to the opening
mark, and one may stand in front of the line. -/
def bareBody (body : Text) : Text :=
  Text.trim (withoutStar (Text.trim (withoutStar body)))

private theorem withoutStar_star (text : Text) :
    withoutStar ('*' :: text) = text := rfl

theorem withoutStar_of_unstarred {text : Text}
    (unstarred : Text.beginsWith ['*'] text = false) :
    withoutStar text = text := by
  rw [Text.beginsWith, Option.isSome_eq_false_iff, Option.isNone_iff_eq_none]
    at unstarred
  rw [withoutStar, unstarred, Option.getD_none]

/-- Cutting off what is in front of a star, and the star, is cutting off the
star of the trimmed text. -/
theorem trim_drop_starLength (text : Text) :
    Text.trim (text.drop (starLength text)) =
      Text.trim (withoutStar (Text.trim text)) := by
  cases starred : Text.beginsWith ['*'] (Text.trimStart text) with
  | true =>
      obtain ⟨rest, whole⟩ := Text.beginsWith_iff.mp starred
      have dropped : text.drop (starLength text) = rest := by
        have behind : text.dropWhile Text.isBlank = '*' :: rest := whole.symm
        have split :=
          List.takeWhile_append_dropWhile (p := Text.isBlank) (l := text)
        have unblanked :=
          congrArg (List.drop (text.takeWhile Text.isBlank).length) split
        rw [List.drop_left, behind] at unblanked
        rw [starLength, if_pos starred, ← List.drop_drop, ← unblanked,
          List.drop_one, List.tail_cons]
      have trimmed : Text.trim text = '*' :: Text.trimEnd rest := by
        rw [Text.trim, ← whole]
        exact Text.trimEnd_cons_of_filled (by decide) rest
      rw [dropped, trimmed, withoutStar_star, Text.trim_trimEnd]
  | false =>
      have unstarred : Text.beginsWith ['*'] (Text.trim text) = false := by
        rw [Bool.eq_false_iff] at starred ⊢
        intro begins
        exact starred (Text.beginsWith_iff.mpr
          ((Text.beginsWith_iff.mp begins).trans (Text.trimEnd_isPrefix _)))
      rw [starLength, if_neg (by simp [starred]), List.drop_zero,
        withoutStar_of_unstarred unstarred, Text.trimmed_trim text]

private theorem opened_between {body : Text} (filled : body ≠ []) :
    (between body).drop (openingLength (between body)) =
      withoutStar body ++ ['*', '/'] := by
  obtain ⟨c, rest, rfl⟩ := List.exists_cons_of_ne_nil filled
  by_cases star : c = '*'
  · subst star
    rfl
  · have unstarred : Text.beginsWith ['*'] (c :: rest) = false := by
      simp [Text.beginsWith, Text.dropFront?, Ne.symm star]
    have opening : openingLength (between (c :: rest)) = 2 := by
      simp [openingLength, between, Text.beginsWith, Text.dropFront?,
        Ne.symm star]
    rw [opening, withoutStar_of_unstarred unstarred]
    rfl

theorem content_between {body : Text} (filled : body ≠ []) :
    (content (between body)).rest = bareBody body := by
  have indented : Text.trimStart (between body) = between body :=
    Text.trimStart_cons_of_filled (by decide) _
  rw [content_rest, indented]
  simp only [opened_between filled, dropClosing_closed]
  exact trim_drop_starLength (withoutStar body)

private theorem bareBody_of_blank {body : Text}
    (blank : ∀ c ∈ body, Text.isBlank c = true) :
    bareBody body = [] := by
  have unstarred : withoutStar body = body := by
    refine withoutStar_of_unstarred (Bool.eq_false_iff.mpr fun begins => ?_)
    have member : '*' ∈ body :=
      (Text.beginsWith_iff.mp begins).subset List.mem_cons_self
    exact absurd (blank '*' member) (by decide)
  have trimmed : Text.trim body = [] := Text.trim_append_of_blank blank []
  rw [bareBody, unstarred, trimmed]
  rfl

theorem all_between {body : Text} (oneLine : '\n' ∉ body) :
    Line.all (between body) = [Line.ofRaw 0 0 (between body)] := by
  have clean : '\n' ∉ between body := by simp [between, oneLine]
  rw [Line.all, Text.splitOn_of_not_mem clean]
  rfl

/-- No mark of a comment on one line is left in its content just if the comment
has a body.  In particular a blank body says nothing, unless it is empty. -/
theorem one_line_content_iff (body : Text) (oneLine : '\n' ∉ body) :
    ((Line.all (between body)).map (·.text) = [bareBody body] ↔ body ≠ []) ∧
      ((∀ c ∈ body, Text.isBlank c = true) →
        (extract (between body) = {} ↔ body ≠ [])) := by
  have texts : (Line.all (between body)).map (·.text) =
      [(content (between body)).rest] := by
    rw [all_between oneLine, List.map_singleton, text_ofRaw]
  refine ⟨⟨?_, ?_⟩, fun blank => ⟨?_, ?_⟩⟩
  · rintro bare rfl
    rw [texts] at bare
    revert bare
    decide
  · intro filled
    rw [texts, content_between filled]
  · rintro nothing rfl
    revert nothing
    decide
  · intro filled
    have empty : (content (between body)).rest = [] := by
      rw [content_between filled, bareBody_of_blank blank]
    rw [extract_eq, all_between oneLine, ofRaw_eq_of_rest_eq_nil 0 0 empty]
    rfl

/-- A line with both stars and blanks in between, and a body of one blank. -/
theorem one_line_content_starred :
    (Line.all (between "* * Grid. *".toList)).map (·.text) =
      ["Grid. *".toList] ∧
      extract (between ['\t']) = {} := by
  refine ⟨?_, ?_⟩
  · exact (one_line_content_iff "* * Grid. *".toList (by decide)).1.mpr
      (by decide)
  · have blank : ∀ c ∈ ['\t'], Text.isBlank c = true :=
      List.forall_mem_singleton.mpr (by decide)
    exact ((one_line_content_iff ['\t'] (by decide)).2 blank).mpr (by decide)

/-- The comment without a body is one token, and a slash of its marks is left as
its content. -/
theorem slash_of_empty_body :
    (Token.scan (between [])).map (·.kind) =
      [.comment .block "/**/".toList, .endOfInput] ∧
      (Line.all (between [])).map (·.text) = [['/']] ∧ bareBody [] = [] ∧
      (extract (between [])).block.description = ['/'] := by
  decide +kernel

end Doc

end StyleAudit
