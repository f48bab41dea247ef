import StyleAudit.Proofs.Token.Comment
import StyleAudit.Proofs.Token.Legible

/-!
# A space in place of a comment

When a space takes the place of a comment, the gaps around the comment join and
all other tokens stay what they are.  There is one exception: when the comment
stood alone between two runs of doc lines, the runs become one.
-/

namespace StyleAudit

namespace Token

/-- Two comments, with nothing but the gap of the first between them, as one
comment. -/
structure Merges (first next merged : Token) : Prop where
  isFirst : first.kind.isComment = true
  isNext : next.kind.isComment = true
  isMerged : merged.kind.isComment = true
  text : merged.text = first.text ++ (first.gap ++ next.text)
  gap : merged.gap = next.gap

theorem Merges.spelled_cons {first next merged : Token}
    (merges : Merges first next merged) (rest : List Token) :
    spelled (merged :: rest) = spelled (first :: next :: rest) := by
  rw [Token.spelled_cons, Token.spelled_cons, Token.spelled_cons,
    merges.text, merges.gap]
  simp only [List.append_assoc]

theorem Legible.starts {tokens : List Token} (legible : Legible tokens) :
    gapLength false (spelled tokens) = 0 := by
  cases legible with
  | nil => rfl
  | cons stands _ =>
      rw [Token.spelled_cons]
      exact stands.starts

theorem Stands.inLine {token : Token} {behind : Text}
    (stands : Stands token behind) :
    ¬ AtLineEnd (token.text ++ (token.gap ++ behind)) := by
  obtain ⟨c, tail, text, starts, -⟩ := stands.reads
  rw [text]
  exact not_atLineEnd_of_starts starts

/-- The gap at the front of a source stays when other tokens follow it. -/
theorem Legible.scan_behind_gap {source : Text} {old new : List Token}
    (legible : Legible old) (filled : old ≠ [])
    (spells : spelled old = afterGap source) (legibleToo : Legible new) :
    (scan (leadingGap source ++ spelled new)).map
      (Token.moved fun _ => .first) =
      new.map (Token.moved fun _ => .first) ++ [endAt .first] := by
  have inLine : ¬ AtLineEnd (afterGap source) := by
    rw [← spells]
    cases legible with
    | nil => exact (filled rfl).elim
    | cons stands _ =>
        rw [spelled_cons]
        exact stands.inLine
  have joins := (isGap_leadingGap source).in_front_of inLine (spelled new)
  have isGap := joins.gapLength_append
  rw [legibleToo.starts, Nat.add_zero] at isGap
  obtain ⟨gap, behind⟩ := gaps_of_gapLength isGap
  rw [scan, gap, behind]
  exact legibleToo.scanFrom _

theorem Stands.reads_docLines {token : Token} {behind : Text}
    (stands : Stands token behind)
    (isLine : isDocLine (token.text ++ (token.gap ++ behind)) = true) :
    ∃ tail, token.text = '/' :: tail ∧
    token.kind = .comment .docLine token.text ∧
      docLinesLength (tail ++ (token.gap ++ behind)) = tail.length := by
  obtain ⟨c, tail, text, -, reads⟩ := stands.reads
  rw [text, List.cons_append] at isLine
  obtain ⟨rfl, run⟩ := Lexeme.read_of_isDocLine isLine
  rw [run] at reads
  have reach : docLinesLength (tail ++ (token.gap ++ behind)) = tail.length :=
    congrArg Lexeme.tail reads
  refine ⟨tail, text, ?_, reach⟩
  have kind := congrArg Lexeme.kind reads
  rw [Lexeme.docLines, reach, List.take_left] at kind
  rw [text]
  exact kind.symm

theorem isDocLine_spelled {tokens : List Token}
    (isLine : isDocLine (spelled tokens) = true) :
    ∃ first rest, tokens = first :: rest := by
  cases tokens with
  | nil => cases isLine
  | cons first rest => exact ⟨first, rest, rfl⟩

private theorem oneLine_of_indent {gap : Text}
    (indent : gap.all isIndent = true) : '\n' ∉ gap := by
  intro member
  exact absurd (List.all_eq_true.mp indent '\n' member) (by decide)

/-- A run of doc lines goes on with the doc line behind a newline and
indentation. -/
theorem docLinesLength_newline_indent {tail old gap next : Text}
    (reach : docLinesLength (tail ++ old) = tail.length)
    (indent : gap.all isIndent = true)
    (goesOn : isDocLine (afterIndent (gap ++ next)) = true) :
    docLinesLength (tail ++ ('\n' :: gap ++ next)) =
      (tail ++ '\n' :: gap).length + docLinesLength next := by
  have ended : AtLineEnd ('\n' :: gap ++ next) := .inr ⟨gap ++ next, rfl⟩
  rw [docLinesLength_change reach ended, List.cons_append,
    docLinesLength_newline, if_pos goesOn, docLinesLength_append_of_oneLine
      (oneLine_of_indent indent), List.length_append,
    List.length_cons]
  omega

/-- Two runs of doc lines with nothing but indentation between them are one run.
The first run goes on over the newline and the indentation to the end of the
other one. -/
theorem exists_merged {first next : Token} {gap : Text} {old : Text}
    {rest : List Token} (stands : Stands first old)
    (isLine : isDocLine (first.text ++ (first.gap ++ old)) = true)
    (legible : Legible (next :: rest))
    (isNext : isDocLine (spelled (next :: rest)) = true)
    (isGap : gapLength false ('\n' :: gap ++ spelled (next :: rest)) =
      ('\n' :: gap).length)
    (indent : gap.all isIndent = true) :
    ∃ merged, Merges { first with gap := '\n' :: gap } next merged ∧
    Legible (merged :: rest) ∧
      Agree (first.text ++ (first.gap ++ old)) (spelled (merged :: rest)) := by
  obtain ⟨tail, text, kind, reach⟩ := stands.reads_docLines isLine
  cases legible with
  | @cons _ _ standsNext later =>
    have startsNext := standsNext.starts
    rw [spelled_cons] at isNext isGap
    obtain ⟨tailNext, textNext, kindNext, reachNext⟩ :=
      standsNext.reads_docLines isNext
    have endedToo : AtLineEnd
        ('\n' :: gap ++ (next.text ++ (next.gap ++ spelled rest))) :=
      .inr ⟨_, rfl⟩
    have ended : AtLineEnd (first.gap ++ old) :=
      atLineEnd_of_docLinesLength (docLinesLength_behind reach)
    have length : docLinesLength
        (tail ++ ('\n' :: gap ++ (next.text ++ (next.gap ++ spelled rest)))) =
          (tail ++ ('\n' :: gap ++ next.text)).length := by
      have goesOn : isDocLine
          (afterIndent (gap ++ (next.text ++ (next.gap ++ spelled rest)))) =
          true := by
        rw [List.cons_append, gapLength_of_blank Text.isBlank_newline,
          List.length_cons] at isGap
        rw [isDocLine_afterIndent (Nat.succ.inj isGap) startsNext,
          indent, isNext]
        rfl
      rw [docLinesLength_newline_indent reach indent goesOn, textNext,
        List.cons_append, docLinesLength_inside (by decide), reachNext]
      simp only [List.length_append, List.length_cons]
      omega
    have stillLine : isDocLine ('/' :: (tail ++ ('\n' :: gap ++
        (next.text ++ (next.gap ++ spelled rest))))) = true := by
      rw [text] at isLine
      rw [← List.cons_append, isDocLine_change ended endedToo]
      exact isLine
    have joined : tail ++ ('\n' :: gap ++ next.text) ++
        (next.gap ++ spelled rest) =
        tail ++ ('\n' :: gap ++ (next.text ++ (next.gap ++ spelled rest))) := by
      simp only [List.append_assoc, List.cons_append]
    have starts : gapLength false ('/' :: (tail ++ ('\n' :: gap ++
        (next.text ++ (next.gap ++ spelled rest))))) = 0 := by
      rw [gapLength_cons_eq_zero_iff, isLineComment, stillLine, Bool.not_true,
        Bool.and_false]
      exact ⟨by decide, rfl⟩
    let whole := first.text ++ ('\n' :: gap ++ next.text)
    let merged : Token := ⟨.comment .docLine whole, first.span, whole, next.gap⟩
    refine ⟨merged, ⟨?_, ?_, rfl, rfl, rfl⟩, .cons ⟨?_, standsNext.gap⟩ later,
      ?_⟩
    · rw [kind]
      rfl
    · rw [kindNext]
      rfl
    · refine ⟨'/', tail ++ ('\n' :: gap ++ next.text), ?_, ?_, ?_⟩
      · exact congrArg (· ++ ('\n' :: gap ++ next.text)) text
      · rw [joined]
        exact starts
      · rw [joined, (Lexeme.read_of_isDocLine stillLine).2, Lexeme.docLines,
          length, ← joined, List.take_left, ← List.cons_append, ← text]
    · have begins : spelled (merged :: rest) = '/' :: (tail ++ ('\n' :: gap ++
          (next.text ++ (next.gap ++ spelled rest)))) := by
        rw [← joined, spelled_cons, ← List.cons_append,
          ← List.cons_append, ← text]
      have startsOld := stands.starts
      rw [text, List.cons_append] at isLine startsOld ⊢
      rw [begins]
      exact ⟨⟨'/', _, _, rfl, rfl⟩, startsOld, starts,
        stillLine.trans isLine.symm⟩

/-- A space in place of a token and of nothing else. -/
theorem Legible.space_for_token {left right : List Token} {last comment : Token}
    (legible : Legible (left ++ last :: comment :: right)) :
    Legible
      (left ++ { last with gap := last.gap ++ ' ' :: comment.gap } :: right) ∨
      ∃ next rest merged, right = next :: rest ∧
        Merges { last with gap := last.gap ++ ' ' :: comment.gap } next merged ∧
        Legible (left ++ merged :: rest) := by
  cases legible.of_append with
  | @cons _ _ stands behind =>
    cases behind with
    | @cons _ _ standsComment later =>
      have inLine := standsComment.inLine
      rw [← spelled_cons] at inLine
      have filled : last.gap ++ spelled (comment :: right) ≠ [] := by
        intro nothing
        exact inLine (.inl (List.append_eq_nil_iff.mp nothing).2)
      have isGap := gapLength_joined (isGap_of_gapLength stands.gap) inLine
        standsComment.gap
      have follows : Follows (last.gap ++ spelled (comment :: right))
          (last.gap ++ ' ' :: comment.gap ++ spelled right) := by
        cases last.gap with
        | nil => exact .inr rfl
        | cons c gap => exact .inl rfl
      by_cases goesOn : isDocLine
        (last.text ++ (last.gap ++ spelled (comment :: right))) = true ∧
          docLinesLength (last.gap ++ ' ' :: comment.gap ++ spelled right) ≠ 0
      · right
        obtain ⟨isLine, goesOn⟩ := goesOn
        obtain ⟨others, newline⟩ := exists_newline_of_docLinesLength inLine
          (stands.docLinesLength_behind isLine)
        have whole : last.gap ++ ' ' :: comment.gap =
            '\n' :: (others ++ ' ' :: comment.gap) := by
          rw [newline, List.cons_append]
        rw [whole] at isGap goesOn ⊢
        rw [ne_eq, docLinesLength_behind_gap isGap later.starts,
          Bool.not_eq_false, Bool.and_eq_true] at goesOn
        obtain ⟨next, rest, rfl⟩ := isDocLine_spelled goesOn.2
        obtain ⟨merged, merges, legibleMerged, agree⟩ :=
          exists_merged stands isLine later goesOn.2 isGap goesOn.1
        rw [← spelled_cons] at agree
        exact ⟨next, rest, merged, rfl, merges,
          (legible.agree legibleMerged agree).1⟩
      · left
        obtain ⟨standsToo, agree⟩ := stands.replace filled follows isGap (by
          intro isLine
          by_contra more
          exact goesOn ⟨isLine, more⟩)
        have begins : spelled
            ({ last with gap := last.gap ++ ' ' :: comment.gap } :: right) =
            last.text ++ (last.gap ++ ' ' :: comment.gap ++ spelled right) := by
          rw [spelled_cons]
        rw [← spelled_cons, ← begins] at agree
        exact (legible.agree (.cons standsToo later) agree).1

/-! ## Line comments -/

theorem IsPlainComment.inLine {comment : Text} (plain : IsPlainComment comment)
    (more : Text) :
    ¬ AtLineEnd (comment ++ more) := by
  obtain ⟨line, rfl⟩ := plain.slashes
  rintro (nothing | ⟨others, newline⟩)
  · cases nothing
  · cases newline

/-- A line comment reaches to the end of its line. -/
theorem IsPlainComment.ended {comment more : Text}
    (plain : IsPlainComment comment)
    (ended : gapLength false (comment ++ more) = comment.length) :
    more = [] := by
  have oneLine := plain.oneLine
  obtain ⟨line, rfl⟩ := plain.slashes
  have inside : '\n' ∉ '/' :: line := fun member => oneLine (.tail _ member)
  have whole : ['/', '/'] ++ line ++ more = '/' :: ('/' :: line ++ more) := rfl
  rw [whole] at ended
  by_cases slashes : isLineComment ('/' :: ('/' :: line ++ more)) = true
  · rw [gapLength_of_lineComment (by decide) slashes,
      gapLength_inside_line inside] at ended
    cases more with
    | nil => rfl
    | cons c more =>
        rw [gapLength_inside] at ended
        simp only [List.length_append, List.length_cons, List.length_nil]
          at ended
        omega
  · rw [gapLength_of_token (by decide) slashes] at ended
    cases ended

/-- A space in place of a line comment. -/
theorem Legible.space_for_line {left right : List Token} {last : Token}
    {before comment after : Text} (legible : Legible (left ++ last :: right))
    (gap : last.gap = before ++ (comment ++ after))
    (isGap : IsGap (comment ++ after) before) (plain : IsPlainComment comment)
    (ended : AtLineEnd after) :
    Legible (left ++ { last with gap := before ++ ' ' :: after } :: right) := by
  cases legible.of_append with
  | @cons _ _ stands later =>
    have inLine := plain.inLine (after ++ spelled right)
    have front : IsGap (comment ++ (after ++ spelled right)) before :=
      isGap.in_front_of (plain.inLine after) _
    have length : gapLength false (comment ++ (after ++ spelled right)) =
        comment.length + after.length := by
      have whole := stands.gap
      rw [gap, List.append_assoc, List.append_assoc, front.gapLength_append]
        at whole
      simp only [List.length_append] at whole
      omega
    have atEnd : after = [] → spelled right = [] := by
      rintro rfl
      exact plain.ended length
    have endedToo : AtLineEnd (after ++ spelled right) := by
      rcases ended with rfl | ⟨others, rfl⟩
      · exact .inl (atEnd rfl)
      · exact .inr ⟨others ++ spelled right, rfl⟩
    have isGapToo : gapLength false (after ++ spelled right) =
        after.length := by
      rw [plain.gapLength_append endedToo] at length
      omega
    have filled : last.gap ++ spelled right ≠ [] := by
      rw [gap, List.append_assoc, List.append_assoc]
      intro nothing
      exact inLine (.inl (List.append_eq_nil_iff.mp nothing).2)
    have follows : Follows (last.gap ++ spelled right)
        (before ++ ' ' :: after ++ spelled right) := by
      rw [gap]
      cases before with
      | nil => exact .inr rfl
      | cons c before => exact .inl rfl
    have joined := gapLength_joined front inLine isGapToo
    obtain ⟨standsToo, agree⟩ := stands.replace filled follows joined (by
      intro isLine
      have stops := stands.docLinesLength_behind isLine
      rw [gap, List.append_assoc, List.append_assoc] at stops
      obtain ⟨others, rfl⟩ := exists_newline_of_docLinesLength inLine stops
      rw [List.cons_append] at joined ⊢
      rw [docLinesLength_behind_gap joined later.starts]
      rcases ended with rfl | ⟨rest, rfl⟩
      · rw [atEnd rfl]
        exact Bool.and_false _
      · rw [List.all_append, List.all_cons, List.all_cons]
        simp [isIndent])
    have begins : spelled
        ({ last with gap := before ++ ' ' :: after } :: right) =
        last.text ++ (before ++ ' ' :: after ++ spelled right) := by
      rw [spelled_cons]
    rw [← spelled_cons, ← begins] at agree
    exact (legible.agree (.cons standsToo later) agree).1

end Token

end StyleAudit
