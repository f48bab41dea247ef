import StyleAudit.Proofs.Text.Ends
import StyleAudit.Token.Gap

/-!
# What the gaps between tokens hold

The gap in front of a text is found by counting characters, with a flag for
being inside a line comment.  `IsGap` says the same without counting: a gap is
made of blanks and of plain line comments that each reach to the end of their
line.
-/

namespace StyleAudit

namespace Token

/-- A line comment that is no doc line: two slashes in front, not exactly
three, and no line break inside. -/
structure IsPlainComment (comment : Text) : Prop where
  slashes : ['/', '/'] <+: comment
  noDoc : ¬ ['/', '/', '/'] <+: comment ∨ ['/', '/', '/', '/'] <+: comment
  oneLine : '\n' ∉ comment

/-- Does a line end in front of this text? -/
def AtLineEnd (text : Text) : Prop :=
  text = [] ∨ ∃ rest, text = '\n' :: rest

/-- A gap, in front of `behind`. -/
inductive IsGap (behind : Text) : Text → Prop where
  | nil : IsGap behind []
  | blank {c : Char} {rest : Text} :
      Text.isBlank c = true → IsGap behind rest → IsGap behind (c :: rest)
  | comment {comment rest : Text} :
      IsPlainComment comment → AtLineEnd (rest ++ behind) → IsGap behind rest →
      IsGap behind (comment ++ rest)

/-! ## Line comments -/

theorem isDocLine_iff {text : Text} :
    isDocLine text = true ↔
      ['/', '/', '/'] <+: text ∧ ¬ ['/', '/', '/', '/'] <+: text := by
  fun_cases isDocLine text with
  | case1 rest => simp
  | case2 rest noFourth =>
      have three : ['/', '/', '/'] <+: '/' :: '/' :: '/' :: rest := by simp
      refine iff_of_true rfl ⟨three, ?_⟩
      rintro ⟨behind, four⟩
      exact noFourth behind (by simpa using four.symm)
  | case3 _ _ noThird =>
      refine iff_of_false (by simp) ?_
      rintro ⟨⟨behind, three⟩, _⟩
      exact noThird behind three.symm

theorem isLineComment_iff {text : Text} :
    isLineComment text = true ↔
      ['/', '/'] <+: text ∧
        (¬ ['/', '/', '/'] <+: text ∨ ['/', '/', '/', '/'] <+: text) := by
  have negated : isDocLine text = false ↔
      ¬ ['/', '/', '/'] <+: text ∨ ['/', '/', '/', '/'] <+: text := by
    rw [← Bool.not_eq_true, isDocLine_iff, Decidable.not_and_iff_or_not,
      Decidable.not_not]
  rw [isLineComment, Bool.and_eq_true, Text.beginsWith_iff,
    Bool.not_eq_true', negated]

/-- What a line begins with does not depend on what follows the line. -/
theorem isPrefix_append_iff_of_atLineEnd {front line behind : Text}
    (oneLine : '\n' ∉ front) (ended : AtLineEnd behind) :
    front <+: line ++ behind ↔ front <+: line := by
  constructor
  · intro begins
    induction front generalizing line with
    | nil => exact List.nil_prefix
    | cons a front ih =>
        have others : '\n' ∉ front := fun member => oneLine (.tail _ member)
        cases line with
        | nil =>
            rcases ended with rfl | ⟨rest, rfl⟩
            · simp at begins
            · have newline : a = '\n' := (List.cons_prefix_cons.mp begins).1
              exact (oneLine (newline ▸ List.mem_cons_self)).elim
        | cons b line =>
            obtain ⟨same, later⟩ := List.cons_prefix_cons.mp begins
            exact List.cons_prefix_cons.mpr ⟨same, ih others later⟩
  · intro begins
    exact begins.trans (List.prefix_append line behind)

/-- A line comment is told from a doc line by the characters of its line. -/
theorem isPlainComment_of_isLineComment {line behind : Text}
    (plain : isLineComment (line ++ behind) = true) (oneLine : '\n' ∉ line)
    (ended : AtLineEnd behind) : IsPlainComment line := by
  rw [isLineComment_iff, isPrefix_append_iff_of_atLineEnd (by decide) ended,
    isPrefix_append_iff_of_atLineEnd (by decide) ended,
    isPrefix_append_iff_of_atLineEnd (by decide) ended] at plain
  exact ⟨plain.1, plain.2, oneLine⟩

/-! ## The gap at the front of a text -/

/-- From inside a line comment, the gap is the rest of the comment and then a
gap. -/
def IsCommentTail (behind text : Text) : Prop :=
  ∃ comment rest, text = comment ++ rest ∧ '\n' ∉ comment ∧
    AtLineEnd (rest ++ behind) ∧ IsGap behind rest

theorem gapLength_of_blank {c : Char} {rest : Text}
    (blank : Text.isBlank c = true) :
    gapLength false (c :: rest) = gapLength false rest + 1 := by
  rw [gapLength, if_pos blank, Nat.add_comm]

theorem gapLength_of_lineComment {c : Char} {rest : Text}
    (filled : ¬ Text.isBlank c = true)
    (slashes : isLineComment (c :: rest) = true) :
    gapLength false (c :: rest) = gapLength true rest + 1 := by
  rw [gapLength, if_neg filled, if_pos slashes, Nat.add_comm]

theorem gapLength_of_token {c : Char} {rest : Text}
    (filled : ¬ Text.isBlank c = true)
    (noComment : ¬ isLineComment (c :: rest) = true) :
    gapLength false (c :: rest) = 0 := by
  rw [gapLength, if_neg filled, if_neg noComment]

theorem gapLength_inside (c : Char) (rest : Text) :
    gapLength true (c :: rest) = gapLength (c != '\n') rest + 1 := by
  rw [gapLength, Nat.add_comm]

/-- The counting is right on both sides of the flag. -/
theorem isGap_take_gapLength (text : Text) :
    IsGap (text.drop (gapLength false text))
        (text.take (gapLength false text)) ∧
      IsCommentTail (text.drop (gapLength true text))
        (text.take (gapLength true text)) := by
  induction text with
  | nil => exact ⟨.nil, [], [], rfl, by simp, .inl rfl, .nil⟩
  | cons c rest ih =>
      obtain ⟨gap, comment, later, split, oneLine, ended, laterGap⟩ := ih
      constructor
      · by_cases blank : Text.isBlank c = true
        · rw [gapLength_of_blank blank]
          exact gap.blank blank
        · by_cases slashes : isLineComment (c :: rest) = true
          · rw [gapLength_of_lineComment blank slashes, List.take_succ_cons,
              List.drop_succ_cons, split]
            have noBreak : '\n' ∉ c :: comment := by
              intro member
              rcases List.mem_cons.mp member with rfl | inner
              · exact blank Text.isBlank_newline
              · exact oneLine inner
            have whole : c :: rest = (c :: comment) ++
                (later ++ rest.drop (gapLength true rest)) := by
              rw [← List.append_assoc, List.cons_append, ← split,
                List.cons_append, List.take_append_drop]
            rw [whole] at slashes
            exact .comment
              (isPlainComment_of_isLineComment slashes noBreak ended)
              ended laterGap
          · rw [gapLength_of_token blank slashes]
            exact .nil
      · by_cases newline : c = '\n'
        · subst newline
          rw [gapLength_inside]
          exact ⟨[], _, rfl, by simp, .inr ⟨_, rfl⟩,
            gap.blank Text.isBlank_newline⟩
        · have inside : (c != '\n') = true := by simpa using newline
          rw [gapLength_inside, inside, List.take_succ_cons,
            List.drop_succ_cons, split]
          have noBreak : '\n' ∉ c :: comment := by
            simp [Ne.symm newline, oneLine]
          exact ⟨c :: comment, later, rfl, noBreak, ended, laterGap⟩

/-- The gap at the front of a text is a gap. -/
theorem isGap_leadingGap (text : Text) :
    IsGap (afterGap text) (leadingGap text) :=
  (isGap_take_gapLength text).1

/-- Every character of a gap is a blank or stands in a plain line comment. -/
theorem IsGap.blank_or_commented {behind gap : Text} (isGap : IsGap behind gap)
    {front back : Text} {c : Char} (place : gap = front ++ c :: back) :
    Text.isBlank c = true ∨
      ∃ before comment after, gap = before ++ comment ++ after ∧
        IsPlainComment comment ∧ before.length ≤ front.length ∧
        front.length < (before ++ comment).length := by
  induction isGap generalizing front with
  | nil => simp at place
  | @blank d rest blank _ ih =>
      cases front with
      | nil =>
          obtain ⟨same, _⟩ := List.cons.inj place
          exact .inl (same ▸ blank)
      | cons _ front =>
          obtain ⟨rfl, later⟩ := List.cons.inj place
          rcases ih later with
            isBlank | ⟨before, comment, after, split, plain, low, high⟩
          · exact .inl isBlank
          · refine .inr ⟨d :: before, comment, after, by simp [split],
              plain, ?_, ?_⟩
            · simpa using low
            · simpa using high
  | @comment comment rest plain _ _ ih =>
      rcases Nat.lt_or_ge front.length comment.length with inside | behind
      · exact .inr ⟨[], comment, rest, rfl, plain, Nat.zero_le _, inside⟩
      · have begins : comment <+: front :=
          List.prefix_of_prefix_length_le (List.prefix_append comment rest)
            (place ▸ List.prefix_append front (c :: back)) behind
        obtain ⟨front, rfl⟩ := begins
        have later : rest = front ++ c :: back := by
          simpa [List.append_assoc] using place
        rcases ih later with
          isBlank | ⟨before, inner, after, split, innerPlain, low, high⟩
        · exact .inl isBlank
        · refine .inr ⟨comment ++ before, inner, after, by simp [split],
            innerPlain, ?_, ?_⟩
          · simpa using low
          · simpa [Nat.add_assoc] using high

end Token

end StyleAudit
