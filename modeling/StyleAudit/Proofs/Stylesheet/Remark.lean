import StyleAudit.Proofs.Stylesheet.Context
import StyleAudit.Proofs.Stylesheet.Shown

/-!
# Comments inside heads

A remark is a comment inside the head of an item, behind its first token: a
token of its own, or a line comment in the gap behind a token.  When a space
takes its place, the stylesheet is read as before, but for what that one head
says.  `Remark.harmless` tells when the head says the same.
-/

namespace StyleAudit

/-- A comment inside a head, with the tokens of the head around it. -/
inductive Remark where
  /-- A comment that is a token. -/
  | token (left : List Token) (last comment : Token) (right : List Token)
  /-- A line comment, in the gap behind a token. -/
  | line (left : List Token) (last : Token) (before comment after : Text)
      (right : List Token)

namespace Remark

/-- The comment is one, and the whole of it. -/
inductive Valid : Remark → Prop where
  | token {left : List Token} {last comment : Token} {right : List Token} :
      comment.kind.isComment = true → Valid (.token left last comment right)
  | line {left : List Token} {last : Token} {before comment after : Text}
    {right : List Token} :
      last.gap = before ++ (comment ++ after) →
      Token.IsGap (comment ++ after) before →
      Token.IsPlainComment comment → Token.AtLineEnd after →
      Valid (.line left last before comment after right)

/-- The head with the comment. -/
def head : Remark → List Token
  | .token left last comment right => left ++ last :: comment :: right
  | .line left last _ _ _ right => left ++ last :: right

/-- The head with a space in place of the comment. -/
def spaced : Remark → List Token
  | .token left last comment right =>
    left ++ { last with gap := last.gap ++ ' ' :: comment.gap } :: right
  | .line left last before _ after right =>
    left ++ { last with gap := before ++ ' ' :: after } :: right

/-- The text of the head in front of the comment. -/
def front : Remark → Text
  | .token left last _ _ => Token.spelled (left ++ [last])
  | .line left last before _ _ _ => Token.spelled left ++ (last.text ++ before)

/-- The text of the comment. -/
def text : Remark → Text
  | .token _ _ comment _ => comment.text
  | .line _ _ _ comment _ _ => comment

/-- The text of the head behind the comment. -/
def back : Remark → Text
  | .token _ _ comment right => comment.gap ++ Token.spelled right
  | .line _ _ _ _ after right => after ++ Token.spelled right

/-- Does the head say the same with a space in place of the comment?  Of a
selector it does if only comments follow.  The same goes for an at-rule, unless
the comment stands behind a name without anything else, which shows with its
gap: there no other line comment may move up to it, and it may not be a line
comment itself.  Directly behind a keyword a line comment does not count.  An
include is not told by its text: a line comment does not count, and another
comment counts if the name or the arguments would go on behind it. -/
def harmless : Remark → Bool
  | .token left last comment right =>
    match left ++ [last] with
    | { kind := .atKeyword keyword, .. } :: named =>
      if keyword = "include".toList then Head.includingOf named ==
        Head.includingOf (named ++ right)
      else
        right.all (·.kind.isComment) &&
          (!Head.isLoneName named || comment.gap.all Text.isBlank)
    | _ => right.all (·.kind.isComment)
  | .line left last _ _ _ right =>
    match left ++ [last] with
    | { kind := .atKeyword keyword, .. } :: named =>
      keyword == "include".toList || named.isEmpty ||
        (right.all (·.kind.isComment) && !Head.isLoneName named)
    | _ => right.all (·.kind.isComment)

/-! ## Spelling -/

theorem spelled_head {remark : Remark} (valid : remark.Valid) :
    Token.spelled remark.head =
      remark.front ++ (remark.text ++ remark.back) := by
  cases valid with
  | token _ =>
      simp only [head, front, text, back, Token.spelled_append,
        Token.spelled_cons, Token.spelled_nil, List.append_assoc,
        List.append_nil]
  | line gap _ _ _ =>
      simp only [head, front, text, back, Token.spelled_append,
        Token.spelled_cons, gap, List.append_assoc]

theorem spelled_spaced (remark : Remark) :
    Token.spelled remark.spaced = remark.front ++ ' ' :: remark.back := by
  cases remark with
  | token left last comment right =>
      simp only [spaced, front, back, Token.spelled_append, Token.spelled_cons,
        Token.spelled_nil, List.append_assoc, List.append_nil, List.cons_append]
  | line left last before comment after right =>
      simp only [spaced, front, back, Token.spelled_append, Token.spelled_cons,
        List.append_assoc, List.cons_append]

/-! ## What the head says -/

/-- The head begins with a token of the same kind. -/
theorem exists_first (remark : Remark) :
    ∃ first other rest others, remark.head = first :: rest ∧
    remark.spaced = other :: others ∧
      other.kind = first.kind := by
  cases remark with
  | token left last comment right =>
      cases left with
      | nil => exact ⟨_, _, _, _, rfl, rfl, rfl⟩
      | cons first left => exact ⟨_, _, _, _, rfl, rfl, rfl⟩
  | line left last before comment after right =>
      cases left with
      | nil => exact ⟨_, _, _, _, rfl, rfl, rfl⟩
      | cons first left => exact ⟨_, _, _, _, rfl, rfl, rfl⟩

theorem alike {remark : Remark}
    (notImport : (Head.ofTokens remark.head).isImport = false) :
    (Head.ofTokens remark.head).Alike (Head.ofTokens remark.spaced) := by
  obtain ⟨⟨kind, span, text, gap⟩, ⟨_, place, word, space⟩, rest, others, old,
    new, same⟩ :=
    remark.exists_first
  cases same
  rw [old] at notImport ⊢
  rw [new]
  cases kind with
  | atKeyword keyword =>
      rw [Head.ofTokens] at notImport
      rw [Head.ofTokens, Head.ofTokens]
      cases loads : ImportKind.ofKeyword? keyword with
      | some kind =>
          rw [loads] at notImport
          cases notImport
      | none =>
          by_cases included : keyword = "include".toList
          · obtain ⟨name, arguments, isInclude⟩ := Head.includingOf_eq rest
            obtain ⟨other, otherArguments, isIncludeToo⟩ :=
              Head.includingOf_eq others
            simp only [if_pos included, isInclude, isIncludeToo]
            exact .including name other arguments otherArguments
          · simp only [if_neg included]
            exact .atRule _ _
  | _ => exact .style _ _

theorem eq_nil_of_isLoneName {left : List Token} {last : Token}
    (lone : Head.isLoneName (left ++ [last]) = true) : left = [] := by
  cases left with
  | nil => rfl
  | cons first left =>
      obtain ⟨next, others, behind⟩ : ∃ next others,
        left ++ [last] = next :: others :=
        List.exists_cons_of_ne_nil (by simp)
      rw [List.cons_append, behind, Head.isLoneName_cons_cons] at lone
      cases lone

theorem ink_joined (before after : Text) :
    Text.ink (before ++ ' ' :: after) = Text.ink before + Text.ink after := by
  rw [Text.ink_append, Text.ink_cons_of_blank Text.isBlank_space]

/-- A name shows the line comments in its gap. -/
theorem normalizeBlanks_joined_iff (text before after : Text) :
    Text.normalizeBlanks (text ++ before) =
        Text.normalizeBlanks (text ++ (before ++ ' ' :: after)) ↔
      after.all Text.isBlank = true := by
  constructor
  · intro same
    have inks := congrArg Text.ink same
    rw [Text.ink_normalizeBlanks, Text.ink_normalizeBlanks, Text.ink_append,
      Text.ink_append, ink_joined] at inks
    rw [← Text.ink_eq_zero_iff]
    omega
  · intro blank
    have blanks : (' ' :: after).all Text.isBlank = true := by
      rw [List.all_cons, blank]
      decide
    rw [← List.append_assoc, Text.normalizeBlanks_append_blanks _ blanks]

theorem includingOf_token_iff {left : List Token} {last comment : Token}
    (isComment : comment.kind.isComment = true) (right : List Token)
    (gap : Text) :
    Head.includingOf (left ++ last :: comment :: right) =
        Head.includingOf (left ++ { last with gap } :: right) ↔
      (Head.includingOf (left ++ [last]) ==
        Head.includingOf (left ++ [last] ++ right)) = true := by
  have old := Head.includingOf_append_comment (left ++ [last]) isComment right
  have new : Head.includingOf (left ++ { last with gap } :: right) =
      Head.includingOf (left ++ [last] ++ right) := by
    apply Head.includingOf_congr
    simp only [List.map_append, List.map_cons, List.append_assoc,
      List.cons_append, List.nil_append]
  rw [List.append_assoc, List.singleton_append] at old
  rw [old, new, beq_iff_eq]

theorem ink_token_lt {last comment : Token}
    (inked : 0 < Text.ink comment.text) :
    Text.ink (last.gap ++ ' ' :: comment.gap) <
      Text.ink (last.gap ++ Token.spelled [comment]) := by
  rw [ink_joined, Token.spelled_cons, Token.spelled_nil, List.append_nil,
    Text.ink_append, Text.ink_append]
  omega

section Token

variable {left : List Token} {last comment : Token} {right : List Token}
  (isComment : comment.kind.isComment = true)
  (inked : 0 < Text.ink comment.text)
include isComment inked

private theorem shown_token_iff :
    Token.shown (left ++ last :: comment :: right) =
        Token.shown
          (left ++ { last with gap := last.gap ++ ' ' :: comment.gap } ::
            right) ↔
      right.all (·.kind.isComment) = true :=
  @Token.shown_space_iff left last [comment] right _ (by simpa using isComment)
    (ink_token_lt inked)

private theorem atRuleOf_token_iff (keyword : Text) :
    Head.atRuleOf keyword (left ++ last :: comment :: right) =
        Head.atRuleOf keyword
          (left ++ { last with gap := last.gap ++ ' ' :: comment.gap } ::
            right) ↔
      (right.all (·.kind.isComment) &&
        (!Head.isLoneName (left ++ [last]) || comment.gap.all Text.isBlank)) =
          true := by
  have comments : [comment].all (·.kind.isComment) = true := by
    simpa using isComment
  have less := @ink_token_lt last comment inked
  by_cases lone : Head.isLoneName (left ++ [last]) = true
  · obtain rfl := eq_nil_of_isLoneName lone
    rw [List.nil_append] at lone
    have same :=
      @Head.atRuleOf_lone_iff keyword last [comment] right _ comments less lone
    rw [List.singleton_append] at same
    rw [List.nil_append, List.nil_append, List.nil_append, same, lone,
      normalizeBlanks_joined_iff, Bool.not_true, Bool.false_or,
      Bool.and_eq_true]
  · have more := Bool.eq_false_iff.mpr lone
    have same := @Head.atRuleOf_space_iff keyword last [comment] right _
      comments less left more
    rw [List.singleton_append] at same
    rw [same, more, Bool.not_false, Bool.true_or, Bool.and_true]

theorem ofTokens_token_iff
    (notImport : (Head.ofTokens (left ++ last :: comment :: right)).isImport =
      false) :
    Head.ofTokens (left ++ last :: comment :: right) =
        Head.ofTokens
          (left ++ { last with gap := last.gap ++ ' ' :: comment.gap } ::
            right) ↔
      (Remark.token left last comment right).harmless = true := by
  have style := @shown_token_iff left last comment right isComment inked
  cases left with
  | nil =>
      rw [List.nil_append] at notImport
      rw [List.nil_append, List.nil_append,
        @Head.ofTokens_eq_iff last
          { last with gap := last.gap ++ ' ' :: comment.gap } rfl _ _ notImport]
      obtain ⟨kind, span, text, gap⟩ := last
      cases kind with
      | atKeyword keyword =>
          simp only [harmless, List.nil_append]
          by_cases included : keyword = "include".toList
          · have stops := Head.includingOf_append_comment [] isComment right
            rw [List.nil_append] at stops
            rw [if_pos included, if_pos included, stops, beq_iff_eq]
          · rw [if_neg included, if_neg included,
              Head.atRuleOf_comment_iff isComment inked right,
              Head.isLoneName_nil, Bool.not_false, Bool.true_or, Bool.and_true]
      | _ => exact style
  | cons first left =>
      rw [List.cons_append] at notImport
      rw [List.cons_append, List.cons_append,
        Head.ofTokens_eq_iff rfl notImport]
      obtain ⟨kind, span, text, gap⟩ := first
      cases kind with
      | atKeyword keyword =>
          simp only [harmless, List.cons_append]
          by_cases included : keyword = "include".toList
          · rw [if_pos included, if_pos included]
            exact includingOf_token_iff isComment right _
          · rw [if_neg included, if_neg included]
            exact atRuleOf_token_iff isComment inked keyword
      | _ => exact style

end Token

section Line

variable {left : List Token} {last : Token} {before comment after : Text}
  {right : List Token} (gap : last.gap = before ++ (comment ++ after))
  (inked : 0 < Text.ink comment)
include gap inked

theorem ink_line_lt : Text.ink (before ++ ' ' :: after) <
    Text.ink (last.gap ++ Token.spelled []) := by
  rw [ink_joined, Token.spelled_nil, List.append_nil, gap, Text.ink_append,
    Text.ink_append]
  omega

private theorem shown_line_iff :
    Token.shown (left ++ last :: right) =
        Token.shown
          (left ++ { last with gap := before ++ ' ' :: after } :: right) ↔
      right.all (·.kind.isComment) = true :=
  @Token.shown_space_iff left last [] right _ rfl (ink_line_lt gap inked)

private theorem atRuleOf_line_iff (keyword : Text) :
    Head.atRuleOf keyword (left ++ last :: right) =
        Head.atRuleOf keyword
          (left ++ { last with gap := before ++ ' ' :: after } :: right) ↔
      (right.all (·.kind.isComment) && !Head.isLoneName (left ++ [last])) =
        true := by
  have less := @ink_line_lt last before comment after gap inked
  by_cases lone : Head.isLoneName (left ++ [last]) = true
  · obtain rfl := eq_nil_of_isLoneName lone
    rw [List.nil_append] at lone
    have same := @Head.atRuleOf_lone_iff keyword last [] right _ rfl less lone
    rw [List.nil_append] at same
    have shows : ¬ Text.normalizeBlanks (last.text ++ last.gap) =
        Text.normalizeBlanks (last.text ++ (before ++ ' ' :: after)) := by
      intro equal
      have inks := congrArg Text.ink equal
      rw [Text.ink_normalizeBlanks, Text.ink_normalizeBlanks, Text.ink_append,
        Text.ink_append]
        at inks
      rw [Token.spelled_nil, List.append_nil] at less
      omega
    rw [List.nil_append, List.nil_append, List.nil_append, same, lone]
    simp [shows]
  · have more := Bool.eq_false_iff.mpr lone
    have same :=
      @Head.atRuleOf_space_iff keyword last [] right _ rfl less left more
    rw [List.nil_append] at same
    rw [same, more, Bool.not_false, Bool.and_true]

private theorem ofTokens_line_iff
    (notImport : (Head.ofTokens (left ++ last :: right)).isImport = false) :
    Head.ofTokens (left ++ last :: right) =
        Head.ofTokens
          (left ++ { last with gap := before ++ ' ' :: after } :: right) ↔
      (Remark.line left last before comment after right).harmless = true := by
  have style := @shown_line_iff left last before comment after right gap inked
  cases left with
  | nil =>
      rw [List.nil_append] at notImport
      rw [List.nil_append, List.nil_append,
        @Head.ofTokens_eq_iff last { last with gap := before ++ ' ' :: after }
          rfl _ _ notImport]
      obtain ⟨kind, span, text, gap⟩ := last
      cases kind with
      | atKeyword keyword =>
          apply iff_of_true
          · simp only [ite_self]
          · simp only [harmless, List.nil_append, List.isEmpty_nil,
              Bool.or_true, Bool.true_or]
      | _ => exact style
  | cons first left =>
      rw [List.cons_append] at notImport
      rw [List.cons_append, List.cons_append,
        Head.ofTokens_eq_iff rfl notImport]
      obtain ⟨kind, span, text, gap⟩ := first
      cases kind with
      | atKeyword keyword =>
          have filled : (left ++ [last]).isEmpty = false := by simp
          simp only [harmless, List.cons_append, filled, Bool.or_false]
          by_cases included : keyword = "include".toList
          · have same : Head.includingOf (left ++ last :: right) =
                Head.includingOf
                  (left ++ { last with gap := before ++ ' ' :: after } ::
                    right) := by
              apply Head.includingOf_congr
              simp only [List.map_append, List.map_cons]
            rw [if_pos included, included]
            exact iff_of_true same rfl
          · have other : (keyword == "include".toList) = false := by
              simpa using included
            rw [if_neg included, other, Bool.false_or]
            exact atRuleOf_line_iff ‹_› inked keyword
      | _ => exact style

end Line

/-- What `harmless` tells. -/
theorem ofTokens_spaced_iff {remark : Remark} (valid : remark.Valid)
    (inked : 0 < Text.ink remark.text)
    (notImport : (Head.ofTokens remark.head).isImport = false) :
    Head.ofTokens remark.head = Head.ofTokens remark.spaced ↔
      remark.harmless = true := by
  cases valid with
  | token isComment => exact ofTokens_token_iff isComment inked notImport
  | line gap _ _ _ => exact ofTokens_line_iff gap inked notImport

/-! ## Reading the head again -/

theorem isBoundary_of_isComment {kind : Token.Kind}
    (isComment : kind.isComment = true) :
    kind.isBoundary = false := by
  cases kind with
  | comment style text => rfl
  | _ => cases isComment

theorem kind_of_mem_regapped {left right : List Token} {last token : Token}
    {gap : Text} (member : token ∈ left ++ { last with gap } :: right) :
    ∃ other ∈ left ++ last :: right, other.kind = token.kind := by
  rcases List.mem_append.mp member with before | behind
  · exact ⟨token, List.mem_append_left _ before, rfl⟩
  · rcases List.mem_cons.mp behind with rfl | later
    · exact ⟨last, by simp, rfl⟩
    · exact ⟨token, by simp [later], rfl⟩

/-- The kinds of the tokens are kinds of the head with the comment. -/
theorem kind_of_mem_spaced {remark : Remark} {token : Token}
    (member : token ∈ remark.spaced) :
    ∃ other ∈ remark.head, other.kind = token.kind := by
  cases remark with
  | token left last comment right =>
      obtain ⟨other, inside, same⟩ := kind_of_mem_regapped member
      have within : (left ++ last :: right).Sublist
          (left ++ last :: comment :: right) :=
        ((List.sublist_cons_self comment right).cons_cons last).append_left left
      exact ⟨other, within.subset inside, same⟩
  | line left last before comment after right =>
      exact kind_of_mem_regapped member

theorem isHead_spaced {remark : Remark} (isHead : Token.IsHead remark.head) :
    Token.IsHead remark.spaced := by
  constructor
  · obtain ⟨first, other, rest, others, old, new, same⟩ := remark.exists_first
    obtain ⟨begin, behind, split, notComment⟩ := isHead.begins
    obtain ⟨rfl, -⟩ := List.cons.inj (old.symm.trans split)
    exact ⟨other, others, new, same ▸ notComment⟩
  · intro token member
    obtain ⟨other, inHead, same⟩ := kind_of_mem_spaced member
    rw [← same]
    exact isHead.inside other inHead

/-- Tokens that stand for a head with a space in place of a comment. -/
structure Reads (remark : Remark) (tokens : List Token) : Prop where
  spelled : Token.spelled tokens = Token.spelled remark.spaced
  isHead : Token.IsHead tokens
  kinds : ∀ token ∈ tokens, token.kind.isComment = true ∨
    ∃ other ∈ remark.head, other.kind = token.kind
  sameHead : Head.ofTokens tokens = Head.ofTokens remark.spaced

theorem Reads.intact {remark : Remark} {tokens before behind : List Token}
    (reads : remark.Reads tokens)
    (intact : Outline.Intact (before ++ (remark.head ++ behind))) :
    Outline.Intact (before ++ (tokens ++ behind)) := by
  intro token member construct same
  rcases List.mem_append.mp member with front | later
  · exact intact token (List.mem_append_left _ front) construct same
  · rcases List.mem_append.mp later with inside | back
    · rcases reads.kinds token inside with isComment | ⟨other, inHead, sameKind⟩
      · rw [same] at isComment
        cases isComment
      · exact intact other (by simp [inHead]) construct (sameKind.trans same)
    · exact intact token (by simp [back]) construct same

theorem reads_spaced {remark : Remark} (isHead : Token.IsHead remark.head) :
    remark.Reads remark.spaced :=
  ⟨rfl, isHead_spaced isHead,
    fun _ member => .inr (kind_of_mem_spaced member), rfl⟩

/-- The space may also make one comment of two. -/
theorem reads_merged {first last comment next merged : Token}
    {left right : List Token}
    (isHead : Token.IsHead
      (token (first :: left) last comment (next :: right)).head)
    (notImport :
      (Head.ofTokens
        (token (first :: left) last comment (next :: right)).head).isImport =
          false)
    (merges : Token.Merges { last with gap := last.gap ++ ' ' :: comment.gap }
      next merged) :
    Reads (token (first :: left) last comment (next :: right))
      (first :: left ++ merged :: right) := by
  have isHeadToo := isHead_spaced isHead
  constructor
  · rw [spaced, Token.spelled_append, Token.spelled_append, merges.spelled_cons]
  · constructor
    · obtain ⟨begin, more, begins, notComment⟩ := isHeadToo.begins
      obtain ⟨rfl, -⟩ := List.cons.inj begins
      exact ⟨_, _, rfl, notComment⟩
    · intro token member
      rcases List.mem_append.mp member with before | later
      · exact isHeadToo.inside token (List.mem_append_left _ before)
      · rcases List.mem_cons.mp later with rfl | later
        · exact isBoundary_of_isComment merges.isMerged
        · exact isHeadToo.inside token (by simp [spaced, later])
  · intro token member
    rcases List.mem_append.mp member with before | later
    · exact .inr ⟨token, List.mem_append_left _ before, rfl⟩
    · rcases List.mem_cons.mp later with rfl | later
      · exact .inl merges.isMerged
      · exact .inr ⟨token, by simp [head, later], rfl⟩
  · exact Head.ofTokens_merged merges (alike notImport).notImport

/-- With a space in place of the comment, the head is read among the same
tokens. -/
theorem exists_reads {remark : Remark} (valid : remark.Valid)
    (isHead : Token.IsHead remark.head)
    (notImport : (Head.ofTokens remark.head).isImport = false)
    {before behind : List Token}
    (legible : Token.Legible (before ++ (remark.head ++ behind)))
    (ended : behind = [] ∨ ∃ mark rest,
      behind = mark :: rest ∧ mark.kind.isBoundary = true) :
    ∃ tokens,
      remark.Reads tokens ∧ Token.Legible (before ++ (tokens ++ behind)) := by
  cases valid with
  | @line left last front comment after right gap isGap plain atEnd =>
      refine ⟨_, reads_spaced isHead, ?_⟩
      rw [head, List.append_assoc, ← List.append_assoc, List.cons_append]
        at legible
      rw [spaced, List.append_assoc, ← List.append_assoc, List.cons_append]
      exact legible.space_for_line gap isGap plain atEnd
  | @token left last comment right isComment =>
      have joined := legible
      rw [head, List.append_assoc, ← List.append_assoc, List.cons_append,
        List.cons_append]
        at joined
      rcases joined.space_for_token with
        stays | ⟨next, rest, merged, split, merges, legibleToo⟩
      · refine ⟨_, reads_spaced isHead, ?_⟩
        rw [spaced, List.append_assoc, ← List.append_assoc, List.cons_append]
        exact stays
      · obtain ⟨others, rfl, rfl⟩ : ∃ others,
          right = next :: others ∧ rest = others ++ behind := by
          cases right with
          | nil =>
              rw [List.nil_append] at split
              rcases ended with nothing | ⟨mark, more, marked, boundary⟩
              · rw [nothing] at split
                cases split
              · obtain ⟨rfl, -⟩ := List.cons.inj (marked.symm.trans split)
                rw [isBoundary_of_isComment merges.isNext] at boundary
                cases boundary
          | cons first others =>
              obtain ⟨rfl, rfl⟩ := List.cons.inj split
              exact ⟨others, rfl, rfl⟩
        obtain ⟨first, left, rfl⟩ : ∃ first others, left = first :: others := by
          cases left with
          | nil =>
              obtain ⟨first, more, begins, notComment⟩ := isHead.begins
              obtain ⟨rfl, -⟩ := List.cons.inj begins
              have isFirst : last.kind.isComment = true := merges.isFirst
              rw [notComment] at isFirst
              cases isFirst
          | cons first left => exact ⟨first, left, rfl⟩
        have whole : before ++ (first :: left ++ merged :: others ++ behind) =
            before ++ first :: left ++ merged :: (others ++ behind) := by
          simp only [List.append_assoc, List.cons_append]
        refine ⟨_, reads_merged isHead notImport merges, ?_⟩
        rw [whole]
        exact legibleToo

end Remark

/-! ## Reading the source again -/

theorem Token.Legible.ink_pos {tokens : List Token} (legible : Legible tokens)
    {token : Token} (member : token ∈ tokens) : 0 < Text.ink token.text := by
  induction legible with
  | nil => cases member
  | cons stands _ ih =>
      rcases List.mem_cons.mp member with rfl | later
      · obtain ⟨c, tail, text, starts, -⟩ := stands.reads
        have filled := (gapLength_cons_eq_zero_iff.mp starts).1
        rw [text, Text.ink, List.countP_cons_of_pos (by simp [filled])]
        omega
      · exact ih later

theorem Remark.ink_pos {remark : Remark} (valid : remark.Valid)
    (filled : ∀ token ∈ remark.head, 0 < Text.ink token.text) :
    0 < Text.ink remark.text := by
  cases valid with
  | token _ => exact filled _ (by simp [head])
  | line _ _ plain _ =>
      obtain ⟨line, same⟩ := plain.slashes
      have slashes : Text.ink ['/', '/'] = 2 := by decide
      rw [text, ← same, Text.ink_append, slashes]
      omega

/-- A source is a gap and tokens that spell the rest of it. -/
theorem Outline.exists_legible {source : Text} {items : List Item}
    (outline : ofTokens (Token.scan source) = .ok items) :
    Token.Legible (Item.tokensOf items) ∧ Intact (Item.tokensOf items) ∧
      Token.spelled (Item.tokensOf items) = Token.afterGap source := by
  obtain ⟨tokens, last, scanned, ends, legible, spells, inside⟩ :=
    Token.exists_legible_of_scanFrom
      (Position.first.advance (Token.leadingGap source))
      (Token.gapLength_afterGap source)
  have kept : tokens.filter (·.kind != .endOfInput) = tokens := by
    rw [List.filter_eq_self]
    intro token member
    simpa using inside token member
  have same : Item.tokensOf items = tokens := by
    rw [tokensOf_ofTokens outline, Token.scan, scanned,
      List.filter_append, kept]
    simp [ends]
  have intact : Intact tokens := by
    rcases ofTokens_cases (Token.scan source) with
      ⟨_, _, intact, _⟩ | ⟨flaw, token, failed, _⟩
    · rw [Token.scan, scanned] at intact
      exact intact.of_append.1
    · rw [outline] at failed
      cases failed
  rw [same]
  exact ⟨legible, intact, spells⟩

namespace Stylesheet

/-- Tokens that are the same but for their places make the same stylesheet but
for places. -/
theorem exists_read_of_moved {source : Text} {items : List Item}
    (shaped : Item.Shaped items) (intact : Outline.Intact (Item.tokensOf items))
    (scanned : (Token.scan source).map (Token.moved fun _ => .first) =
      (Item.tokensOf items).map (Token.moved fun _ => .first) ++
        [Token.endAt .first]) :
    ∃ sheet, read source = .ok sheet ∧
      sheet.bare = (ofItems none items).bare := by
  have ending : (Token.endAt .first).kind = .endOfInput := rfl
  have outline := Outline.ofTokens_tokensOf shaped intact ending
  have whole : (Item.tokensOf items).map (Token.moved fun _ => .first) ++
      [Token.endAt .first] =
      (Item.tokensOf items ++ [Token.endAt .first]).map
        (Token.moved fun _ => .first) := by
    rw [List.map_append]
    rfl
  have moved := Outline.ofTokens_moved (fun _ => .first) (Token.scan source)
  rw [scanned, whole, Outline.ofTokens_moved, outline] at moved
  cases found : Outline.ofTokens (Token.scan source) with
  | error fault =>
      rw [found] at moved
      cases moved
  | ok others =>
      rw [found] at moved
      have same : Item.movedAll (fun _ => .first) items =
          Item.movedAll (fun _ => .first) others :=
        Except.ok.inj moved
      have old := ofItems_moved (fun _ => .first) shaped none
      have new :=
        ofItems_moved (fun _ => .first) (Outline.shaped_ofTokens found) none
      refine ⟨ofItems none others, ?_, ?_⟩
      · rw [read, parse, found]
        rfl
      · rw [bare, bare, ← old, ← new, same]

/-- With a space in place of a comment inside a head, the source is read as
before, but for what the head says without the comment.  The stylesheet is the
same, places aside, exactly if nothing is kept of the item or the comment is
harmless. -/
theorem read_space_for_comment {source : Text} {context : Context}
    {remark : Remark}
    (outline : Outline.ofTokens (Token.scan source) =
      .ok (context.fill remark.head))
    (valid : remark.Valid)
    (notImport : (Head.ofTokens remark.head).isImport = false) :
    ∃ front back other,
      front = Token.leadingGap source ++
        (Token.spelled context.front ++ remark.front) ∧
      source = front ++ (remark.text ++ back) ∧
      read source = .ok (ofItems none (context.fill remark.head)) ∧
      read (front ++ ' ' :: back) = .ok other ∧
      other.bare = (ofItems none (context.fill remark.spaced)).bare ∧
      (other.bare = (ofItems none (context.fill remark.head)).bare ↔
        (context.keeps (Head.ofTokens remark.head) = true →
          remark.harmless = true)) := by
  have shaped := Outline.shaped_ofTokens outline
  obtain ⟨first, -, rest, -, filled, -⟩ := remark.exists_first
  have isHead := Context.isHead_of_shaped shaped
    (by rw [filled]; exact List.cons_ne_nil first rest)
  obtain ⟨legible, intact, spells⟩ := Outline.exists_legible outline
  rw [Context.tokensOf_fill] at legible intact spells
  have inked : 0 < Text.ink remark.text := by
    apply Remark.ink_pos valid
    intro token member
    exact legible.ink_pos (by simp [member])
  obtain ⟨tokens, reads, legibleToo⟩ :=
    Remark.exists_reads valid isHead notImport legible
      (Context.back_of_shaped shaped)
  have intactToo := reads.intact intact
  have spelling : Token.spelled (context.front ++ (tokens ++ context.back)) =
      Token.spelled context.front ++ remark.front ++
        ' ' :: (remark.back ++ Token.spelled context.back) := by
    rw [Token.spelled_append, Token.spelled_append, reads.spelled,
      Remark.spelled_spaced]
    simp only [List.append_assoc, List.cons_append]
  have scanned := legible.scan_behind_gap (by simp [filled]) spells legibleToo
  rw [← Context.tokensOf_fill] at scanned intactToo
  obtain ⟨other, readToo, bareToo⟩ :=
    exists_read_of_moved (Context.shaped_fill shaped reads.isHead)
      intactToo scanned
  rw [Context.tokensOf_fill, spelling, List.append_assoc] at readToo
  have alike := Remark.alike notImport
  have same : other.bare =
      (ofItems none (context.fill remark.spaced)).bare := by
    have change := @change_fill remark.spaced tokens
      (by rw [reads.sameHead]; exact alike.right) context none
    rw [bareToo, change.bare_iff]
    exact fun _ => reads.sameHead.symm
  refine ⟨_, remark.back ++ Token.spelled context.back, other, rfl, ?_, ?_,
    ?_, same, ?_⟩
  · calc source
        = Token.leadingGap source ++ Token.afterGap source :=
          (Token.leadingGap_append_afterGap source).symm
      _ = _ := by
          rw [← spells, Token.spelled_append, Token.spelled_append,
            Remark.spelled_head valid]
          simp only [List.append_assoc]
  · rw [read, parse, outline]
    rfl
  · rw [List.append_assoc, List.append_assoc]
    exact readToo
  · rw [same, (change_fill alike context none).bare_iff,
      Remark.ofTokens_spaced_iff valid inked notImport]

/-- A comment between two parts of a selector, in a rule inside another. -/
theorem read_space_for_comment_nested :
    ∃ (context : Context) (remark : Remark) (other : Stylesheet),
      Outline.ofTokens (Token.scan "p\x7ba/**/b\x7b\x7d\x7d".toList) =
        .ok (context.fill remark.head) ∧
      remark.Valid ∧ (Head.ofTokens remark.head).isImport = false ∧
      context.keeps (Head.ofTokens remark.head) = true ∧
      remark.harmless = false ∧
      read "p\x7ba b\x7b\x7d\x7d".toList = .ok other ∧
      other.bare = (ofItems none (context.fill remark.spaced)).bare ∧
      other.bare ≠ (ofItems none (context.fill remark.head)).bare := by
  let p : Token := ⟨.ident "p".toList, ⟨⟨0, 1, 1⟩, ⟨1, 1, 2⟩⟩, "p".toList, []⟩
  let outer : Token := ⟨.openBrace, ⟨⟨1, 1, 2⟩, ⟨2, 1, 3⟩⟩, "\x7b".toList, []⟩
  let a : Token := ⟨.ident "a".toList, ⟨⟨2, 1, 3⟩, ⟨3, 1, 4⟩⟩, "a".toList, []⟩
  let comment : Token :=
    ⟨.comment .block "/**/".toList, ⟨⟨3, 1, 4⟩, ⟨7, 1, 8⟩⟩, "/**/".toList, []⟩
  let b : Token := ⟨.ident "b".toList, ⟨⟨7, 1, 8⟩, ⟨8, 1, 9⟩⟩, "b".toList, []⟩
  let opening : Token :=
    ⟨.openBrace, ⟨⟨8, 1, 9⟩, ⟨9, 1, 10⟩⟩, "\x7b".toList, []⟩
  let closing : Token :=
    ⟨.closeBrace, ⟨⟨9, 1, 10⟩, ⟨10, 1, 11⟩⟩, "\x7d".toList, []⟩
  let last : Token :=
    ⟨.closeBrace, ⟨⟨10, 1, 11⟩, ⟨11, 1, 12⟩⟩, "\x7d".toList, []⟩
  let context : Context :=
    .inside [] [p] outer (.block [] opening [] closing []) last []
  let remark : Remark := .token [] a comment [b]
  have scanned : Token.scan "p\x7ba/**/b\x7b\x7d\x7d".toList =
      [p, outer, a, comment, b, opening, closing, last,
        Token.endAt ⟨11, 1, 12⟩] := by
    decide +kernel
  have outline : Outline.ofTokens
      (Token.scan "p\x7ba/**/b\x7b\x7d\x7d".toList) =
      .ok (context.fill remark.head) := by
    rw [scanned]
    rfl
  have valid : remark.Valid := .token rfl
  obtain ⟨front, back, other, place, split, -, reads, bareToo, same⟩ :=
    read_space_for_comment outline valid rfl
  have before : front = "p\x7ba".toList := place.trans (by decide)
  rw [before] at split reads
  have behind : "b\x7b\x7d\x7d".toList = back := by
    have whole : "p\x7ba".toList ++ ("/**/".toList ++ "b\x7b\x7d\x7d".toList) =
        "p\x7ba".toList ++ ("/**/".toList ++ back) := split
    exact List.append_cancel_left (List.append_cancel_left whole)
  rw [← behind] at reads
  refine ⟨context, remark, other, outline, valid, rfl, rfl, rfl, reads,
    bareToo, ?_⟩
  intro equal
  cases same.mp equal rfl

/-- A selector and a prelude show comments, and a comment hides the name of a
mixin and the arguments of an include. -/
theorem comments_in_heads_shown :
    let place : Span := ⟨.first, .first⟩
    let commented :=
      ".a /* x */ .b \x7b\x7d @mixin /* y */ c \x7b\x7d @include d /* z */ (e);".toList
    let spaced :=
      ".a   .b \x7b\x7d @mixin   c \x7b\x7d @include d   (e);".toList
    (read commented).map (·.bare.nodes) =
        .ok [.rule ".a /* x */ .b".toList none [] place,
          .atRule ⟨"mixin".toList, none, none, "/* y */ c".toList⟩ none
            (some []) place,
          .including "d".toList none none place] ∧
      (read spaced).map (·.bare.nodes) =
        .ok [.rule ".a .b".toList none [] place,
          .atRule ⟨"mixin".toList, some "c".toList, none, "c".toList⟩ none
            (some []) place,
          .including "d".toList (some "e".toList) none place] := by
  intro place commented spaced
  constructor
  · decide +kernel
  · decide +kernel

end Stylesheet

end StyleAudit
