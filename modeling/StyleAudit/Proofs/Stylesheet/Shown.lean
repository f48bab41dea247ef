import Mathlib.Data.List.TakeWhile
import StyleAudit.Proofs.Stylesheet.Relocation
import StyleAudit.Proofs.Text.Words
import StyleAudit.Proofs.Token.Spaced

/-!
# What heads show of comments

A comment inside the head of an item is passed over in search of boundaries, but
it is not taken out of the text.  A selector or the prelude of an at-rule shows
it, if anything but comments follows in the head, and the name and parameters of
an at-rule or an include are looked for up to the first comment only.
-/

namespace StyleAudit

namespace Token

/-! ## Trailing comments -/

theorem dropTrailingComments_append_comments (left : List Token)
    {right : List Token} (comments : right.all (·.kind.isComment) = true) :
    dropTrailingComments (left ++ right) = dropTrailingComments left := by
  have passed : ∀ token ∈ right.reverse, token.kind.isComment = true := by
    intro token member
    exact List.all_eq_true.mp comments token (List.mem_reverse.mp member)
  rw [dropTrailingComments, List.reverse_append,
    List.dropWhile_append_of_pos passed]
  rfl

theorem dropTrailingComments_append (left : List Token) {right : List Token}
    (others : ¬ right.all (·.kind.isComment) = true) :
    dropTrailingComments (left ++ right) = left ++ dropTrailingComments right ∧
      dropTrailingComments right ≠ [] := by
  have kept : right.reverse.dropWhile (·.kind.isComment) ≠ [] := by
    intro nothing
    rw [List.dropWhile_eq_nil_iff] at nothing
    exact others (List.all_eq_true.mpr fun token member =>
      nothing token (List.mem_reverse.mpr member))
  constructor
  · rw [dropTrailingComments, dropTrailingComments, List.reverse_append,
      List.dropWhile_append, if_neg (by simpa using kept), List.reverse_append,
      List.reverse_reverse]
  · simpa [dropTrailingComments] using kept

theorem runText_append (left : List Token) {right : List Token}
    (filled : right ≠ []) :
    runText (left ++ right) = spelled left ++ runText right := by
  induction left with
  | nil => rfl
  | cons token left ih =>
      obtain ⟨next, others, split⟩ : ∃ next others,
        left ++ right = next :: others :=
        List.exists_cons_of_ne_nil (by simp [filled])
      rw [List.cons_append, split, runText, ← split, ih, spelled_cons]
      simp only [List.append_assoc]

/-- What is shown of the tokens: their text up to the last one that is no
comment, with blanks made one. -/
def shown (tokens : List Token) : Text :=
  Text.normalizeBlanks (runText (dropTrailingComments tokens))

/-- In front of comments only, a gap does not show. -/
theorem shown_last (left : List Token) (last : Token) (gap : Text) :
    shown (left ++ [{ last with gap }]) = shown (left ++ [last]) := by
  by_cases comment : last.kind.isComment = true
  · rw [shown, shown,
      dropTrailingComments_append_comments left (by simpa using comment),
      dropTrailingComments_append_comments left (by simpa using comment)]
  · have alone : ∀ token : Token, token.kind = last.kind →
        dropTrailingComments (left ++ [token]) = left ++ [token] := by
      intro token kind
      rw [(dropTrailingComments_append left (by simpa [kind] using comment)).1]
      simp [dropTrailingComments, kind, comment]
    rw [shown, shown, alone { last with gap } rfl, alone last rfl,
      runText_append left (by simp), runText_append left (by simp)]
    rfl

theorem ink_shown_append (front : List Token) {right : List Token}
    (others : ¬ right.all (·.kind.isComment) = true) :
    Text.ink (shown (front ++ right)) =
      Text.ink (spelled front) +
        Text.ink (runText (dropTrailingComments right)) := by
  obtain ⟨split, filled⟩ := dropTrailingComments_append front others
  rw [shown, Text.ink_normalizeBlanks, split, runText_append front filled,
    Text.ink_append]

theorem shown_of_comments {tokens : List Token}
    (comments : tokens.all (·.kind.isComment) = true) : shown tokens = [] := by
  have nothing := dropTrailingComments_append_comments [] comments
  rw [List.nil_append] at nothing
  rw [shown, nothing]
  rfl

/-- Whether a comment shows depends on what follows: with a space in its place
the tokens look the same only if nothing but comments follows. -/
theorem shown_space_iff (left : List Token) (last : Token)
    {inner right : List Token} {gap : Text}
    (comments : inner.all (·.kind.isComment) = true)
    (less : Text.ink gap < Text.ink (last.gap ++ spelled inner)) :
    shown (left ++ last :: (inner ++ right)) =
      shown (left ++ { last with gap } :: right) ↔
      right.all (·.kind.isComment) = true := by
  constructor
  · intro same
    by_contra others
    have old := ink_shown_append (left ++ last :: inner) others
    have new := ink_shown_append (left ++ [{ last with gap }]) others
    have oldSpelled : spelled (left ++ last :: inner) =
        spelled left ++ (last.text ++ (last.gap ++ spelled inner)) := by
      rw [spelled_append, spelled_cons]
    have newSpelled : spelled (left ++ [{ last with gap }]) =
        spelled left ++ (last.text ++ gap) := by
      rw [spelled_append, spelled_cons, spelled_nil, List.append_nil]
    rw [oldSpelled, Text.ink_append, Text.ink_append, List.append_assoc,
      List.cons_append, same]
      at old
    rw [newSpelled, Text.ink_append, Text.ink_append, List.append_assoc,
      List.singleton_append]
      at new
    omega
  · intro behind
    have all : (inner ++ right).all (·.kind.isComment) = true := by
      rw [List.all_append, comments, behind]
      rfl
    have old := dropTrailingComments_append_comments (left ++ [last]) all
    have new :=
      dropTrailingComments_append_comments (left ++ [{ last with gap }]) behind
    rw [List.append_assoc, List.singleton_append] at old new
    rw [shown, shown, old, new]
    exact (shown_last left last gap).symm

end Token

/-! ## Names, parameters and preludes -/

namespace Head

/-- Is this a name without anything behind it? -/
def isLoneName : List Token → Bool
  | [{ kind := .ident _, .. }] => true
  | _ => false

theorem isLoneName_nil : isLoneName [] = false :=
  rfl

theorem isLoneName_cons_cons (first next : Token) (rest : List Token) :
    isLoneName (first :: next :: rest) = false := by
  obtain ⟨kind, span, text, gap⟩ := first
  cases kind <;> rfl

theorem isLoneName_gap (token : Token) (gap : Text) :
    isLoneName [{ token with gap }] = isLoneName [token] := by
  obtain ⟨kind, span, text, space⟩ := token
  cases kind <;> rfl

/-- A name that only comments follow shows with its gap, and all else as it is
shown elsewhere. -/
theorem prelude_cons (first : Token) (rest : List Token) :
    prelude (first :: rest) =
      if isLoneName [first] && rest.all (·.kind.isComment) then
        Text.normalizeBlanks (first.text ++ first.gap)
      else Token.shown (first :: rest) := by
  obtain ⟨kind, span, text, gap⟩ := first
  cases kind with
  | ident name =>
      rw [prelude, isLoneName, Bool.true_and]
      by_cases comments : rest.all (·.kind.isComment) = true
      · have nothing := Token.dropTrailingComments_append_comments [] comments
        rw [List.nil_append] at nothing
        rw [if_pos comments, nothing]
        rfl
      · obtain ⟨split, filled⟩ := Token.dropTrailingComments_append
          [⟨.ident name, span, text, gap⟩] comments
        rw [if_neg comments, Token.shown, ← List.singleton_append, split]
        obtain ⟨token, others, kept⟩ := List.exists_cons_of_ne_nil filled
        rw [kept]
        rfl
  | _ => rfl

theorem atRuleOf_eq_iff {keyword : Text} {first other : Token}
    (same : other.kind = first.kind) {rest others : List Token}
    (parameters : isLoneName [first] = true →
      parameters? others = parameters? rest) :
    atRuleOf keyword (first :: rest) = atRuleOf keyword (other :: others) ↔
      prelude (first :: rest) = prelude (other :: others) := by
  obtain ⟨kind, span, text, gap⟩ := first
  obtain ⟨_, place, word, space⟩ := other
  cases same
  cases kind with
  | ident name =>
      rw [atRuleOf, atRuleOf, parameters rfl]
      simp
  | _ => simp [atRuleOf]

theorem parameters?_append_comment (tokens : List Token) {comment : Token}
    (isComment : comment.kind.isComment = true) (right : List Token) :
    parameters? (tokens ++ comment :: right) = parameters? tokens := by
  cases tokens with
  | nil =>
      obtain ⟨kind, span, text, gap⟩ := comment
      cases kind with
      | comment style inner => rfl
      | _ => cases isComment
  | cons token tokens =>
      obtain ⟨kind, span, text, gap⟩ := token
      cases kind <;> rfl

theorem parameters?_of_comments {tokens : List Token}
    (comments : tokens.all (·.kind.isComment) = true) :
    parameters? tokens = none := by
  cases tokens with
  | nil => rfl
  | cons token tokens =>
      rw [List.all_cons, Bool.and_eq_true] at comments
      exact parameters?_append_comment [] comments.1 tokens

/-- A dotted name ends at a comment. -/
theorem dottedName_append_comment (tokens : List Token) {comment : Token}
    (isComment : comment.kind.isComment = true) (right : List Token) :
    dottedName (tokens ++ comment :: right) =
      ((dottedName tokens).1, (dottedName tokens).2 ++ comment :: right) := by
  obtain ⟨kind, span, text, gap⟩ := comment
  cases kind with
  | comment style inner =>
      fun_induction dottedName tokens with
      | case1 _ _ _ part _ _ _ rest name behind later ih =>
          rw [List.cons_append, List.cons_append, dottedName, ih, later]
      | case2 _ _ _ rest notPart ih =>
          rw [List.cons_append, dottedName, ih]
          intro part place word space others split
          cases rest with
          | nil => cases split
          | cons next rest =>
              obtain ⟨rfl, -⟩ := List.cons.inj split
              exact notPart part place word space rest rfl
      | case3 tokens notDotted notDot =>
          rw [dottedName]
          · intro _ _ _ part place word space rest split
            cases tokens with
            | nil => cases split
            | cons next tokens =>
                obtain ⟨rfl, -⟩ := List.cons.inj split
                exact notDot _ _ _ tokens rfl
          · intro _ _ _ rest split
            cases tokens with
            | nil => cases split
            | cons next tokens =>
                obtain ⟨rfl, -⟩ := List.cons.inj split
                exact notDot _ _ _ tokens rfl
  | _ => cases isComment

/-- An include is read up to its first comment. -/
theorem includingOf_append_comment (tokens : List Token) {comment : Token}
    (isComment : comment.kind.isComment = true) (right : List Token) :
    includingOf (tokens ++ comment :: right) = includingOf tokens := by
  cases tokens with
  | nil =>
      obtain ⟨kind, span, text, gap⟩ := comment
      cases kind with
      | comment style inner => rfl
      | _ => cases isComment
  | cons token tokens =>
      obtain ⟨kind, span, text, gap⟩ := token
      cases kind with
      | ident name =>
          rw [List.cons_append, includingOf, includingOf,
            dottedName_append_comment _ isComment]
          exact congrArg (Head.including _)
            (parameters?_append_comment _ isComment right)
      | _ => rfl

/-- Of an include, only the kinds of the tokens matter. -/
theorem includingOf_congr {tokens others : List Token}
    (kinds : tokens.map Token.kind = others.map Token.kind) :
    includingOf tokens = includingOf others := by
  let kindOnly : Token → Token := fun token => ⟨token.kind, .first, [], []⟩
  have same : tokens.map kindOnly = others.map kindOnly := by
    have mapped :=
      congrArg (List.map fun kind => (⟨kind, .first, [], []⟩ : Token)) kinds
    rwa [List.map_map, List.map_map] at mapped
  have kept : ∀ token, (kindOnly token).kind = token.kind := fun _ => rfl
  rw [← includingOf_map kept tokens, same, includingOf_map kept others]

/-! ## A space in place of a comment -/

section Space

variable {keyword : Text} {last : Token} {inner right : List Token} {gap : Text}
  (comments : inner.all (·.kind.isComment) = true)
  (less : Text.ink gap < Text.ink (last.gap ++ Token.spelled inner))
include comments less

theorem atRuleOf_space_iff {left : List Token}
    (more : isLoneName (left ++ [last]) = false) :
    atRuleOf keyword (left ++ last :: (inner ++ right)) =
        atRuleOf keyword (left ++ { last with gap } :: right) ↔
      right.all (·.kind.isComment) = true := by
  cases left with
  | nil =>
      rw [List.nil_append] at more
      have noName : isLoneName [{ last with gap }] = false := by
        rw [isLoneName_gap, more]
      have parameters : isLoneName [last] = true →
          parameters? right = parameters? (inner ++ right) := by
        intro lone
        rw [more] at lone
        cases lone
      have same := @Token.shown_space_iff [] last inner right gap comments less
      rw [List.nil_append, List.nil_append,
        @atRuleOf_eq_iff keyword last { last with gap } rfl _ _ parameters,
        prelude_cons, prelude_cons, more, noName]
      exact same
  | cons first left =>
      have same := @Token.shown_space_iff (first :: left) last inner right gap
        comments less
      have parameters : parameters? (left ++ { last with gap } :: right) =
          parameters? (left ++ last :: (inner ++ right)) := by
        cases left with
        | nil =>
            obtain ⟨kind, span, text, space⟩ := last
            cases kind <;> rfl
        | cons next left =>
            obtain ⟨kind, span, text, space⟩ := next
            cases kind <;> rfl
      rw [List.cons_append, List.cons_append,
        atRuleOf_eq_iff rfl (fun _ => parameters), prelude_cons, prelude_cons]
      have all : (left ++ last :: (inner ++ right)).all (·.kind.isComment) =
          (left ++ { last with gap } :: right).all (·.kind.isComment) := by
        simp only [List.all_append, List.all_cons, comments, Bool.true_and]
      rw [all]
      split
      · rename_i lone
        simp only [Bool.and_eq_true, List.all_append, List.all_cons] at lone
        exact iff_of_true rfl lone.2.2.2
      · exact same

theorem atRuleOf_lone_iff (lone : isLoneName [last] = true) :
    atRuleOf keyword (last :: (inner ++ right)) =
      atRuleOf keyword ({ last with gap } :: right) ↔
      right.all (·.kind.isComment) = true ∧
        Text.normalizeBlanks (last.text ++ last.gap) =
          Text.normalizeBlanks (last.text ++ gap) := by
  have loneToo : isLoneName [{ last with gap }] = true := by
    rw [isLoneName_gap, lone]
  by_cases behind : right.all (·.kind.isComment) = true
  · have all : (inner ++ right).all (·.kind.isComment) = true := by
      rw [List.all_append, comments, behind]
      rfl
    have parameters : parameters? right = parameters? (inner ++ right) := by
      rw [parameters?_of_comments behind, parameters?_of_comments all]
    rw [@atRuleOf_eq_iff keyword last { last with gap } rfl _ _
      (fun _ => parameters), prelude_cons, prelude_cons, lone, loneToo,
      all, behind]
    simp
  · refine iff_of_false ?_ fun both => behind both.1
    intro same
    have notAll : (inner ++ right).all (·.kind.isComment) = false := by
      rw [List.all_append, comments, Bool.true_and]
      exact Bool.eq_false_iff.mpr behind
    have preludes : prelude (last :: (inner ++ right)) =
        prelude ({ last with gap } :: right) := by
      have shownRule : ∀ tokens,
          (atRuleOf keyword tokens).prelude = prelude tokens := by
        intro tokens
        unfold atRuleOf
        split <;> rfl
      rw [← shownRule, same, shownRule]
    rw [prelude_cons, prelude_cons, notAll, Bool.eq_false_iff.mpr behind,
      Bool.and_false, Bool.and_false] at preludes
    exact behind ((Token.shown_space_iff [] last comments less).mp preludes)

end Space

/-- Behind a comment no name is looked for. -/
theorem atRuleOf_cons_comment (keyword : Text) {comment : Token}
    (isComment : comment.kind.isComment = true) (rest : List Token) :
    atRuleOf keyword (comment :: rest) =
      ⟨keyword, none, none, Token.shown (comment :: rest)⟩ := by
  obtain ⟨kind, span, text, gap⟩ := comment
  cases kind with
  | comment style inner => rfl
  | _ => cases isComment

theorem atRuleOf_comment_iff {keyword : Text} {comment : Token}
    (isComment : comment.kind.isComment = true)
    (inked : 0 < Text.ink comment.text) (right : List Token) :
    atRuleOf keyword (comment :: right) = atRuleOf keyword right ↔
      right.all (·.kind.isComment) = true := by
  constructor
  · intro same
    by_contra others
    rw [atRuleOf_cons_comment keyword isComment] at same
    cases right with
    | nil => exact others rfl
    | cons first rest =>
        obtain ⟨kind, span, text, gap⟩ := first
        have differs : ¬ Token.shown
            (comment :: ⟨kind, span, text, gap⟩ :: rest) =
            Token.shown (⟨kind, span, text, gap⟩ :: rest) := by
          intro equal
          have old := Token.ink_shown_append [comment] others
          have new := Token.ink_shown_append [] others
          rw [List.singleton_append, equal] at old
          rw [List.nil_append] at new
          have filled : 0 < Text.ink (Token.spelled [comment]) := by
            rw [Token.spelled_cons, Text.ink_append]
            omega
          have empty : Text.ink (Token.spelled []) = 0 := rfl
          omega
        cases kind with
        | ident name => cases congrArg AtRule.name same
        | _ => exact differs (congrArg AtRule.prelude same)
  · intro comments
    have all : (comment :: right).all (·.kind.isComment) = true := by
      rw [List.all_cons, isComment, comments]
      rfl
    rw [atRuleOf_cons_comment keyword isComment, Token.shown_of_comments all]
    cases right with
    | nil => rfl
    | cons first rest =>
        have firstComment :=
          List.all_eq_true.mp comments first List.mem_cons_self
        rw [atRuleOf_cons_comment keyword firstComment,
          Token.shown_of_comments comments]

/-- Two heads that begin with the same kind of token say the same, if that is so
of what is looked at in them. -/
theorem ofTokens_eq_iff {first other : Token} (same : other.kind = first.kind)
    {rest others : List Token}
    (notImport : (ofTokens (first :: rest)).isImport = false) :
    ofTokens (first :: rest) = ofTokens (other :: others) ↔
      match first.kind with
      | .atKeyword keyword =>
        if keyword = "include".toList then includingOf rest = includingOf others
        else atRuleOf keyword rest = atRuleOf keyword others
      | _ => Token.shown (first :: rest) = Token.shown (other :: others) := by
  obtain ⟨kind, span, text, gap⟩ := first
  obtain ⟨_, place, word, space⟩ := other
  cases same
  cases kind with
  | atKeyword keyword =>
      rw [ofTokens] at notImport
      rw [ofTokens, ofTokens]
      cases loads : ImportKind.ofKeyword? keyword with
      | some kind =>
          rw [loads] at notImport
          cases notImport
      | none =>
          by_cases included : keyword = "include".toList
          · simp only [if_pos included]
          · simp only [if_neg included, Head.atRule.injEq]
  | _ => exact Head.style.injEq _ _ ▸ Iff.rfl

/-! ## Two comments as one -/

section Merged

variable {first next merged : Token} (merges : Token.Merges first next merged)
include merges

theorem shown_merged (left rest : List Token) :
    Token.shown (left ++ merged :: rest) =
      Token.shown (left ++ first :: next :: rest) := by
  by_cases comments : rest.all (·.kind.isComment) = true
  · have one : (merged :: rest).all (·.kind.isComment) = true := by
      rw [List.all_cons, merges.isMerged, comments]
      rfl
    have two : (first :: next :: rest).all (·.kind.isComment) = true := by
      rw [List.all_cons, List.all_cons, merges.isFirst, merges.isNext, comments]
      rfl
    rw [Token.shown, Token.shown,
      Token.dropTrailingComments_append_comments left one,
      Token.dropTrailingComments_append_comments left two]
  · obtain ⟨one, filled⟩ :=
      Token.dropTrailingComments_append (left ++ [merged]) comments
    obtain ⟨two, -⟩ :=
      Token.dropTrailingComments_append (left ++ [first, next]) comments
    have spelling : Token.spelled (left ++ [merged]) =
        Token.spelled (left ++ [first, next]) := by
      rw [Token.spelled_append, Token.spelled_append, merges.spelled_cons []]
    rw [List.append_assoc, List.singleton_append] at one
    have join : left ++ first :: next :: rest = left ++ [first, next] ++
        rest := by simp
    rw [Token.shown, Token.shown, join, two, one, Token.runText_append _ filled,
      Token.runText_append _ filled, spelling]

private theorem prelude_merged (left rest : List Token) :
    prelude (left ++ merged :: rest) =
      prelude (left ++ first :: next :: rest) := by
  have notName : ∀ {token : Token}, token.kind.isComment = true →
      isLoneName [token] = false := by
    intro token isComment
    obtain ⟨kind, span, text, gap⟩ := token
    cases kind with
    | comment style inner => rfl
    | _ => cases isComment
  cases left with
  | nil =>
      rw [List.nil_append, List.nil_append, prelude_cons, prelude_cons,
        notName merges.isMerged, notName merges.isFirst]
      exact shown_merged merges [] rest
  | cons token left =>
      have all : (left ++ merged :: rest).all (·.kind.isComment) =
          (left ++ first :: next :: rest).all (·.kind.isComment) := by
        simp only [List.all_append, List.all_cons, merges.isMerged,
          merges.isFirst, merges.isNext, Bool.true_and]
      rw [List.cons_append, List.cons_append, prelude_cons, prelude_cons, all,
        ← List.cons_append,
        shown_merged merges, List.cons_append]

private theorem atRuleOf_merged (keyword : Text) (left rest : List Token) :
    atRuleOf keyword (left ++ merged :: rest) =
      atRuleOf keyword (left ++ first :: next :: rest) := by
  cases left with
  | nil =>
      rw [List.nil_append, List.nil_append,
        atRuleOf_cons_comment keyword merges.isMerged,
        atRuleOf_cons_comment keyword merges.isFirst]
      exact congrArg (AtRule.mk keyword none none) (shown_merged merges [] rest)
  | cons token left =>
      rw [List.cons_append, List.cons_append, atRuleOf_eq_iff rfl]
      · exact prelude_merged merges (token :: left) rest
      · intro _
        rw [parameters?_append_comment left merges.isFirst,
          parameters?_append_comment left merges.isMerged]

/-- A head says the same with two comments read as one. -/
theorem ofTokens_merged {token : Token} {left rest : List Token}
    (notImport :
      (ofTokens (token :: (left ++ first :: next :: rest))).isImport = false) :
    ofTokens (token :: (left ++ merged :: rest)) =
      ofTokens (token :: (left ++ first :: next :: rest)) := by
  symm
  rw [ofTokens_eq_iff rfl notImport]
  split
  · rw [atRuleOf_merged merges, includingOf_append_comment left merges.isMerged,
      includingOf_append_comment left merges.isFirst]
    split
    · rfl
    · rfl
  · exact (shown_merged merges (token :: left) rest).symm

end Merged

end Head

end StyleAudit
