import StyleAudit.Proofs.Stylesheet.Relocation
import StyleAudit.Proofs.Token.Append

/-!
# Texts that are read token by token

A list of tokens spells a text.  The text is read as these tokens again when
each of them stands well in front of the others: it is read as it is, and its
gap is the gap there.  So a change inside the text has to be looked at in one
place only, and what is in front of that place stays, as long as the same token
begins there.
-/

namespace StyleAudit

namespace Token

/-- The text of the tokens with their gaps. -/
def spelled (tokens : List Token) : Text :=
  tokens.flatMap fun token => token.text ++ token.gap

theorem spelled_nil : spelled [] = [] :=
  rfl

theorem spelled_cons (token : Token) (rest : List Token) :
    spelled (token :: rest) = token.text ++ (token.gap ++ spelled rest) := by
  rw [spelled, List.flatMap_cons, List.append_assoc]
  rfl

theorem spelled_append (left right : List Token) :
    spelled (left ++ right) = spelled left ++ spelled right :=
  List.flatMap_append

/-- In front of `behind`, the token is read as it is. -/
structure Stands (token : Token) (behind : Text) : Prop where
  reads : ∃ c tail, token.text = c :: tail ∧
    gapLength false (c :: (tail ++ (token.gap ++ behind))) = 0 ∧
    Lexeme.read c (tail ++ (token.gap ++ behind)) = ⟨token.kind, tail.length⟩
  gap : gapLength false (token.gap ++ behind) = token.gap.length

/-- The text of the tokens is read as these tokens. -/
inductive Legible : List Token → Prop where
  | nil : Legible []
  | cons {token : Token} {rest : List Token} :
      Stands token (spelled rest) → Legible rest → Legible (token :: rest)

theorem Legible.of_append {left right : List Token}
    (legible : Legible (left ++ right)) :
    Legible right := by
  induction left with
  | nil => exact legible
  | cons token left ih =>
      cases legible with
      | cons _ later => exact ih later

/-! ## Scanning -/

private theorem gapLength_drop (flag : Bool) (text : Text) :
    gapLength false (text.drop (gapLength flag text)) = 0 := by
  induction text generalizing flag with
  | nil => rw [List.drop_nil, gapLength]
  | cons c rest ih =>
      cases flag with
      | true =>
          rw [gapLength_inside, List.drop_succ_cons]
          exact ih _
      | false =>
          by_cases blank : Text.isBlank c = true
          · rw [gapLength_of_blank blank, List.drop_succ_cons]
            exact ih false
          · by_cases slashes : isLineComment (c :: rest) = true
            · rw [gapLength_of_lineComment blank slashes, List.drop_succ_cons]
              exact ih true
            · rw [gapLength_of_token blank slashes, List.drop_zero,
                gapLength_of_token blank slashes]

theorem gapLength_afterGap (text : Text) :
    gapLength false (afterGap text) = 0 :=
  gapLength_drop false text

private theorem length_leadingGap (text : Text) :
    (leadingGap text).length = gapLength false text := by
  rw [leadingGap, List.length_take, Nat.min_eq_left (gapLength_le false text)]

theorem gaps_of_gapLength {gap behind : Text}
    (isGap : gapLength false (gap ++ behind) = gap.length) :
    leadingGap (gap ++ behind) = gap ∧ afterGap (gap ++ behind) = behind := by
  rw [leadingGap, afterGap, isGap, List.take_left, List.drop_left]
  exact ⟨rfl, rfl⟩

/-- The tokens of a text spell it and are legible. -/
theorem exists_legible_of_scanFrom (position : Position) {text : Text}
    (starts : gapLength false text = 0) :
    ∃ tokens last, scanFrom position text = tokens ++ [last] ∧
    last.kind = .endOfInput ∧
      Legible tokens ∧ spelled tokens = text ∧
      ∀ token ∈ tokens, token.kind ≠ .endOfInput := by
  fun_induction scanFrom position text with
  | case1 position => exact ⟨[], endAt position, rfl, rfl, .nil, rfl, by simp⟩
  | case2 position c rest first ih =>
      obtain ⟨tokens, last, scanned, ends, legible, spells, inside⟩ :=
        ih (gapLength_afterGap _)
      have joined : first.gap ++ spelled tokens =
          rest.drop (Lexeme.read c rest).tail := by
        rw [spells]
        exact leadingGap_append_afterGap _
      have whole : rest.take (Lexeme.read c rest).tail ++
          (first.gap ++ spelled tokens) = rest := by
        rw [joined, List.take_append_drop]
      refine ⟨first :: tokens, last, by rw [scanned, List.cons_append], ends,
        .cons ⟨?_, ?_⟩ legible, ?_, ?_⟩
      · refine ⟨c, rest.take (Lexeme.read c rest).tail, rfl, ?_⟩
        rw [whole, List.length_take,
          Nat.min_eq_left (Lexeme.tail_read_le c rest)]
        exact ⟨starts, rfl⟩
      · rw [joined]
        exact (length_leadingGap _).symm
      · rw [spelled_cons]
        exact congrArg (c :: ·) whole
      · intro token member
        rcases List.mem_cons.mp member with rfl | later
        · exact (Lexeme.sound_read c rest).notEnd
        · exact inside token later

/-- A legible text is read as the tokens that spell it, wherever it stands. -/
theorem Legible.scanFrom {tokens : List Token} (legible : Legible tokens)
    (position : Position) :
    (Token.scanFrom position (spelled tokens)).map
      (Token.moved fun _ => .first) =
      tokens.map (Token.moved fun _ => .first) ++ [endAt .first] := by
  induction legible generalizing position with
  | nil =>
      rw [spelled, List.flatMap_nil, Token.scanFrom]
      rfl
  | @cons token rest stands _ ih =>
      obtain ⟨c, tail, text, -, reads⟩ := stands.reads
      obtain ⟨gap, behind⟩ := gaps_of_gapLength stands.gap
      rw [spelled_cons, text, List.cons_append, scanFrom_cons]
      simp only [reads, List.take_left, List.drop_left, gap, behind,
        List.map_cons, ih, List.cons_append]
      rw [Token.moved, Token.moved, text]
      rfl

/-! ## Gaps -/

theorem isGap_of_gapLength {gap behind : Text}
    (isGap : gapLength false (gap ++ behind) = gap.length) :
    IsGap behind gap := by
  have found := isGap_leadingGap (gap ++ behind)
  obtain ⟨front, back⟩ := gaps_of_gapLength isGap
  rwa [front, back] at found

theorem gapLength_inside_line {line : Text} (oneLine : '\n' ∉ line)
    (more : Text) :
    gapLength true (line ++ more) = line.length + gapLength true more := by
  induction line with
  | nil => rw [List.nil_append, List.length_nil, Nat.zero_add]
  | cons c line ih =>
      rw [List.mem_cons, not_or] at oneLine
      have inside : (c != '\n') = true := by simpa using Ne.symm oneLine.1
      rw [List.cons_append, gapLength_inside, inside, ih oneLine.2,
        List.length_cons]
      omega

theorem IsPlainComment.isLineComment_append {comment more : Text}
    (plain : IsPlainComment comment) (ended : AtLineEnd more) :
    isLineComment (comment ++ more) = true := by
  rw [isLineComment_iff, isPrefix_append_iff_of_atLineEnd (by decide) ended,
    isPrefix_append_iff_of_atLineEnd (by decide) ended,
    isPrefix_append_iff_of_atLineEnd (by decide) ended]
  exact ⟨plain.slashes, plain.noDoc⟩

theorem IsPlainComment.gapLength_append {comment more : Text}
    (plain : IsPlainComment comment) (ended : AtLineEnd more) :
    gapLength false (comment ++ more) =
      comment.length + gapLength false more := by
  have slashes := plain.isLineComment_append ended
  have oneLine := plain.oneLine
  obtain ⟨line, rfl⟩ := plain.slashes
  have lineEnd : gapLength true more = gapLength false more := by
    rcases ended with rfl | ⟨rest, rfl⟩
    · rfl
    · rw [gapLength_inside, gapLength_of_blank Text.isBlank_newline]
      rfl
  have inside : '\n' ∉ '/' :: line := fun member => oneLine (.tail _ member)
  have whole : ['/', '/'] ++ line ++ more = '/' :: ('/' :: line ++ more) := rfl
  rw [whole] at slashes ⊢
  rw [gapLength_of_lineComment (by decide) slashes,
    gapLength_inside_line inside, lineEnd]
  simp only [List.length_append, List.length_cons, List.length_nil]
  omega

theorem IsGap.gapLength_append {gap behind : Text} (isGap : IsGap behind gap) :
    gapLength false (gap ++ behind) = gap.length + gapLength false behind := by
  induction isGap with
  | nil => rw [List.nil_append, List.length_nil, Nat.zero_add]
  | blank blank _ ih =>
      rw [List.cons_append, gapLength_of_blank blank, ih, List.length_cons]
      omega
  | comment plain ended _ ih =>
      rw [List.append_assoc, plain.gapLength_append ended, ih,
        List.length_append]
      omega

/-- A gap in front of something other than a newline is a gap in front of
anything. -/
theorem IsGap.in_front_of {gap old : Text} (isGap : IsGap old gap)
    (inLine : ¬ AtLineEnd old) (new : Text) : IsGap new gap := by
  induction isGap with
  | nil => exact .nil
  | blank blank _ ih => exact .blank blank ih
  | @comment comment rest plain ended _ ih =>
      apply IsGap.comment plain _ ih
      cases rest with
      | nil => exact (inLine ended).elim
      | cons c rest =>
          rcases ended with nothing | ⟨others, newline⟩
          · cases nothing
          · obtain ⟨rfl, -⟩ := List.cons.inj newline
            exact .inr ⟨rest ++ new, rfl⟩

/-- Two gaps that a space joins are one gap. -/
theorem gapLength_joined {before after next behind : Text}
    (isGap : IsGap next before) (inLine : ¬ AtLineEnd next)
    (isGapToo : gapLength false (after ++ behind) = after.length) :
    gapLength false ((before ++ ' ' :: after) ++ behind) =
      (before ++ ' ' :: after).length := by
  have joins := isGap.in_front_of inLine (' ' :: (after ++ behind))
  rw [List.append_assoc, List.cons_append, joins.gapLength_append,
    gapLength_of_blank Text.isBlank_space, isGapToo, List.length_append,
    List.length_cons]

/-! ## Doc lines behind a gap -/

theorem isBlank_of_isIndent {c : Char} (indent : isIndent c = true) :
    Text.isBlank c = true := by
  simp only [isIndent, Bool.or_eq_true, beq_iff_eq] at indent
  rcases indent with (rfl | rfl) | rfl
  · decide
  · decide
  · decide

private theorem isDocLine_eq_false_of_ne {c : Char} (noSlash : c ≠ '/')
    (rest : Text) :
    isDocLine (c :: rest) = false := by
  rw [← Bool.not_eq_true, isDocLine_iff]
  rintro ⟨⟨others, three⟩, -⟩
  exact noSlash (List.cons.inj three).1.symm

private theorem afterIndent_of_gapLength {text : Text}
    (starts : gapLength false text = 0) :
    afterIndent text = text := by
  cases text with
  | nil => rfl
  | cons c rest =>
      have filled := (gapLength_cons_eq_zero_iff.mp starts).1
      rw [afterIndent, List.dropWhile_cons, if_neg]
      intro indent
      rw [isBlank_of_isIndent indent] at filled
      cases filled

/-- A doc line is next behind a gap, if nothing but indentation is in front of
it. -/
theorem isDocLine_afterIndent {gap behind : Text}
    (isGap : gapLength false (gap ++ behind) = gap.length)
    (starts : gapLength false behind = 0) :
    isDocLine (afterIndent (gap ++ behind)) =
      (gap.all isIndent && isDocLine behind) := by
  induction gap with
  | nil =>
      rw [List.nil_append, afterIndent_of_gapLength starts]
      rfl
  | cons c gap ih =>
      rw [List.cons_append] at isGap ⊢
      rw [afterIndent, List.dropWhile_cons, List.all_cons]
      by_cases indent : isIndent c = true
      · rw [gapLength_of_blank (isBlank_of_isIndent indent), List.length_cons]
          at isGap
        rw [if_pos indent, indent, Bool.true_and]
        exact ih (Nat.succ.inj isGap)
      · rw [if_neg indent, Bool.eq_false_iff.mpr indent, Bool.false_and,
          Bool.false_and]
        by_cases blank : Text.isBlank c = true
        · apply isDocLine_eq_false_of_ne
          rintro rfl
          exact absurd blank (by decide)
        · by_cases slashes : isLineComment (c :: (gap ++ behind)) = true
          · rw [isLineComment, Bool.and_eq_true, Bool.not_eq_true'] at slashes
            exact slashes.2
          · rw [gapLength_of_token blank slashes, List.length_cons] at isGap
            cases isGap

theorem docLinesLength_behind_gap {gap behind : Text}
    (isGap : gapLength false ('\n' :: gap ++ behind) = ('\n' :: gap).length)
    (starts : gapLength false behind = 0) :
    docLinesLength ('\n' :: gap ++ behind) = 0 ↔
      (gap.all isIndent && isDocLine behind) = false := by
  rw [List.cons_append, gapLength_of_blank Text.isBlank_newline,
    List.length_cons] at isGap
  rw [List.cons_append, docLinesLength_newline,
    isDocLine_afterIndent (Nat.succ.inj isGap) starts]
  split
  · rename_i goesOn
    rw [goesOn]
    constructor
    · intro nothing
      omega
    · intro stops
      cases stops
  · rename_i stops
    exact iff_of_true rfl (Bool.eq_false_iff.mpr stops)

/-! ## What begins in the same way -/

/-- Both texts begin with a token, with the same character, and with a doc line
or not. -/
structure Agree (old new : Text) : Prop where
  head : ∃ c rest others, old = c :: rest ∧ new = c :: others
  starts : gapLength false old = 0
  startsToo : gapLength false new = 0
  docLine : isDocLine new = isDocLine old

theorem Agree.filled {old new : Text} (agree : Agree old new) : old ≠ [] := by
  obtain ⟨c, rest, -, rfl, -⟩ := agree.head
  exact List.cons_ne_nil c rest

theorem Agree.follows {old new : Text} (agree : Agree old new) (gap : Text) :
    Follows (gap ++ old) (gap ++ new) := by
  obtain ⟨c, rest, others, rfl, rfl⟩ := agree.head
  cases gap with
  | nil => exact .inl rfl
  | cons d gap => exact .inl rfl

theorem not_atLineEnd_of_starts {c : Char} {rest : Text}
    (starts : gapLength false (c :: rest) = 0) : ¬ AtLineEnd (c :: rest) := by
  rintro (nothing | ⟨others, newline⟩)
  · cases nothing
  · obtain ⟨rfl, -⟩ := List.cons.inj newline
    rw [gapLength_of_blank Text.isBlank_newline] at starts
    cases starts

theorem Agree.inLine {old new : Text} (agree : Agree old new) :
    ¬ AtLineEnd old := by
  have starts := agree.starts
  obtain ⟨c, rest, -, rfl, -⟩ := agree.head
  exact not_atLineEnd_of_starts starts

theorem Agree.gapLength {old new gap : Text} (agree : Agree old new)
    (isGap : Token.gapLength false (gap ++ old) = gap.length) :
    Token.gapLength false (gap ++ new) = gap.length := by
  have joins := (isGap_of_gapLength isGap).in_front_of agree.inLine new
  rw [joins.gapLength_append, agree.startsToo, Nat.add_zero]

/-- A run of doc lines that stops in front of a gap has a newline there. -/
theorem exists_newline_of_docLinesLength {gap behind : Text}
    (inLine : ¬ AtLineEnd behind) (stops : docLinesLength (gap ++ behind) = 0) :
    ∃ others, gap = '\n' :: others := by
  cases gap with
  | nil => exact (inLine (atLineEnd_of_docLinesLength stops)).elim
  | cons c others =>
      rcases atLineEnd_of_docLinesLength stops with nothing | ⟨rest, newline⟩
      · cases nothing
      · obtain ⟨rfl, -⟩ := List.cons.inj newline
        exact ⟨others, rfl⟩

theorem Agree.docLinesLength {old new gap : Text} (agree : Agree old new)
    (isGap : Token.gapLength false (gap ++ old) = gap.length)
    (stops : Token.docLinesLength (gap ++ old) = 0) :
    Token.docLinesLength (gap ++ new) = 0 := by
  obtain ⟨others, rfl⟩ := exists_newline_of_docLinesLength agree.inLine stops
  rw [docLinesLength_behind_gap isGap agree.starts] at stops
  rw [docLinesLength_behind_gap (agree.gapLength isGap) agree.startsToo,
    agree.docLine]
  exact stops

namespace Stands

theorem starts {token : Token} {behind : Text} (stands : Stands token behind) :
    gapLength false (token.text ++ (token.gap ++ behind)) = 0 := by
  obtain ⟨c, tail, text, starts, -⟩ := stands.reads
  rw [text]
  exact starts

/-- Behind a run of doc lines no other doc line follows. -/
theorem docLinesLength_behind {token : Token} {behind : Text}
    (stands : Stands token behind)
    (isLine : isDocLine (token.text ++ (token.gap ++ behind)) = true) :
    docLinesLength (token.gap ++ behind) = 0 := by
  obtain ⟨c, tail, text, -, reads⟩ := stands.reads
  rw [text, List.cons_append] at isLine
  obtain ⟨-, run⟩ := Lexeme.read_of_isDocLine isLine
  rw [run] at reads
  exact Token.docLinesLength_behind (congrArg Lexeme.tail reads)

/-- A token with another gap, in front of another text. -/
theorem replace {token : Token} {old : Text} (stands : Stands token old)
    (filled : token.gap ++ old ≠ []) {gap new : Text}
    (follows : Follows (token.gap ++ old) (gap ++ new))
    (isGap : gapLength false (gap ++ new) = gap.length)
    (stops : isDocLine (token.text ++ (token.gap ++ old)) = true →
      docLinesLength (gap ++ new) = 0) :
    Stands { token with gap } new ∧
      Agree (token.text ++ (token.gap ++ old))
        (token.text ++ (gap ++ new)) := by
  obtain ⟨c, tail, text, starts, reads⟩ := stands.reads
  rw [text] at stops ⊢
  obtain ⟨startsToo, readsToo, sameLine⟩ :=
    Lexeme.read_replace starts reads filled follows.offersNoMore stops
  exact ⟨⟨⟨c, tail, rfl, startsToo, readsToo⟩, isGap⟩,
    ⟨⟨c, _, _, rfl, rfl⟩, starts, startsToo, sameLine⟩⟩

/-- What begins in the same way may stand behind a token. -/
theorem agree {token : Token} {old new : Text} (stands : Stands token old)
    (agree : Agree old new) :
    Stands token new ∧
      Agree (token.text ++ (token.gap ++ old))
        (token.text ++ (token.gap ++ new)) := by
  have filled : token.gap ++ old ≠ [] := by simp [agree.filled]
  apply stands.replace filled (agree.follows token.gap)
    (agree.gapLength stands.gap)
  intro isLine
  exact agree.docLinesLength stands.gap (stands.docLinesLength_behind isLine)

end Stands

/-- Tokens stay legible when what is behind them begins in the same way. -/
theorem Legible.agree {left old new : List Token}
    (legible : Legible (left ++ old)) (behind : Legible new)
    (agree : Agree (spelled old) (spelled new)) :
    Legible (left ++ new) ∧
      Agree (spelled (left ++ old)) (spelled (left ++ new)) := by
  induction left with
  | nil => exact ⟨behind, agree⟩
  | cons token left ih =>
      cases legible with
      | cons stands later =>
          obtain ⟨legibleToo, agreeToo⟩ := ih later
          obtain ⟨standsToo, begins⟩ := stands.agree agreeToo
          rw [List.cons_append, List.cons_append, spelled_cons, spelled_cons]
          exact ⟨.cons standsToo legibleToo, begins⟩

end Token

end StyleAudit
