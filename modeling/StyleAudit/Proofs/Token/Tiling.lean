import StyleAudit.Proofs.Position
import StyleAudit.Proofs.Text.Boundary
import StyleAudit.Proofs.Token.Gap
import StyleAudit.Proofs.Token.Layout

/-!
# Tokens tile their source

The spans of the tokens follow one another through the source, from its
beginning to its end, and between them stand gaps and nothing else.  So what is
not part of a token is a blank or part of a plain line comment.
-/

namespace StyleAudit

namespace Token

/-- A gap of the source, between two byte offsets. -/
def GapBetween (source : Text) (start stop : Nat) : Prop :=
  ∃ front gap back, source = front ++ gap ++ back ∧
    Text.byteSize front = start ∧ Text.byteSize (front ++ gap) = stop ∧
    IsGap back gap

/-- Is the character behind `front` part of a plain line comment? -/
def InPlainComment (source front : Text) : Prop :=
  ∃ before comment after, source = before ++ comment ++ after ∧
    IsPlainComment comment ∧ before.length ≤ front.length ∧
    front.length < (before ++ comment).length

/-- Does the token cover the byte at this offset? -/
def Covers (token : Token) (offset : Nat) : Prop :=
  token.span.start.offset ≤ offset ∧ offset < token.span.stop.offset

/-- The tokens tile the source: every span lies in it and cuts no character, the
spans follow one another, each token but the end mark covers some text, there is
one end mark, behind all else, and what stands in front of the first token and
between two neighbours is a gap.  So a character that no token covers is a blank
or commented out. -/
structure Tiling (source : Text) (tokens : List Token) : Prop where
  inside : ∀ token ∈ tokens,
    Text.IsBoundary source token.span.start.offset ∧
      Text.IsBoundary source token.span.stop.offset ∧
      token.span.start.offset ≤ token.span.stop.offset ∧
      token.span.stop.offset ≤ Text.byteSize source
  ordered : tokens.Pairwise fun left right =>
    left.span.stop.offset ≤ right.span.start.offset
  filled : ∀ token ∈ tokens, token.kind ≠ .endOfInput →
    token.span.start.offset < token.span.stop.offset
  ended : ∃ others last, tokens = others ++ [last] ∧
    last.kind = .endOfInput ∧
    last.span.start.offset = Text.byteSize source ∧
    last.span.stop.offset = Text.byteSize source ∧
    ∀ token ∈ others, token.kind ≠ .endOfInput
  leading : ∀ first others, tokens = first :: others →
    GapBetween source 0 first.span.start.offset
  between : ∀ before left right after,
    tokens = before ++ left :: right :: after →
    GapBetween source left.span.stop.offset right.span.start.offset
  kept : ∀ front c back, source = front ++ c :: back →
    (∀ token ∈ tokens, ¬ token.Covers (Text.byteSize front)) →
    Text.isBlank c = true ∨ InPlainComment source front

/-! ## One token -/

@[simp] theorem readAt_start_offset (front : Text) (c : Char) (rest : Text) :
    (readAt front c rest).span.start.offset = Text.byteSize front :=
  Position.byteSize_advance_first front

@[simp] theorem readAt_stop_offset (front : Text) (c : Char) (rest : Text) :
    (readAt front c rest).span.stop.offset =
      Text.byteSize (front ++ (readAt front c rest).text) :=
  Position.byteSize_advance_first _

@[simp] theorem endAt_offsets (source : Text) :
    (endAt (Position.first.advance source)).span.start.offset =
        Text.byteSize source ∧
      (endAt (Position.first.advance source)).span.stop.offset =
        Text.byteSize source :=
  ⟨Position.byteSize_advance_first source,
    Position.byteSize_advance_first source⟩

theorem readAt_filled (front : Text) (c : Char) (rest : Text) :
    (readAt front c rest).span.start.offset <
      (readAt front c rest).span.stop.offset := by
  have someText : 0 < Text.byteSize (readAt front c rest).text :=
    Text.byteSize_pos_of_ne_nil (by simp [readAt])
  rw [readAt_start_offset, readAt_stop_offset, Text.byteSize_append]
  omega

theorem readAt_isPrefix (front : Text) (c : Char) (rest : Text) :
    front ++ (readAt front c rest).text <+: front ++ c :: rest := by
  rw [← readAt_append_readBehind front c rest, List.append_assoc]
  exact List.prefix_append _ _

theorem isGap_readAt (front : Text) (c : Char) (rest : Text) :
    IsGap (readBehind c rest) (readAt front c rest).gap :=
  isGap_leadingGap _

theorem gapBetween_readAt (front : Text) (c : Char) (rest : Text) :
    GapBetween (front ++ c :: rest) (readAt front c rest).span.stop.offset
      (Text.byteSize
        (front ++ (readAt front c rest).text ++ (readAt front c rest).gap)) :=
  ⟨front ++ (readAt front c rest).text, (readAt front c rest).gap,
    readBehind c rest, (readAt_append_readBehind front c rest).symm,
    (readAt_stop_offset front c rest).symm, rfl, isGap_readAt front c rest⟩

/-- A character between two ends of a gap is a blank or commented out. -/
theorem blank_or_inPlainComment {source front gap behind before back : Text}
    {c : Char} (gapPlace : source = front ++ gap ++ behind)
    (isGap : IsGap behind gap) (place : source = before ++ c :: back)
    (low : front <+: before) (high : before.length < (front ++ gap).length) :
    Text.isBlank c = true ∨ InPlainComment source before := by
  obtain ⟨skipped, rfl⟩ := low
  have same : gap ++ behind = (skipped ++ [c]) ++ back := by
    rw [gapPlace] at place
    simpa [List.append_assoc] using place
  have long : (skipped ++ [c]).length ≤ gap.length := by
    simp only [List.length_append, List.length_singleton] at high ⊢
    omega
  have through : skipped ++ [c] <+: gap :=
    List.prefix_of_prefix_length_le ⟨back, same.symm⟩
      (List.prefix_append gap behind) long
  obtain ⟨left, split⟩ := through
  have inGap : gap = skipped ++ c :: left := by simpa using split.symm
  rcases isGap.blank_or_commented inGap with
    blank | ⟨inner, comment, after, found, plain, start, stop⟩
  · exact .inl blank
  · refine .inr ⟨front ++ inner, comment, after ++ behind, ?_, plain, ?_, ?_⟩
    · rw [gapPlace, found]
      simp only [List.append_assoc]
    · simpa using start
    · simpa [Nat.add_assoc] using stop

/-! ## All tokens -/

namespace Layout

variable {source front : Text} {tokens : List Token}

theorem head_start {token : Token}
    (laid : Layout source front (token :: tokens)) :
    token.span.start.offset = Text.byteSize front := by
  cases laid with
  | done => exact (endAt_offsets source).1
  | token _ _ => exact readAt_start_offset ..

/-- A token was read somewhere behind `front`, or it is the end mark. -/
theorem mem_cases (laid : Layout source front tokens) {token : Token}
    (member : token ∈ tokens) :
    (∃ before c rest, front <+: before ∧ source = before ++ c :: rest ∧
      token = readAt before c rest) ∨
    token = endAt (Position.first.advance source) := by
  induction laid with
  | done => exact .inr (List.mem_singleton.mp member)
  | @token front c rest tokens whole _ ih =>
      rcases List.mem_cons.mp member with rfl | later
      · exact .inl ⟨front, c, rest, List.prefix_refl front, whole, rfl⟩
      · rcases ih later with ⟨before, d, others, begins, found⟩ | last
        · have wider : front <+: before :=
            ((List.prefix_append front _).trans (List.prefix_append _ _)).trans
              begins
          exact .inl ⟨before, d, others, wider, found⟩
        · exact .inr last

theorem inside (laid : Layout source front tokens) {token : Token}
    (member : token ∈ tokens) :
    Text.IsBoundary source token.span.start.offset ∧
      Text.IsBoundary source token.span.stop.offset := by
  rcases laid.mem_cases member with ⟨before, c, rest, _, whole, rfl⟩ | rfl
  · rw [readAt_start_offset, readAt_stop_offset, whole]
    exact ⟨⟨before, List.prefix_append _ _, rfl⟩,
      ⟨_, readAt_isPrefix before c rest, rfl⟩⟩
  · rw [(endAt_offsets source).1, (endAt_offsets source).2]
    have whole : Text.IsBoundary source (Text.byteSize source) :=
      ⟨source, List.prefix_refl source, rfl⟩
    exact ⟨whole, whole⟩

theorem filled (laid : Layout source front tokens) {token : Token}
    (member : token ∈ tokens) (notEnd : token.kind ≠ .endOfInput) :
    token.span.start.offset < token.span.stop.offset := by
  rcases laid.mem_cases member with ⟨before, c, rest, _, _, rfl⟩ | rfl
  · exact readAt_filled before c rest
  · exact (notEnd rfl).elim

theorem start_le_stop (laid : Layout source front tokens) {token : Token}
    (member : token ∈ tokens) :
    token.span.start.offset ≤ token.span.stop.offset := by
  rcases laid.mem_cases member with ⟨before, c, rest, _, _, rfl⟩ | rfl
  · exact Nat.le_of_lt (readAt_filled before c rest)
  · exact Nat.le_refl _

private theorem front_le_start (laid : Layout source front tokens)
    {token : Token} (member : token ∈ tokens) :
    Text.byteSize front ≤ token.span.start.offset := by
  rcases laid.mem_cases member with ⟨before, c, rest, begins, _, rfl⟩ | rfl
  · rw [readAt_start_offset]
    exact Text.byteSize_le_of_isPrefix begins
  · rw [(endAt_offsets source).1]
    exact Text.byteSize_le_of_isPrefix laid.front_isPrefix

theorem ordered (laid : Layout source front tokens) :
    tokens.Pairwise fun left right =>
      left.span.stop.offset ≤ right.span.start.offset := by
  induction laid with
  | done => exact List.pairwise_singleton _ _
  | @token front c rest tokens _ later ih =>
      refine List.pairwise_cons.mpr ⟨?_, ih⟩
      intro right member
      have behind := later.front_le_start member
      rw [readAt_stop_offset]
      simp only [Text.byteSize_append] at behind ⊢
      omega

theorem ended (laid : Layout source front tokens) :
    ∃ others, tokens = others ++ [endAt (Position.first.advance source)] ∧
      ∀ token ∈ others, token.kind ≠ .endOfInput := by
  induction laid with
  | done => exact ⟨[], rfl, by simp⟩
  | @token front c rest tokens _ _ ih =>
      obtain ⟨others, split, marked⟩ := ih
      refine ⟨readAt front c rest :: others, by rw [split, List.cons_append],
        ?_⟩
      intro token member
      rcases List.mem_cons.mp member with rfl | later
      · exact (Lexeme.sound_read c rest).notEnd
      · exact marked token later

theorem between (laid : Layout source front tokens)
    {before after : List Token} {left right : Token}
    (split : tokens = before ++ left :: right :: after) :
    GapBetween source left.span.stop.offset right.span.start.offset := by
  induction laid generalizing before with
  | done =>
      have lengths := congrArg List.length split
      simp at lengths
      omega
  | @token front c rest tokens whole later ih =>
      cases before with
      | nil =>
          obtain ⟨rfl, rfl⟩ := List.cons.inj split
          rw [later.head_start, whole]
          exact gapBetween_readAt front c rest
      | cons _ before => exact ih (List.cons.inj split).2

/-- The induction goes along the tokens: a character behind `front` is in the
first token, in the gap behind that token, or behind the gap. -/
theorem kept (laid : Layout source front tokens)
    {before back : Text} {c : Char} (place : source = before ++ c :: back)
    (behind : front <+: before)
    (uncovered : ∀ token ∈ tokens, ¬ token.Covers (Text.byteSize before)) :
    Text.isBlank c = true ∨ InPlainComment source before := by
  induction laid with
  | done =>
      have lengths := behind.length_le
      have longer := congrArg List.length place
      simp at longer
      omega
  | @token front d rest tokens whole later ih =>
      have inSource : before <+: source := ⟨_, place.symm⟩
      have textInSource : front ++ (readAt front d rest).text <+: source :=
        whole ▸ readAt_isPrefix front d rest
      rcases Nat.lt_or_ge before.length
        (front ++ (readAt front d rest).text).length with inText | behindText
      · have proper : before <+: front ++ (readAt front d rest).text :=
          List.prefix_of_prefix_length_le inSource textInSource
            (Nat.le_of_lt inText)
        refine (uncovered _ List.mem_cons_self ⟨?_, ?_⟩).elim
        · rw [readAt_start_offset]
          exact Text.byteSize_le_of_isPrefix behind
        · rw [readAt_stop_offset]
          exact Text.byteSize_lt_of_isPrefix proper inText
      · rcases Nat.lt_or_ge before.length
          (front ++ (readAt front d rest).text ++
          (readAt front d rest).gap).length with inGap | behindGap
        · have textInFront : front ++ (readAt front d rest).text <+: before :=
            List.prefix_of_prefix_length_le textInSource inSource behindText
          have gapPlace :=
            whole.trans (readAt_append_readBehind front d rest).symm
          exact blank_or_inPlainComment gapPlace (isGap_readAt front d rest)
            place textInFront inGap
        · have further : front ++ (readAt front d rest).text ++
              (readAt front d rest).gap <+: before :=
            List.prefix_of_prefix_length_le later.front_isPrefix
              inSource behindGap
          apply ih further
          intro token member
          exact uncovered token (List.mem_cons_of_mem _ member)

end Layout

/-- The tokens of a source tile it. -/
theorem tiling_scan (source : Text) : Tiling source (scan source) := by
  have laid := layout_scan source
  constructor
  case inside =>
    intro token member
    obtain ⟨start, stop⟩ := laid.inside member
    exact ⟨start, stop, laid.start_le_stop member, stop.le⟩
  case ordered => exact laid.ordered
  case filled =>
    intro token member notEnd
    exact laid.filled member notEnd
  case ended =>
    obtain ⟨others, split, marked⟩ := laid.ended
    exact ⟨others, _, split, rfl, (endAt_offsets source).1,
      (endAt_offsets source).2, marked⟩
  case leading =>
    intro first others split
    rw [split] at laid
    refine ⟨[], leadingGap source, afterGap source, ?_, rfl, ?_, ?_⟩
    · exact (leadingGap_append_afterGap source).symm
    · rw [laid.head_start, List.nil_append]
    · exact isGap_leadingGap source
  case between =>
    intro before left right after split
    exact laid.between split
  case kept =>
    intro front c back place uncovered
    have inSource : front <+: source := ⟨_, place.symm⟩
    rcases Nat.lt_or_ge front.length (leadingGap source).length with
      inGap | behindGap
    · have gapPlace : source = [] ++ leadingGap source ++ afterGap source :=
        (leadingGap_append_afterGap source).symm
      exact blank_or_inPlainComment gapPlace (isGap_leadingGap source) place
        List.nil_prefix inGap
    · exact laid.kept place
        (List.prefix_of_prefix_length_le laid.front_isPrefix inSource behindGap)
        uncovered

end Token

end StyleAudit
