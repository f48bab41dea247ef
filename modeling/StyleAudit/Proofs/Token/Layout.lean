import StyleAudit.Token.Scan

/-!
# Where the tokens of a text stand

Scanning hands on a position and the text that is left.  The facts about single
tokens need the other half as well: the text in front of a token, from which its
position comes.  `Layout` keeps both halves, and every statement about the
tokens of a source is an induction over it.
-/

namespace StyleAudit

namespace Token

/-! ## Single lexemes -/

namespace Lexeme

/-- To show something of the token at the front of a text, it is enough to show
it of each way to read one. -/
theorem read_elim {motive : Lexeme → Prop} {c : Char} {rest : Text}
    (mark : ∀ kind ∈ [Kind.openBrace, .closeBrace, .semicolon, .colon, .comma],
      motive (single kind))
    (docLines : c = '/' → Text.beginsWith ['/', '/'] rest →
      motive (docLines rest))
    (comment : c = '/' → Text.beginsWith ['*'] rest → motive (comment rest))
    (string : isQuote c → motive (string c rest))
    (parameters : c = '(' → motive (parameters rest))
    (interpolation : c = '#' → Text.beginsWith ['{'] rest →
      motive (interpolation rest))
    (keyword : c = '@' → motive (signed '@' .atKeyword rest))
    (variableName : c = '$' → motive (signed '$' .variableName rest))
    (word : isWordChar c ∨ c = '\\' →
      motive ⟨.ident ((c :: rest).take (wordLength (c :: rest))),
        wordLength (c :: rest) - 1⟩)
    (delimiter : motive (single (.delimiter c))) :
    motive (read c rest) := by
  unfold read
  refine iteInduction (fun _ => mark _ (by simp)) fun _ => ?_
  refine iteInduction (fun _ => mark _ (by simp)) fun _ => ?_
  refine iteInduction (fun _ => mark _ (by simp)) fun _ => ?_
  refine iteInduction (fun _ => mark _ (by simp)) fun _ => ?_
  refine iteInduction (fun _ => mark _ (by simp)) fun _ => ?_
  refine iteInduction (fun slashes => docLines slashes.1 slashes.2) fun _ => ?_
  refine iteInduction (fun star => comment star.1 star.2) fun _ => ?_
  refine iteInduction (fun quote => string quote) fun _ => ?_
  refine iteInduction (fun opening => parameters opening) fun _ => ?_
  refine iteInduction (fun brace => interpolation brace.1 brace.2) fun _ => ?_
  refine iteInduction (fun sign => keyword sign) fun _ => ?_
  refine iteInduction (fun sign => variableName sign) fun _ => ?_
  exact iteInduction (fun letter => word letter) fun _ => delimiter

/-- What holds of every lexeme in front of `rest`: it is no end mark, and if it
leaves a construct open it takes all of the text. -/
structure Sound (rest : Text) (lexeme : Lexeme) : Prop where
  notEnd : lexeme.kind ≠ .endOfInput
  takesAll : ∀ construct, lexeme.kind = .unterminated construct →
    lexeme.tail = rest.length

theorem sound_unterminated (construct : OpenConstruct) (rest : Text) :
    Sound rest (unterminated construct rest) :=
  ⟨by simp [unterminated], by simp [unterminated]⟩

/-- Behind its sign a word is of the given kind, and a sign alone is a
delimiter. -/
theorem kind_signed {motive : Kind → Prop} (sign : Char) {kind : Text → Kind}
    (rest : Text) (alone : motive (.delimiter sign))
    (word : ∀ name, motive (kind name)) :
    motive (signed sign kind rest).kind := by
  unfold signed
  split
  · exact alone
  · split
    · exact word _
    · exact alone

theorem sound_signed (sign : Char) {kind : Text → Kind} (rest : Text)
    (notEnd : ∀ name, kind name ≠ .endOfInput)
    (closed : ∀ name construct, kind name ≠ .unterminated construct) :
    Sound rest (signed sign kind rest) := by
  constructor
  · exact kind_signed (motive := (· ≠ .endOfInput)) sign rest (by simp) notEnd
  · intro construct unterminated
    exact (kind_signed (motive := (· ≠ .unterminated construct)) sign
      rest (by simp) (fun name => closed name construct) unterminated).elim

theorem sound_read (c : Char) (rest : Text) : Sound rest (read c rest) := by
  apply read_elim
  case mark =>
    intro kind member
    have plain : kind ≠ .endOfInput ∧ ∀ construct,
        kind ≠ .unterminated construct := by
      simp only [List.mem_cons, List.not_mem_nil, or_false] at member
      rcases member with rfl | rfl | rfl | rfl | rfl <;> simp
    exact ⟨plain.1, fun construct same => (plain.2 construct same).elim⟩
  case docLines =>
    intro _ _
    exact ⟨by simp [docLines], by simp [docLines]⟩
  case comment =>
    intro _ _
    unfold comment
    split
    · exact sound_unterminated ..
    · exact ⟨by simp, by simp⟩
  case string =>
    intro _
    unfold string
    split
    · exact sound_unterminated ..
    · exact ⟨by simp, by simp⟩
  case parameters =>
    intro _
    unfold parameters
    split
    · exact sound_unterminated ..
    · exact ⟨by simp, by simp⟩
  case interpolation =>
    intro _ _
    unfold interpolation
    split
    · exact sound_unterminated ..
    · exact ⟨by simp, by simp⟩
  case keyword =>
    intro _
    exact sound_signed '@' rest (by simp) (by simp)
  case variableName =>
    intro _
    exact sound_signed '$' rest (by simp) (by simp)
  case word =>
    intro _
    exact ⟨by simp, by simp⟩
  case delimiter => exact ⟨by simp [single], by simp [single]⟩

end Lexeme

/-! ## Tokens in their places -/

/-- The token that begins with `c`, with `front` before it and `rest` behind. -/
def readAt (front : Text) (c : Char) (rest : Text) : Token :=
  let text := c :: rest.take (Lexeme.read c rest).tail
  { kind := (Lexeme.read c rest).kind,
    span :=
      ⟨Position.first.advance front, Position.first.advance (front ++ text)⟩,
    text, gap := leadingGap (rest.drop (Lexeme.read c rest).tail) }

/-- The tokens of `source` that stand behind `front`. -/
inductive Layout (source : Text) : (front : Text) → List Token → Prop where
  | done : Layout source source [endAt (Position.first.advance source)]
  | token {front : Text} {c : Char} {rest : Text} {tokens : List Token} :
      source = front ++ c :: rest →
      Layout source
        (front ++ (readAt front c rest).text ++ (readAt front c rest).gap)
        tokens →
      Layout source front (readAt front c rest :: tokens)

/-- The text behind a token and its gap. -/
def readBehind (c : Char) (rest : Text) : Text :=
  afterGap (rest.drop (Lexeme.read c rest).tail)

theorem readAt_append_readBehind (front : Text) (c : Char) (rest : Text) :
    front ++ (readAt front c rest).text ++ (readAt front c rest).gap ++
      readBehind c rest = front ++ c :: rest := by
  simp [readAt, readBehind, List.append_assoc]

private theorem readFrom_advance (front : Text) (c : Char) (rest : Text) :
    readFrom (Position.first.advance front) c rest = readAt front c rest := by
  rw [readFrom, readAt, Position.advance_append]

/-- The first token of a text, field by field. -/
theorem scanFrom_cons (position : Position) (c : Char) (rest : Text) :
    scanFrom position (c :: rest) =
      { kind := (Lexeme.read c rest).kind,
        span := ⟨position,
          position.advance (c :: rest.take (Lexeme.read c rest).tail)⟩,
        text := c :: rest.take (Lexeme.read c rest).tail,
        gap := leadingGap (rest.drop (Lexeme.read c rest).tail) } ::
        scanFrom
          ((position.advance (c :: rest.take (Lexeme.read c rest).tail)).advance
            (leadingGap (rest.drop (Lexeme.read c rest).tail)))
          (afterGap (rest.drop (Lexeme.read c rest).tail)) := by
  rw [scanFrom]
  rfl

private theorem layout_scanFrom (front back : Text) :
    Layout (front ++ back) front
      (scanFrom (Position.first.advance front) back) := by
  generalize start : Position.first.advance front = position
  fun_induction scanFrom position back generalizing front with
  | case1 position =>
      subst start
      have finished : Layout front front
          [endAt (Position.first.advance front)] :=
        .done
      simpa using finished
  | case2 position c rest token ih =>
      subst start
      have placed : token = readAt front c rest := readFrom_advance front c rest
      rw [placed] at ih ⊢
      have later := ih
        (front ++ (readAt front c rest).text ++ (readAt front c rest).gap)
        (Position.advance_append _ _ _)
      have joined := readAt_append_readBehind front c rest
      rw [readBehind] at joined
      rw [joined] at later
      exact Layout.token rfl later

/-- The tokens of a source stand behind the gap at its front. -/
theorem layout_scan (source : Text) :
    Layout source (leadingGap source) (scan source) := by
  have laid := layout_scanFrom (leadingGap source) (afterGap source)
  rwa [leadingGap_append_afterGap] at laid

namespace Layout

/-- What stands in front of the tokens is in front of the source. -/
theorem front_isPrefix {source front : Text} {tokens : List Token}
    (laid : Layout source front tokens) : front <+: source := by
  cases laid with
  | done => exact List.prefix_refl source
  | token whole _ => exact ⟨_, whole.symm⟩

private theorem eq_endAt {source : Text} {tokens : List Token}
    (laid : Layout source source tokens) :
    tokens = [endAt (Position.first.advance source)] := by
  cases laid with
  | done => rfl
  | token whole _ => simp at whole

/-- Behind a construct that is left open there is only the end mark. -/
theorem eq_endAt_of_unterminated {source front : Text}
    {tokens before after : List Token} (laid : Layout source front tokens)
    {token : Token} {construct : OpenConstruct}
    (split : tokens = before ++ token :: after)
    (leftOpen : token.kind = .unterminated construct) :
    after = [endAt (Position.first.advance source)] := by
  induction laid generalizing before with
  | done =>
      cases before with
      | nil =>
          obtain ⟨rfl, _⟩ := List.cons.inj split
          simp [endAt] at leftOpen
      | cons _ before => simp at split
  | @token front c rest tokens whole later ih =>
      cases before with
      | nil =>
          obtain ⟨rfl, rfl⟩ := List.cons.inj split
          have all := (Lexeme.sound_read c rest).takesAll construct leftOpen
          have reached : front ++ (readAt front c rest).text ++
              (readAt front c rest).gap = source := by
            simp [readAt, all, leadingGap, whole]
          rw [reached] at later
          exact later.eq_endAt
      | cons _ before => exact ih (List.cons.inj split).2

end Layout

end Token

end StyleAudit
