import StyleAudit.Proofs.Position
import StyleAudit.Proofs.Token.Comment
import StyleAudit.Proofs.Token.Enclosed
import StyleAudit.Proofs.Token.Tiling
import StyleAudit.Token.Stream

/-!
# Constructs that are left open

Comments, strings, parameter lists and interpolations need a mark that closes
them.  Measuring finds this mark just if there is one behind a text that the
construct can hold, and a construct without it takes the rest of the source.  So
it is the last token in front of the end, and there is none just if every
construct that a token begins is closed.
-/

namespace StyleAudit

namespace Token

/-! ## Constructs with two marks -/

/-- What opens a construct that needs a mark to close it. -/
inductive Opening where
  | comment
  | string (quote : Char) (isQuote : isQuote quote = true)
  | parameters
  | interpolation

namespace Opening

/-- The mark that opens the construct. -/
def mark : Opening → Text
  | .comment => ['/', '*']
  | .string quote _ => [quote]
  | .parameters => ['(']
  | .interpolation => ['#', '{']

/-- The mark that closes the construct. -/
def closing : Opening → Text
  | .comment => ['*', '/']
  | .string quote _ => [quote]
  | .parameters => [')']
  | .interpolation => ['}']

/-- The text may stand between the marks. -/
def Encloses : Opening → Text → Prop
  | .comment, inner => Text.Unclosed inner
  | .string quote _, inner => ∃ value, Quotes quote inner value
  | .parameters, inner => Parenthesized inner
  | .interpolation, inner => Braced inner

/-- The construct is closed somewhere in the text behind its opening mark. -/
def ClosedIn (opening : Opening) (behind : Text) : Prop :=
  ∃ inner rest, behind = inner ++ opening.closing ++ rest ∧
    opening.Encloses inner

/-- What the construct is said to leave open.  A parameter list that ends inside
a string leaves the string open. -/
def constructs : Opening → List OpenConstruct
  | .comment => [.comment]
  | .string _ _ => [.string]
  | .parameters => [.parameters, .string]
  | .interpolation => [.interpolation]

theorem mark_ne_nil (opening : Opening) : opening.mark ≠ [] := by
  cases opening <;> exact List.cons_ne_nil _ _

theorem closedIn_of_take {opening : Opening} {behind inner : Text}
    {length : Nat} (taken : behind.take length = inner ++ opening.closing)
    (encloses : opening.Encloses inner) :
    opening.ClosedIn behind := by
  refine ⟨inner, behind.drop length, ?_, encloses⟩
  rw [← taken, List.take_append_drop]

end Opening

/-! ## Measuring finds the closing mark -/

theorem ne_of_isQuote {quote c : Char} (isQuote : isQuote quote = true)
    (other : Token.isQuote c = false) : quote ≠ c := by
  rintro rfl
  rw [isQuote] at other
  cases other

/-! ### Strings -/

theorem Quotes.stringLength_append {quote : Char}
    (isQuote : isQuote quote = true) {inner value : Text}
    (quotes : Quotes quote inner value) (rest : Text) :
    stringLength quote (inner ++ quote :: rest) = some (inner.length + 1) := by
  induction quotes with
  | nil =>
      rw [List.nil_append, stringLength_cons (ne_of_isQuote isQuote rfl),
        if_pos rfl, List.length_nil]
  | plain unescaped other _ ih =>
      rw [List.cons_append, stringLength_cons unescaped, if_neg other, ih,
        Option.map_some, List.length_cons, Nat.add_comm 1]
  | escaped _ ih =>
      rw [List.cons_append, List.cons_append, stringLength, ih, Option.map_some,
        List.length_cons, List.length_cons, Nat.add_comm 2]

/-! ### Interpolations -/

theorem interpolationLength_opening (depth : Nat) (rest : Text) :
    interpolationLength depth ('{' :: rest) =
      (interpolationLength (depth + 1) rest).map (1 + ·) :=
  rfl

private theorem interpolationLength_closing (depth : Nat) (rest : Text) :
    interpolationLength (depth + 1) ('}' :: rest) =
      (interpolationLength depth rest).map (1 + ·) :=
  rfl

private theorem interpolationLength_other {c : Char} (noOpening : c ≠ '{')
    (noClosing : c ≠ '}') (depth : Nat) (rest : Text) :
    interpolationLength depth (c :: rest) =
      (interpolationLength depth rest).map (1 + ·) := by
  rw [interpolationLength.eq_def]
  simp only [if_neg noOpening, if_neg noClosing]

/-- Measuring an interpolation goes past what is balanced. -/
theorem Balanced.interpolationLength_append {inner : Text}
    (braced : Braced inner) {depth : Nat} {rest : Text} {length : Nat}
    (closed : interpolationLength depth rest = some length) :
    interpolationLength depth (inner ++ rest) =
      some (inner.length + length) := by
  induction braced generalizing depth rest length with
  | nil => rwa [List.nil_append, List.length_nil, Nat.zero_add]
  | plain noOpening noClosing _ _ ih =>
      rw [List.cons_append, interpolationLength_other noOpening noClosing,
        ih closed, Option.map_some, List.length_cons]
      congr 1
      omega
  | @pair inner behind _ _ ihInner ihBehind =>
      have closes : interpolationLength (depth + 1) ('}' :: (behind ++ rest)) =
          some (1 + (behind.length + length)) := by
        rw [interpolationLength_closing, ihBehind closed, Option.map_some]
      rw [List.append_assoc, List.cons_append, List.cons_append,
        interpolationLength_opening, ihInner closes, Option.map_some,
        List.length_append, List.length_cons, List.length_cons]
      congr 1
      omega
  | string noQuote => cases noQuote

/-! ### Parameter lists -/

theorem parametersLength_opening (depth : Nat) (rest : Text) :
    parametersLength depth none ('(' :: rest) =
      (parametersLength (depth + 1) none rest).map (1 + ·) :=
  rfl

theorem parametersLength_closing (depth : Nat) (rest : Text) :
    parametersLength (depth + 1) none (')' :: rest) =
      (parametersLength depth none rest).map (1 + ·) :=
  rfl

theorem parametersLength_other {c : Char} (noOpening : c ≠ '(')
    (noClosing : c ≠ ')') (depth : Nat) (rest : Text) :
    parametersLength depth none (c :: rest) =
      (parametersLength depth (if isQuote c then some c else none) rest).map
        (1 + ·) := by
  rw [parametersLength.eq_def]
  simp only [if_neg noOpening, if_neg noClosing]

theorem parametersLength_quoted {depth : Nat} {quote c : Char}
    (unescaped : c ≠ '\\') (rest : Text) :
    parametersLength depth (some quote) (c :: rest) =
      (parametersLength depth (if c = quote then none else some quote) rest).map
        (1 + ·) := by
  rw [parametersLength.eq_def]
  simp only [if_neg unescaped]

private theorem parametersLength_escaped (depth : Nat) (quote c : Char)
    (rest : Text) :
    parametersLength depth (some quote) ('\\' :: c :: rest) =
      (parametersLength depth (some quote) rest).map (2 + ·) :=
  rfl

/-- Measuring a parameter list goes past the rest of a string. -/
theorem Quotes.parametersLength_append {quote : Char}
    (isQuote : isQuote quote = true) {inner value : Text}
    (quotes : Quotes quote inner value) {depth : Nat} {rest : Text}
    {length : Nat} (closed : parametersLength depth none rest = .ok length) :
    parametersLength depth (some quote) (inner ++ quote :: rest) =
      .ok (inner.length + 1 + length) := by
  induction quotes with
  | nil =>
      rw [List.nil_append, parametersLength_quoted (ne_of_isQuote isQuote rfl),
        if_pos rfl, closed, map_ok, List.length_nil, Nat.zero_add]
  | plain unescaped other _ ih =>
      rw [List.cons_append, parametersLength_quoted unescaped,
        if_neg other, ih, map_ok, List.length_cons]
      congr 1
      omega
  | escaped _ ih =>
      rw [List.cons_append, List.cons_append, parametersLength_escaped, ih,
        map_ok, List.length_cons, List.length_cons]
      congr 1
      omega

/-- Measuring a parameter list goes past what is balanced. -/
theorem Balanced.parametersLength_append {inner : Text}
    (parenthesized : Parenthesized inner) {depth : Nat} {rest : Text}
    {length : Nat} (closed : parametersLength depth none rest = .ok length) :
    parametersLength depth none (inner ++ rest) =
      .ok (inner.length + length) := by
  induction parenthesized generalizing depth rest length with
  | nil => rwa [List.nil_append, List.length_nil, Nat.zero_add]
  | plain noOpening noClosing noQuote _ ih =>
      rw [List.cons_append, parametersLength_other noOpening noClosing, noQuote,
        if_neg Bool.false_ne_true, ih closed, map_ok, List.length_cons]
      congr 1
      omega
  | @pair inner behind _ _ ihInner ihBehind =>
      have closes : parametersLength (depth + 1) none
          (')' :: (behind ++ rest)) =
          .ok (1 + (behind.length + length)) := by
        rw [parametersLength_closing, ihBehind closed, map_ok]
      rw [List.append_assoc, List.cons_append, List.cons_append,
        parametersLength_opening, ihInner closes, map_ok, List.length_append,
        List.length_cons, List.length_cons]
      congr 1
      omega
  | @string quote inner value behind isQuote quotes _ ih =>
      have closes := quotes.parametersLength_append isQuote (ih closed)
      rw [List.append_assoc, List.cons_append, List.cons_append,
        parametersLength_other (ne_of_isQuote isQuote rfl)
          (ne_of_isQuote isQuote rfl),
        if_pos isQuote, closes, map_ok, List.length_append, List.length_cons,
        List.length_cons]
      congr 1
      omega

/-! ## One token -/

/-- Does the token leave a construct open? -/
def Kind.isUnterminated : Kind → Bool
  | .unterminated _ => true
  | _ => false

theorem Kind.isUnterminated_iff {kind : Kind} :
    kind.isUnterminated = true ↔ ∃ construct,
      kind = .unterminated construct := by
  cases kind with
  | unterminated construct => exact iff_of_true rfl ⟨construct, rfl⟩
  | _ => exact iff_of_false Bool.false_ne_true (by rintro ⟨_, same⟩; cases same)

namespace Lexeme

theorem read_quote {quote : Char} (quoted : isQuote quote = true)
    (rest : Text) :
    read quote rest = string quote rest := by
  have known : quote = '"' ∨ quote = '\'' := by
    simpa [isQuote] using quoted
  rcases known with rfl | rfl
  · rfl
  · rfl

theorem read_parenthesis (rest : Text) : read '(' rest = parameters rest :=
  rfl

theorem read_hash_brace (rest : Text) :
    read '#' ('{' :: rest) = interpolation ('{' :: rest) :=
  rfl

/-- How a construct is read: it is closed and read as a whole, or it is left
open and said to be. -/
inductive Ends (opening : Opening) (behind : Text) (kind : Kind) : Prop where
  | closed : opening.ClosedIn behind → kind.isUnterminated = false →
    Ends opening behind kind
  | leftOpen {construct : OpenConstruct} : ¬ opening.ClosedIn behind →
      construct ∈ opening.constructs → kind = .unterminated construct →
      Ends opening behind kind

theorem ends_comment (behind : Text) :
    Ends .comment behind (comment ('*' :: behind)).kind := by
  unfold comment
  split
  · rename_i missing
    refine .leftOpen ?_ List.mem_cons_self rfl
    rintro ⟨inner, rest, rfl, unclosed⟩
    rw [List.append_assoc] at missing
    have found := commentLength_of_unclosed unclosed rest
    exact Option.some_ne_none _ (found.symm.trans missing)
  · rename_i length found
    obtain ⟨inner, taken, unclosed⟩ := exists_of_commentLength found
    exact .closed (Opening.closedIn_of_take taken unclosed) rfl

theorem ends_string {quote : Char} (quoted : isQuote quote = true)
    (behind : Text) :
    Ends (.string quote quoted) behind (string quote behind).kind := by
  unfold string
  split
  · rename_i missing
    refine .leftOpen ?_ List.mem_cons_self rfl
    rintro ⟨inner, rest, rfl, value, quotes⟩
    rw [List.append_assoc] at missing
    have found := quotes.stringLength_append quoted rest
    exact Option.some_ne_none _ (found.symm.trans missing)
  · rename_i length found
    obtain ⟨inner, value, taken, quotes⟩ := exists_quotes_of_stringLength found
    exact .closed (Opening.closedIn_of_take taken ⟨value, quotes⟩) rfl

theorem ends_interpolation (behind : Text) :
    Ends .interpolation behind (interpolation ('{' :: behind)).kind := by
  unfold interpolation
  split
  · rename_i missing
    refine .leftOpen ?_ List.mem_cons_self rfl
    rintro ⟨inner, rest, rfl, braced⟩
    rw [List.append_assoc] at missing
    have last : interpolationLength 0 ('}' :: rest) = some 1 := rfl
    exact Option.some_ne_none _
      ((braced.interpolationLength_append last).symm.trans missing)
  · rename_i length found
    obtain ⟨inner, taken, braced⟩ := exists_closes_of_interpolationLength found
    exact .closed (Opening.closedIn_of_take taken braced) rfl

private theorem construct_of_parametersLength {depth : Nat}
    {quote : Option Char} {text : Text} {construct : OpenConstruct}
    (missing : parametersLength depth quote text = .error construct) :
    construct ∈ Opening.parameters.constructs := by
  fun_induction parametersLength depth quote text with
  | case1 depth quote =>
      cases missing
      cases quote with
      | none => exact List.mem_cons_self
      | some mark => exact List.mem_cons_of_mem _ List.mem_cons_self
  | case2 depth quote =>
      cases missing
      exact List.mem_cons_of_mem _ List.mem_cons_self
  | case3 depth quote c rest ih => exact ih (error_of_map missing)
  | case4 depth c rest quote unescaped ih => exact ih (error_of_map missing)
  | case5 rest => cases missing
  | case6 rest depth ih => exact ih (error_of_map missing)
  | case7 depth rest _ ih => exact ih (error_of_map missing)
  | case8 depth c rest noClosing noOpening ih => exact ih (error_of_map missing)

private theorem ends_parameters (behind : Text) :
    Ends .parameters behind (parameters behind).kind := by
  unfold parameters
  split
  · rename_i construct missing
    refine .leftOpen ?_ (construct_of_parametersLength missing) rfl
    rintro ⟨inner, rest, rfl, parenthesized⟩
    rw [List.append_assoc] at missing
    have last : parametersLength 0 none (')' :: rest) = .ok 1 := rfl
    have found := parenthesized.parametersLength_append last
    rw [Opening.closing, List.singleton_append, found] at missing
    cases missing
  · rename_i length found
    obtain ⟨inner, taken, parenthesized⟩ :=
      exists_closes_of_parametersLength found
    exact .closed (Opening.closedIn_of_take taken parenthesized) rfl

/-- A token that begins with the mark of a construct. -/
theorem ends_read {c : Char} {rest behind : Text} {opening : Opening}
    (opens : c :: rest = opening.mark ++ behind) :
    Ends opening behind (read c rest).kind := by
  cases opening with
  | comment =>
      obtain ⟨rfl, same⟩ := List.cons.inj opens
      obtain rfl : rest = '*' :: behind := same
      rw [read_slash_star]
      exact ends_comment behind
  | string quote quoted =>
      obtain ⟨rfl, same⟩ := List.cons.inj opens
      obtain rfl : rest = behind := same
      rw [read_quote quoted]
      exact ends_string quoted rest
  | parameters =>
      obtain ⟨rfl, same⟩ := List.cons.inj opens
      obtain rfl : rest = behind := same
      rw [read_parenthesis]
      exact ends_parameters rest
  | interpolation =>
      obtain ⟨rfl, same⟩ := List.cons.inj opens
      obtain rfl : rest = '{' :: behind := same
      rw [read_hash_brace]
      exact ends_interpolation behind

/-- Only a token that begins with the mark of a construct can leave one open. -/
theorem exists_opening_of_read (c : Char) (rest : Text) :
    (read c rest).kind.isUnterminated = false ∨
      ∃ opening behind, c :: rest = Opening.mark opening ++ behind := by
  apply read_elim (motive := fun lexeme => lexeme.kind.isUnterminated = false ∨
    ∃ opening behind, c :: rest = Opening.mark opening ++ behind)
  case mark =>
    have table : ∀ kind ∈ [Kind.openBrace, .closeBrace, .semicolon,
        .colon, .comma], kind.isUnterminated = false := by
      decide
    exact fun kind member => .inl (table kind member)
  case docLines => exact fun _ _ => .inl rfl
  case comment =>
    rintro rfl star
    obtain ⟨behind, rfl⟩ := Text.beginsWith_iff.mp star
    exact .inr ⟨.comment, behind, rfl⟩
  case string => exact fun quoted => .inr ⟨.string c quoted, rest, rfl⟩
  case parameters =>
    rintro rfl
    exact .inr ⟨.parameters, rest, rfl⟩
  case interpolation =>
    rintro rfl brace
    obtain ⟨behind, rfl⟩ := Text.beginsWith_iff.mp brace
    exact .inr ⟨.interpolation, behind, rfl⟩
  case keyword =>
    intro _
    exact .inl (kind_signed (motive := (·.isUnterminated = false)) '@' rest rfl
      fun _ => rfl)
  case variableName =>
    intro _
    exact .inl (kind_signed (motive := (·.isUnterminated = false)) '$' rest rfl
      fun _ => rfl)
  case word => exact fun _ => .inl rfl
  case delimiter => exact .inl rfl

end Lexeme

/-! ## All tokens -/

/-- A token of the source begins with the mark of a construct; `front` stands
before the mark and `behind` follows it. -/
def OpensAt (source front : Text) (opening : Opening) (behind : Text) : Prop :=
  source = front ++ opening.mark ++ behind ∧
    ∃ token ∈ scan source, token.span.start = Position.first.advance front

theorem exists_opensAt_of_unterminated {source : Text} {token : Token}
    {construct : OpenConstruct} (member : token ∈ scan source)
    (leftOpen : token.kind = .unterminated construct) :
    ∃ front opening behind, OpensAt source front opening behind ∧
      ¬ opening.ClosedIn behind ∧ construct ∈ opening.constructs ∧
      token.span =
        ⟨Position.first.advance front, Position.first.advance source⟩ := by
  rcases (layout_scan source).mem_cases member with
    ⟨front, c, rest, -, whole, rfl⟩ | rfl
  · have isOpen : (Lexeme.read c rest).kind = .unterminated construct :=
      leftOpen
    have takesAll := (Lexeme.sound_read c rest).takesAll construct isOpen
    rcases Lexeme.exists_opening_of_read c rest with
      other | ⟨opening, behind, opens⟩
    · rw [isOpen] at other
      cases other
    · have place : source = front ++ opening.mark ++ behind := by
        rw [whole, opens, List.append_assoc]
      have reached : (readAt front c rest).span =
          ⟨Position.first.advance front, Position.first.advance source⟩ := by
        rw [readAt, takesAll, List.take_length, whole]
      refine ⟨front, opening, behind, ⟨place, _, member, rfl⟩, ?_⟩
      cases Lexeme.ends_read opens with
      | closed _ isClosed =>
          rw [isOpen] at isClosed
          cases isClosed
      | leftOpen unclosed listed same =>
          obtain rfl := Kind.unterminated.inj (isOpen.symm.trans same)
          exact ⟨unclosed, listed, reached⟩
  · cases leftOpen

/-- A construct is closed if no token of the source leaves one open. -/
theorem OpensAt.closedIn {source front behind : Text} {opening : Opening}
    (opensAt : OpensAt source front opening behind)
    (none : ∀ token ∈ scan source, token.kind.isUnterminated = false) :
    opening.ClosedIn behind := by
  obtain ⟨place, token, member, starts⟩ := opensAt
  have begins : front <+: source :=
    ⟨opening.mark ++ behind, by rw [place, List.append_assoc]⟩
  have sameOffset : token.span.start.offset = Text.byteSize front := by
    rw [starts, Position.byteSize_advance_first]
  rcases (layout_scan source).mem_cases member with
    ⟨before, c, rest, -, whole, rfl⟩ | rfl
  · have closed : (Lexeme.read c rest).kind.isUnterminated = false :=
      none _ member
    rw [readAt_start_offset] at sameOffset
    obtain rfl : before = front :=
      Text.eq_of_byteSize_eq ⟨_, whole.symm⟩ begins sameOffset
    have opens : c :: rest = opening.mark ++ behind := by
      rw [whole, List.append_assoc] at place
      exact List.append_cancel_left place
    cases Lexeme.ends_read opens with
    | closed isClosed _ => exact isClosed
    | leftOpen _ _ same =>
        rw [same] at closed
        cases closed
  · rw [(endAt_offsets source).1] at sameOffset
    obtain rfl : source = front :=
      Text.eq_of_byteSize_eq (List.prefix_refl source) begins sameOffset
    rw [List.append_assoc, List.self_eq_append_right, List.append_eq_nil_iff]
      at place
    exact (opening.mark_ne_nil place.1).elim

theorem eq_endAt_of_isUnterminated {source : Text} {before after : List Token}
    {token : Token} (split : scan source = before ++ token :: after)
    (leftOpen : token.kind.isUnterminated = true) :
    after = [endAt (Position.first.advance source)] := by
  obtain ⟨construct, same⟩ := Kind.isUnterminated_iff.mp leftOpen
  exact (layout_scan source).eq_endAt_of_unterminated split same

/-- Nothing is left open in front of a construct that is left open. -/
theorem isUnterminated_eq_false_of_before {source : Text}
    {before after : List Token} {token other : Token}
    (split : scan source = before ++ token :: after)
    (leftOpen : token.kind.isUnterminated = true) (member : other ∈ before) :
    other.kind.isUnterminated = false := by
  obtain ⟨left, right, rfl⟩ := List.append_of_mem member
  rw [List.append_assoc, List.cons_append] at split
  refine Bool.eq_false_iff.mpr fun alsoOpen => ?_
  have last := eq_endAt_of_isUnterminated split alsoOpen
  have isLast : token ∈ right ++ token :: after := List.mem_append_cons_self
  rw [last, List.mem_singleton] at isLast
  rw [isLast] at leftOpen
  cases leftOpen

theorem countP_isUnterminated_le (source : Text) :
    (scan source).countP (·.kind.isUnterminated) ≤ 1 := by
  by_cases some : ∃ token ∈ scan source, token.kind.isUnterminated = true
  · obtain ⟨token, member, leftOpen⟩ := some
    obtain ⟨before, after, split⟩ := List.append_of_mem member
    have none : before.countP (·.kind.isUnterminated) = 0 := by
      rw [List.countP_eq_zero]
      intro other inBefore
      rw [isUnterminated_eq_false_of_before split leftOpen inBefore]
      exact Bool.false_ne_true
    rw [split, eq_endAt_of_isUnterminated split leftOpen,
      List.countP_append, none, List.countP_cons, if_pos leftOpen]
    exact Nat.le_refl 1
  · have none : (scan source).countP (·.kind.isUnterminated) = 0 := by
      rw [List.countP_eq_zero]
      exact fun token member leftOpen => some ⟨token, member, leftOpen⟩
    rw [none]
    exact Nat.zero_le 1

/-! ## Walking along the tokens -/

namespace Stream

/-- The stream after so many steps of a walk. -/
def after : Nat → Stream → Stream
  | 0, stream => stream
  | count + 1, stream => after count stream.step.2

/-- The tokens still to come, with the mark of the end. -/
def pending (stream : Stream) : List Token :=
  scanFrom (stream.position.advance (leadingGap stream.rest))
    (afterGap stream.rest)

/-- What is to come is the next token and then what comes behind it. -/
theorem pending_eq (stream : Stream) :
    stream.pending =
      if stream.take.1.kind = .endOfInput then [stream.take.1]
      else stream.take.1 :: stream.take.2.pending := by
  rw [pending, take]
  split
  · rename_i atEnd
    rw [atEnd, scanFrom]
    exact (if_pos rfl).symm
  · rename_i c rest behind
    have notEnd : (Lexeme.read c rest).kind ≠ .endOfInput :=
      (Lexeme.sound_read c rest).notEnd
    rw [behind, scanFrom]
    exact (if_neg notEnd).symm

theorem pending_ofText (source : Text) :
    (ofText source).pending = scan source :=
  rfl

theorem pending_ne_nil (stream : Stream) : stream.pending ≠ [] := by
  rw [pending_eq]
  split
  · exact List.cons_ne_nil _ _
  · exact List.cons_ne_nil _ _

theorem step_finished {stream : Stream} (finished : stream.finished = true) :
    stream.step = (none, stream) :=
  if_pos finished

theorem after_finished {stream : Stream} (finished : stream.finished = true)
    (count : Nat) : after count stream = stream := by
  induction count with
  | zero => rfl
  | succ count ih => rw [after, step_finished finished, ih]

/-- A walk that has only the mark of the end before it finishes. -/
theorem step_last {stream : Stream} {last : Token}
    (going : stream.finished = false) (left : stream.pending = [last]) :
    stream.step.1 = none ∧ stream.step.2.finished = true := by
  have ends : stream.take.1.kind = .endOfInput := by
    by_cases ends : stream.take.1.kind = .endOfInput
    · exact ends
    · rw [pending_eq, if_neg ends] at left
      exact (pending_ne_nil _ (List.cons.inj left).2).elim
  rw [step, if_neg (Bool.eq_false_iff.mp going), if_pos ends]
  exact ⟨rfl, rfl⟩

private theorem finished_take (stream : Stream) :
    stream.take.2.finished = stream.finished := by
  rw [take]
  split
  · rfl
  · rfl

/-- A walk that has a token in front of the end goes past it. -/
theorem step_cons {stream : Stream} {token : Token} {rest : List Token}
    (going : stream.finished = false) (more : rest ≠ [])
    (left : stream.pending = token :: rest) :
    stream.step.1 = some token ∧ stream.step.2.finished = false ∧
      stream.step.2.pending = rest := by
  have goesOn : stream.take.1.kind ≠ .endOfInput := by
    intro ends
    rw [pending_eq, if_pos ends] at left
    exact more (List.cons.inj left).2.symm
  rw [pending_eq, if_neg goesOn] at left
  obtain ⟨first, later⟩ := List.cons.inj left
  rw [step, if_neg (Bool.eq_false_iff.mp going), if_neg goesOn, first]
  exact ⟨rfl, (finished_take stream).trans going, later⟩

/-- A walk meets the tokens in front of the last one, and then nothing any
more. -/
theorem step_after {stream : Stream} {tokens : List Token} {last : Token}
    (going : stream.finished = false)
    (left : stream.pending = tokens ++ [last]) (count : Nat) :
    (after count stream).step.1 = tokens[count]? := by
  induction tokens generalizing stream count with
  | nil =>
      obtain ⟨nothing, finished⟩ := step_last going left
      cases count with
      | zero => exact nothing
      | succ count =>
          rw [after, after_finished finished, step_finished finished,
            List.getElem?_nil]
  | cons token tokens ih =>
      have more : tokens ++ [last] ≠ [] :=
        List.append_ne_nil_of_right_ne_nil tokens (List.cons_ne_nil last [])
      obtain ⟨met, goesOn, behind⟩ := step_cons going more left
      cases count with
      | zero => exact met
      | succ count => rw [after, ih goesOn behind, List.getElem?_cons_succ]

end Stream

/-- A construct that is left open ends the tokens.  At most one is left open,
and behind it there is only the mark of the end.  It reaches from its opening
mark to the end of the source.  None is left open just if every construct whose
mark begins a token is closed.  Walking along the tokens meets all of them but
the mark of the end, and nothing after that. -/
theorem unterminated_ends_scan (source : Text) :
    (scan source).countP (·.kind.isUnterminated) ≤ 1 ∧
    (∀ before token after construct, scan source = before ++ token :: after →
      token.kind = .unterminated construct →
        after = [endAt (Position.first.advance source)] ∧
        ∃ front opening behind, OpensAt source front opening behind ∧
          ¬ opening.ClosedIn behind ∧ construct ∈ opening.constructs ∧
          token.span =
            ⟨Position.first.advance front, Position.first.advance source⟩) ∧
    ((∀ token ∈ scan source, token.kind.isUnterminated = false) ↔
      ∀ front opening behind, OpensAt source front opening behind →
        opening.ClosedIn behind) ∧
    ∃ tokens last, scan source = tokens ++ [last] ∧ last.kind = .endOfInput ∧
      (∀ token ∈ tokens, token.kind ≠ .endOfInput) ∧
      ∀ count, ((Stream.ofText source).after count).step.1 =
        tokens[count]? := by
  refine ⟨countP_isUnterminated_le source, ?_, ⟨?_, ?_⟩, ?_⟩
  · intro before token after construct split leftOpen
    have member : token ∈ scan source := split ▸ List.mem_append_cons_self
    exact ⟨(layout_scan source).eq_endAt_of_unterminated split leftOpen,
      exists_opensAt_of_unterminated member leftOpen⟩
  · intro none front opening behind opensAt
    exact opensAt.closedIn none
  · intro allClosed token member
    refine Bool.eq_false_iff.mpr fun leftOpen => ?_
    obtain ⟨construct, same⟩ := Kind.isUnterminated_iff.mp leftOpen
    obtain ⟨front, opening, behind, opensAt, unclosed, -⟩ :=
      exists_opensAt_of_unterminated member same
    exact unclosed (allClosed front opening behind opensAt)
  · obtain ⟨tokens, split, marked⟩ := (layout_scan source).ended
    refine ⟨tokens, _, split, rfl, marked, ?_⟩
    exact Stream.step_after rfl ((Stream.pending_ofText source).trans split)

/-- A string that is left open in a parameter list, behind a comment and an
interpolation that are closed. -/
theorem unterminated_ends_scan_string :
    let source := "/*'*/ a\n#\x7b\"\x7d (b, 'c".toList
    ∃ before token front opening behind,
      scan source = before ++ [token, endAt (Position.first.advance source)] ∧
      token.kind = .unterminated .string ∧ token.text = "(b, 'c".toList ∧
      OpensAt source front opening behind ∧ ¬ opening.ClosedIn behind ∧
      token.span =
        ⟨Position.first.advance front, Position.first.advance source⟩ := by
  intro source
  have found : ∃ token ∈ scan source, token.kind = .unterminated .string ∧
      token.text = "(b, 'c".toList := by
    decide +kernel
  obtain ⟨token, member, leftOpen, text⟩ := found
  obtain ⟨before, after, split⟩ := List.append_of_mem member
  obtain ⟨rfl, front, opening, behind, opensAt, unclosed, -, reached⟩ :=
    (unterminated_ends_scan source).2.1 before token after .string
      split leftOpen
  exact ⟨before, token, front, opening, behind, split, leftOpen, text, opensAt,
    unclosed, reached⟩

end Token

end StyleAudit
