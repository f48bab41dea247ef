import StyleAudit.Proofs.Stylesheet.Placement
import StyleAudit.Proofs.Token.Comment
import StyleAudit.Proofs.Token.Enclosed
import StyleAudit.Proofs.Token.Legible

/-!
# Tokens on their own

Where a token ends is told by its own characters, and what follows it can only
end it earlier.  So the text of a token is read as the same token when it stands
alone, and whatever a token carries can be told from its text.
-/

namespace StyleAudit

namespace Token

/-! ## What a token carries -/

/-- What a token carries is told by the text that it covers.  Braces and other
single marks carry nothing, and neither does the end of the text or a construct
that is left open. -/
def Kind.Spells (text : Text) : Kind → Prop
  | .ident name => text = name
  | .comment _ own => text = own
  | .atKeyword name => text = '@' :: name
  | .variableName name => text = '$' :: name
  | .interpolation inner => text = '#' :: '{' :: inner ++ ['}'] ∧ Braced inner
  | .parameters inner => text = '(' :: inner ++ [')'] ∧ Parenthesized inner
  | .string value =>
    ∃ quote inner, isQuote quote = true ∧ text = quote :: inner ++ [quote] ∧
      Quotes quote inner value
  | .delimiter character => text = [character]
  | .openBrace | .closeBrace | .semicolon | .colon | .comma => True
  | .endOfInput | .unterminated _ => True

/-- What is taken without the last of it. -/
theorem take_pred_of_take {α : Type} {list inner : List α} {last : α}
    {length : Nat} (reach : length ≤ list.length)
    (taken : list.take length = inner ++ [last]) :
    list.take (length - 1) = inner := by
  have size : length = inner.length + 1 := by
    have lengths := congrArg List.length taken
    rwa [List.length_take, Nat.min_eq_left reach, List.length_append,
      List.length_singleton] at lengths
  have begins : inner <+: list :=
    (List.prefix_append inner [last]).trans
      (taken ▸ List.take_prefix length list)
  rw [size, Nat.add_sub_cancel]
  exact (List.prefix_iff_eq_take.mp begins).symm

namespace Lexeme

theorem spells_signed {sign : Char} {kind : Text → Kind} (rest : Text)
    (spells : ∀ name, (kind name).Spells (sign :: name)) :
    (signed sign kind rest).kind.Spells
      (sign :: rest.take (signed sign kind rest).tail) := by
  unfold signed
  split
  · rfl
  · split
    · exact spells _
    · rfl

theorem spells_string {quote : Char} (isQuote : isQuote quote = true)
    (rest : Text) :
    (string quote rest).kind.Spells
      (quote :: rest.take (string quote rest).tail) := by
  unfold string
  split
  · trivial
  · rename_i length closed
    obtain ⟨inner, value, taken, quotes⟩ := exists_quotes_of_stringLength closed
    rw [take_pred_of_take (stringLength_le closed) taken, quotes.unescape_eq]
    exact ⟨quote, inner, isQuote, congrArg (quote :: ·) taken, quotes⟩

private theorem spells_parameters (rest : Text) :
    (parameters rest).kind.Spells
      ('(' :: rest.take (parameters rest).tail) := by
  unfold parameters
  split
  · trivial
  · rename_i length closed
    obtain ⟨inner, taken, balanced⟩ := exists_closes_of_parametersLength closed
    rw [take_pred_of_take (parametersLength_le closed) taken]
    exact ⟨congrArg ('(' :: ·) taken, balanced⟩

private theorem spells_interpolation {rest : Text}
    (brace : Text.beginsWith ['{'] rest = true) :
    (interpolation rest).kind.Spells
      ('#' :: rest.take (interpolation rest).tail) := by
  obtain ⟨behind, rfl⟩ := Text.beginsWith_iff.mp brace
  unfold interpolation
  split
  · trivial
  · rename_i length closed
    obtain ⟨inner, taken, balanced⟩ :=
      exists_closes_of_interpolationLength closed
    rw [take_pred_of_take (interpolationLength_le closed) taken]
    refine ⟨?_, balanced⟩
    have taken : behind.take length = inner ++ ['}'] := taken
    rw [Nat.add_comm, List.singleton_append, List.take_succ_cons, taken]
    rfl

/-- What a token carries is told by its characters. -/
theorem spells_read (c : Char) (rest : Text) :
    (read c rest).kind.Spells (c :: rest.take (read c rest).tail) := by
  apply read_elim
    (motive := fun lexeme => lexeme.kind.Spells (c :: rest.take lexeme.tail))
  case mark =>
    intro kind member
    simp only [List.mem_cons, List.not_mem_nil, or_false] at member
    rcases member with rfl | rfl | rfl | rfl | rfl <;> trivial
  case docLines =>
    rintro rfl _
    rfl
  case comment =>
    rintro rfl _
    unfold comment
    split
    · trivial
    · rfl
  case string => exact fun quote => spells_string quote rest
  case parameters =>
    rintro rfl
    exact spells_parameters rest
  case interpolation =>
    rintro rfl brace
    exact spells_interpolation brace
  case keyword =>
    rintro rfl
    exact spells_signed rest fun _ => rfl
  case variableName =>
    rintro rfl
    exact spells_signed rest fun _ => rfl
  case word =>
    intro isWord
    exact (List.take_cons (wordLength_pos isWord rest)).symm
  case delimiter => rfl

end Lexeme

/-! ## A token alone -/

/-- A token that stands in front of something stands alone as well. -/
theorem Stands.alone {token : Token} {behind : Text}
    (stands : Stands token behind) :
    Stands { token with gap := [] } [] := by
  obtain ⟨c, tail, text, starts, reads⟩ := stands.reads
  by_cases last : token.gap ++ behind = []
  · rw [last] at starts reads
    exact ⟨⟨c, tail, text, starts, reads⟩, rfl⟩
  · obtain ⟨startsToo, readsToo, -⟩ :=
      Lexeme.read_replace starts reads last (offersNoMore_nil _) fun _ => rfl
    exact ⟨⟨c, tail, text, startsToo, readsToo⟩, rfl⟩

private theorem exists_stands_of_mem_scan {source : Text} {token : Token}
    (member : token ∈ scan source) (notEnd : token.kind ≠ .endOfInput) :
    ∃ behind, Stands token behind := by
  obtain ⟨tokens, last, scanned, ends, legible, -, -⟩ :=
    exists_legible_of_scanFrom (Position.first.advance (leadingGap source))
      (gapLength_afterGap source)
  rw [scan, scanned] at member
  rcases List.mem_append.mp member with inside | isLast
  · obtain ⟨left, right, rfl⟩ := List.append_of_mem inside
    cases legible.of_append with
    | cons stands _ => exact ⟨spelled right, stands⟩
  · obtain rfl := List.mem_singleton.mp isLast
    exact (notEnd ends).elim

/-- A token that stands alone is all that is read. -/
theorem Stands.map_kind_scan {token : Token}
    (stands : Stands { token with gap := [] } []) :
    (scan token.text).map (·.kind) = [token.kind, .endOfInput] := by
  have starts : gapLength false token.text = 0 := by
    have whole := stands.starts
    rwa [List.append_nil, List.append_nil] at whole
  have spells : spelled [{ token with gap := [] }] = token.text := by
    rw [spelled_cons, spelled_nil, List.append_nil, List.append_nil]
  have scanned := (Legible.cons stands .nil).scanFrom
    (Position.first.advance (leadingGap token.text))
  have whole : afterGap token.text = token.text := by
    rw [afterGap, starts, List.drop_zero]
  rw [spells] at scanned
  have kinds := congrArg (List.map (·.kind)) scanned
  rw [List.map_map] at kinds
  rw [scan, whole]
  exact kinds

/-- The text of a token is read as this token and nothing else when
it stands alone, and what the token carries is told by this text. -/
theorem self_contained {source : Text} {token : Token}
    (member : token ∈ scan source) (notEnd : token.kind ≠ .endOfInput) :
    (scan (token.span.text source)).map (·.kind) = [token.kind, .endOfInput] ∧
      token.kind.Spells (token.span.text source) := by
  rw [((inOrder_scan source).shown token member).text_eq]
  obtain ⟨behind, stands⟩ := exists_stands_of_mem_scan member notEnd
  refine ⟨stands.alone.map_kind_scan, ?_⟩
  rcases (layout_scan source).mem_cases member with
    ⟨before, c, rest, -, -, rfl⟩ | rfl
  · exact Lexeme.spells_read c rest
  · exact (notEnd rfl).elim

/-- Parentheses and quotes that close nothing, between those of a list of
parameters. -/
theorem self_contained_nested :
    let source := "@include x(a, f(')'), \"\\\"(\");".toList
    let inner := "a, f(')'), \"\\\"(\"".toList
    ∃ token ∈ scan source, token.kind = .parameters inner ∧
      (scan (token.span.text source)).map (·.kind) =
        [.parameters inner, .endOfInput] ∧
      token.span.text source = '(' :: inner ++ [')'] ∧ Parenthesized inner := by
  intro source inner
  have found : ∃ token ∈ scan source, token.kind = .parameters inner := by
    decide +kernel
  obtain ⟨token, member, isList⟩ := found
  have contained := self_contained member (by simp [isList])
  rw [isList] at contained
  exact ⟨token, member, isList, contained⟩

end Token

end StyleAudit
