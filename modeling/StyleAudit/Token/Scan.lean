import StyleAudit.Token.Lexeme

/-!
# The tokens of a text

Reading goes token by token: the token at the front, the gap behind it, and so
on to the end of the text.  The last token marks the end.
-/

namespace StyleAudit

namespace Token

/-- The token that begins with a character at a position, with the gap behind
it. -/
def readFrom (position : Position) (c : Char) (rest : Text) : Token :=
  let lexeme := Lexeme.read c rest
  let text := c :: rest.take lexeme.tail
  { kind := lexeme.kind, span := ⟨position, position.advance text⟩, text,
    gap := leadingGap (rest.drop lexeme.tail) }

/-- The tokens of a text that begins at a position and has no gap at its
front. -/
def scanFrom (position : Position) : Text → List Token
  | [] => [endAt position]
  | c :: rest =>
    let token := readFrom position c rest
    token :: scanFrom (token.span.stop.advance token.gap)
      (afterGap (rest.drop (Lexeme.read c rest).tail))
termination_by text => text.length
decreasing_by
  have shorter := length_afterGap_le (rest.drop (Lexeme.read c rest).tail)
  simp only [List.length_drop] at shorter
  simp only [List.length_cons]
  omega

/-- The tokens of a text. -/
def scan (source : Text) : List Token :=
  scanFrom (Position.first.advance (leadingGap source)) (afterGap source)

end Token

end StyleAudit
