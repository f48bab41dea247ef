import StyleAudit.Token.Scan

/-!
# Streams of tokens

A stream hands out the tokens of a text one at a time, each of them read when
it is asked for.  The mark of the end can be asked for again and again; walking
along the stream, on the other hand, is over once it has met the end.
-/

namespace StyleAudit

namespace Token

/-- A place in a text from which tokens are read on. -/
structure Stream where
  /-- Where the rest of the text begins. -/
  position : Position
  /-- The text that is still to be read. -/
  rest : Text
  /-- Has a walk met the end? -/
  finished : Bool
deriving DecidableEq, Repr

namespace Stream

/-- The stream of all tokens of a text. -/
def ofText (source : Text) : Stream :=
  ⟨.first, source, false⟩

/-- The next token, behind the gap in front of it.  At the end of the text it
is the mark of the end. -/
def take (stream : Stream) : Token × Stream :=
  let position := stream.position.advance (leadingGap stream.rest)
  match afterGap stream.rest with
  | [] => (endAt position, { stream with position, rest := [] })
  | c :: rest =>
    let token := readFrom position c rest
    (token,
      { stream with
        position := token.span.stop,
        rest := rest.drop (Lexeme.read c rest).tail })

/-- One step of a walk: the next token in front of the end. -/
def step (stream : Stream) : Option Token × Stream :=
  if stream.finished then (none, stream)
  else if stream.take.1.kind = .endOfInput then
    (none, { stream.take.2 with finished := true })
  else (some stream.take.1, stream.take.2)

theorem length_rest_take_lt {stream : Stream}
    (more : stream.take.1.kind ≠ .endOfInput) :
    stream.take.2.rest.length < stream.rest.length := by
  have shorter := length_afterGap_le stream.rest
  revert more
  rw [take]
  split
  · exact fun more => (more rfl).elim
  · rename_i c rest behind
    intro _
    rw [behind, List.length_cons] at shorter
    simp only [List.length_drop]
    omega

/-- The rest of a walk. -/
def walk (stream : Stream) : List Token × Stream :=
  if stream.finished then ([], stream)
  else if stream.take.1.kind = .endOfInput then
    ([], { stream.take.2 with finished := true })
  else
    let (tokens, final) := walk stream.take.2
    (stream.take.1 :: tokens, final)
termination_by stream.rest.length
decreasing_by exact length_rest_take_lt (by assumption)

end Stream

end Token

end StyleAudit
