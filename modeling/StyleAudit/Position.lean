import StyleAudit.Text.Basic

/-!
# Positions and spans

A position in a text is given in two ways at once: by its byte offset, and by
its line and column.  Lines and columns count from one, a column counts
characters, and only a newline begins a line.  All positions are obtained by
walking over the text in front of them, so the two ways always agree.
-/

namespace StyleAudit

/-- A place between two characters of a text.  Lines and columns have no upper
bound here, so what is said about them is about texts with fewer than 2^32
lines, each of fewer than 2^32 characters, where 32 bits are enough to count
them. -/
structure Position where
  /-- Bytes in front of the place. -/
  offset : Nat
  /-- One more than the number of newlines in front of the place. -/
  line : Nat
  /-- One more than the number of characters since the last newline. -/
  column : Nat
deriving DecidableEq, Repr

namespace Position

/-- The beginning of a text. -/
def first : Position :=
  ⟨0, 1, 1⟩

/-- The position behind a character that stands at this one. -/
def next (position : Position) (c : Char) : Position :=
  if c = '\n' then ⟨position.offset + c.utf8Size, position.line + 1, 1⟩
  else ⟨position.offset + c.utf8Size, position.line, position.column + 1⟩

/-- The position behind a text that stands at this one. -/
def advance (position : Position) (text : Text) : Position :=
  text.foldl next position

@[simp] theorem advance_nil (position : Position) :
    position.advance [] = position := rfl

@[simp] theorem advance_cons (position : Position) (c : Char) (rest : Text) :
    position.advance (c :: rest) = (position.next c).advance rest := rfl

theorem advance_append (position : Position) (left right : Text) :
    position.advance (left ++ right) =
      (position.advance left).advance right := by
  simp [advance]

/-- The text behind its first lines. -/
def dropLines : (count : Nat) → Text → Text
  | 0, text => text
  | _ + 1, [] => []
  | count + 1, c :: rest =>
    if c = '\n' then dropLines count rest else dropLines (count + 1) rest

/-- The position at a line and column of a text, found from these two alone.  A
column that the text does not reach stands for the end of the text. -/
def ofLineColumn (text : Text) (line column : Nat) : Position :=
  let rest := dropLines (line - 1) text
  let offset :=
    if column - 1 < rest.length then
      Text.byteSize text - Text.byteSize rest +
        Text.byteSize (rest.take (column - 1))
    else Text.byteSize text
  ⟨offset, line, column⟩

theorem offset_advance (position : Position) (text : Text) :
    (position.advance text).offset = position.offset + Text.byteSize text := by
  induction text generalizing position with
  | nil => simp
  | cons c rest ih =>
    rw [advance_cons, ih]
    by_cases newline : c = '\n' <;> simp [next, newline, Nat.add_assoc]

end Position

/-- A stretch of text. -/
structure Span where
  /-- Where the stretch begins. -/
  start : Position
  /-- Where the stretch ends. -/
  stop : Position
deriving DecidableEq, Repr

namespace Span

/-- The empty span at a position. -/
def point (position : Position) : Span :=
  ⟨position, position⟩

/-- The empty span at the beginning of a text. -/
def first : Span :=
  point .first

/-- The span from a position to a byte offset on the same line.  Its end column
counts the bytes in between, in a 32-bit counter, since the text itself is not
at hand. -/
def ofOffsets (start : Position) (stop : Nat) : Span :=
  ⟨start,
    ⟨stop, start.line, start.column + (stop - start.offset) % 0x100000000⟩⟩

/-- The span from the beginning of one span to the end of another. -/
def joined (left right : Span) : Span :=
  ⟨left.start, right.stop⟩

/-- The number of bytes in the span. -/
def byteSize (span : Span) : Nat :=
  span.stop.offset - span.start.offset

/-- Does the span hold no text? -/
def isEmpty (span : Span) : Bool :=
  span.start.offset == span.stop.offset

/-- The part of a text that the span covers. -/
def text (span : Span) (source : Text) : Text :=
  Text.slice span.start.offset span.stop.offset source

end Span

/-- A span in a file. -/
structure Location where
  /-- The identifier of the file. -/
  file : Text
  /-- The span in the file's text. -/
  span : Span
deriving DecidableEq, Repr

namespace Location

/-- The place where the location begins, as file, line and column. -/
def shown (location : Location) : String :=
  s!"{location.file.shown}:{location.span.start.line}:{location.span.start.column}"

end Location

end StyleAudit
