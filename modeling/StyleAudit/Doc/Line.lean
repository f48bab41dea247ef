import StyleAudit.Position

/-!
# Content lines of a comment

Each line of a comment is read without the marks of the comment and the star in
front of it.  A content line remembers where its text stands in the comment.
-/

namespace StyleAudit

namespace Doc

/-- A text, and what was cut off its front. -/
structure Cut where
  /-- What was cut off. -/
  front : Text
  /-- What is left. -/
  rest : Text
deriving DecidableEq, Repr

namespace Cut

/-- A text before anything is cut off. -/
def whole (text : Text) : Cut :=
  ⟨[], text⟩

/-- Cuts a number of characters off the front. -/
def drop (cut : Cut) (count : Nat) : Cut :=
  ⟨cut.front ++ cut.rest.take count, cut.rest.drop count⟩

/-- Cuts the blanks off the front. -/
def dropBlanks (cut : Cut) : Cut :=
  ⟨cut.front ++ cut.rest.takeWhile Text.isBlank,
    cut.rest.dropWhile Text.isBlank⟩

end Cut

/-- The number of characters of a comment's opening mark. -/
def openingLength (text : Text) : Nat :=
  if Text.beginsWith ['/', '/', '/'] text ∨
    Text.beginsWith ['/', '*', '*'] text then 3
  else if Text.beginsWith ['/', '*'] text then 2
  else 0

/-- A line without the blanks at its end and without a comment's closing
mark. -/
def dropClosing (text : Text) : Text :=
  (Text.dropBack? ['*', '/'] (Text.trimEnd text)).getD (Text.trimEnd text)

/-- The number of characters up to a star that has only blanks in front of
it. -/
def starLength (text : Text) : Nat :=
  if Text.beginsWith ['*'] (Text.trimStart text) then
    (text.takeWhile Text.isBlank).length + 1
  else 0

/-- The content of a line of a comment: what is left without blanks, marks and
star. -/
def content (raw : Text) : Cut :=
  let indented := (Cut.whole raw).dropBlanks
  let opened := indented.drop (openingLength indented.rest)
  let closed : Cut := ⟨opened.front, dropClosing opened.rest⟩
  let starred := (closed.drop (starLength closed.rest)).dropBlanks
  ⟨starred.front, Text.trimEnd starred.rest⟩

/-- A content line. -/
structure Line where
  /-- The content. -/
  text : Text
  /-- The number of lines in front of it. -/
  line : Nat
  /-- The column of the content in its line, or one if it is empty. -/
  column : Nat
  /-- The byte offset of the content in the comment. -/
  offset : Nat
deriving DecidableEq, Repr

namespace Line

/-- The content line of a line of a comment, given its number and the bytes in
front of it. -/
def ofRaw (line offset : Nat) (raw : Text) : Line :=
  let cut := content raw
  if cut.rest.isEmpty then ⟨[], line, 1, offset⟩
  else ⟨cut.rest, line, cut.front.length + 1, offset + Text.byteSize cut.front⟩

/-- The content lines of the lines of a comment. -/
def ofRaws (line offset : Nat) : List Text → List Line
  | [] => []
  | raw :: rest =>
    ofRaw line offset raw :: ofRaws (line + 1) (offset + Text.byteSize raw + 1)
      rest

/-- The content lines of a comment. -/
def all (comment : Text) : List Line :=
  ofRaws 0 0 (Text.splitOn '\n' comment)

/-- Does the line begin a tag? -/
def isTag (line : Line) : Bool :=
  Text.beginsWith ['@'] line.text

end Line

end Doc

end StyleAudit
