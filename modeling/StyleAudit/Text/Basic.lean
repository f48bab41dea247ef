import StyleAudit.Text.Blank

/-!
# Text

Stylesheets, doc comments and names are kept as lists of characters, so that
scanning them is recursion on the data.  Offsets into a text count the bytes of
its UTF-8 encoding.
-/

namespace StyleAudit

/-- A text, character by character. -/
abbrev Text := List Char

namespace Text

/-- The number of bytes of the text in UTF-8. -/
def byteSize : Text → Nat
  | [] => 0
  | c :: rest => c.utf8Size + byteSize rest

@[simp] theorem byteSize_nil : byteSize [] = 0 := rfl

@[simp] theorem byteSize_cons (c : Char) (rest : Text) :
    byteSize (c :: rest) = c.utf8Size + byteSize rest := rfl

@[simp] theorem byteSize_append (left right : Text) :
    byteSize (left ++ right) = byteSize left + byteSize right := by
  induction left with
  | nil => simp
  | cons c rest ih => simp [ih, Nat.add_assoc]

/-- The text after its first `count` bytes. -/
def dropBytes : Nat → Text → Text
  | 0, text => text
  | _ + 1, [] => []
  | count + 1, c :: rest => dropBytes (count + 1 - c.utf8Size) rest

/-- The text up to its first `count` bytes. -/
def takeBytes : Nat → Text → Text
  | 0, _ => []
  | _ + 1, [] => []
  | count + 1, c :: rest => c :: takeBytes (count + 1 - c.utf8Size) rest

/-- The text between two byte offsets. -/
def slice (start stop : Nat) (text : Text) : Text :=
  takeBytes (stop - start) (dropBytes start text)

/-! ### Trimming -/

/-- The text without the blanks at its front. -/
def trimStart (text : Text) : Text :=
  text.dropWhile isBlank

/-- The text without the blanks at its end. -/
def trimEnd (text : Text) : Text :=
  (text.reverse.dropWhile isBlank).reverse

/-- The text without the blanks at either end. -/
def trim (text : Text) : Text :=
  trimEnd (trimStart text)

/-- The text without the given characters at either end. -/
def trimAny (drop : Char → Bool) (text : Text) : Text :=
  ((text.dropWhile drop).reverse.dropWhile drop).reverse

/-! ### Fixed beginnings and ends -/

/-- What follows `front`, when the text begins with it. -/
def dropFront? : (front text : Text) → Option Text
  | [], text => some text
  | _ :: _, [] => none
  | a :: front, c :: rest => if a = c then dropFront? front rest else none

/-- What precedes `back`, when the text ends with it. -/
def dropBack? (back text : Text) : Option Text :=
  (dropFront? back.reverse text.reverse).map List.reverse

/-- Does the text begin with `front`? -/
def beginsWith (front text : Text) : Bool :=
  (dropFront? front text).isSome

/-- Does the text end with `back`? -/
def endsWith (back text : Text) : Bool :=
  (dropBack? back text).isSome

/-- The text without any number of copies of a character pair at its front. -/
def dropPairs (a b : Char) : Text → Text
  | c :: d :: rest =>
    if c = a ∧ d = b then dropPairs a b rest else c :: d :: rest
  | text => text

/-! ### Splitting and joining -/

/-- Puts a character in front of the first piece. -/
def consFirst (c : Char) : List Text → List Text
  | [] => [[c]]
  | piece :: pieces => (c :: piece) :: pieces

/-- The pieces of the text between the occurrences of a character. -/
def splitOn (mark : Char) : Text → List Text
  | [] => [[]]
  | c :: rest =>
    if c = mark then [] :: splitOn mark rest
    else consFirst c (splitOn mark rest)

/-- The pieces of the text between the occurrences of a doubled character, read
from the left. -/
def splitOnDouble (mark : Char) : Text → List Text
  | [] => [[]]
  | [c] => [[c]]
  | c :: d :: rest =>
    if c = mark ∧ d = mark then [] :: splitOnDouble mark rest
    else consFirst c (splitOnDouble mark (d :: rest))

/-- The text before the first character with a property, and the text after
it. -/
def splitFirst? (stop : Char → Bool) : Text → Option (Text × Text)
  | [] => none
  | c :: rest =>
    if stop c then some ([], rest)
    else (splitFirst? stop rest).map fun parts => (c :: parts.1, parts.2)

/-- The text before the last occurrence of a character, and the text after
it. -/
def splitLast? (mark : Char) (text : Text) : Option (Text × Text) :=
  (splitFirst? (· == mark) text.reverse).map fun parts =>
    (parts.2.reverse, parts.1.reverse)

/-- The first blank-free stretch of a text, and the text after the blank that
ends it. -/
def splitWord (text : Text) : Text × Text :=
  (splitFirst? isBlank text).getD (text, [])

/-- The texts one after the other, with `between` in the gaps. -/
def join (between : Text) : List Text → Text
  | [] => []
  | [piece] => piece
  | piece :: next :: pieces => piece ++ between ++ join between (next :: pieces)

/-- The blank-free stretches of the text. -/
def words : Text → List Text
  | [] => []
  | c :: rest =>
    if isBlank c then words rest
    else
      match rest with
      | [] => [[c]]
      | d :: _ =>
        if isBlank d then [c] :: words rest else consFirst c (words rest)

/-- The text with every stretch of blanks made one space, and none at its
ends. -/
def normalizeBlanks (text : Text) : Text :=
  join [' '] (words text)

/-! ### Lines -/

/-- A line without the carriage return at its end. -/
def dropReturn (line : Text) : Text :=
  (dropBack? ['\r'] line).getD line

/-- Pieces between newlines as lines: a carriage return before a newline belongs
to the line break, and an empty piece after the last newline is no line. -/
def linesOfPieces : List Text → List Text
  | [] => []
  | [last] => if last.isEmpty then [] else [last]
  | piece :: next :: pieces =>
    dropReturn piece :: linesOfPieces (next :: pieces)

/-- The lines of the text, without their line breaks. -/
def lines (text : Text) : List Text :=
  linesOfPieces (splitOn '\n' text)

/-- The text as a string, to stand in a message. -/
def shown (text : Text) : String :=
  String.ofList text

end Text

end StyleAudit
