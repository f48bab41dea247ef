import StyleAudit.Doc.Line
import StyleAudit.Doc.Tag

/-!
# Reading doc comments

The content lines of a comment are a description followed by entries.  An entry
is a tag line with the lines behind it up to the next tag line.  Reading never
fails: a malformed entry is left out and noted as an issue.
-/

namespace StyleAudit

namespace Doc

/-- A tag line and the lines that continue it. -/
structure Entry where
  tag : Line
  body : List Line
deriving DecidableEq, Repr

/-- Splits content lines into the description and the entries. -/
def entries : List Line → List Line × List Entry
  | [] => ([], [])
  | line :: rest =>
    let (body, others) := entries rest
    if line.isTag then ([], ⟨line, body⟩ :: others) else (line :: body, others)

namespace Issue

/-- What is wrong with a line of a doc comment. -/
inductive Cause where
  | malformed (flaw : Tag.Flaw)
  /-- Text behind a tag that takes none. -/
  | strayText (tag : Text)
  /-- A tag that replaces an earlier value. -/
  | repeated (tag : Text)
deriving DecidableEq, Repr

namespace Cause

/-- The cause in words. -/
def message : Cause → String
  | .malformed flaw => flaw.message
  | .strayText tag =>
    s!"text after @{tag.shown} belongs to no tag; move it into the description"
  | .repeated tag =>
    s!"@{tag.shown} appears more than once; the last value is used"

/-- Is the issue a repeated tag? -/
def isRepeated : Cause → Bool
  | .repeated _ => true
  | .malformed _ | .strayText _ => false

end Cause

end Issue

/-- Something wrong with a line of a doc comment. -/
structure Issue where
  /-- What is wrong. -/
  cause : Issue.Cause
  /-- The line. -/
  line : Line
deriving DecidableEq, Repr

namespace Issue

/-- The number of bytes of the line's content. -/
def byteSize (issue : Issue) : Nat :=
  Text.byteSize issue.line.text

/-- Where the issue is, given the span of the comment. -/
def locate (issue : Issue) (comment : Span) : Span :=
  let start := comment.start.offset + issue.line.offset
  let place : Position :=
    if issue.line.line = 0 then
      ⟨start, comment.start.line, comment.start.column + issue.line.column - 1⟩
    else ⟨start, comment.start.line + issue.line.line, issue.line.column⟩
  Span.ofOffsets place (start + issue.byteSize)

end Issue

/-- What a doc comment says, and what is wrong with it. -/
structure Extraction where
  block : Block := {}
  issues : List Issue := []
deriving DecidableEq, Repr

/-- The lines of an entry that hold text. -/
def Entry.continuation (entry : Entry) : List Line :=
  entry.body.filter (!·.text.isEmpty)

namespace Extraction

/-- What is wrong with an entry that holds a well-formed tag. -/
def entryIssues (block : Block) (entry : Entry) (tag : Tag) : List Issue :=
  let repeated :=
    (block.replaced? tag).toList.map fun name => ⟨.repeated name, entry.tag⟩
  let stray := match tag.closedName? with
    | some name => entry.continuation.map fun line => ⟨.strayText name, line⟩
    | none => []
  repeated ++ stray

/-- The extraction with a further entry. -/
def add (extraction : Extraction) (entry : Entry) : Extraction :=
  match Tag.parse entry.tag.text with
  | .error flaw =>
    { extraction with
      issues := extraction.issues ++ [⟨.malformed flaw, entry.tag⟩] }
  | .ok tag =>
    let continued :=
      (entry.continuation.map (·.text)).foldl Tag.continueWith tag
    { block := extraction.block.add continued,
      issues := extraction.issues ++ entryIssues extraction.block entry tag }

end Extraction

/-- The lines without the empty ones at either end. -/
def trimLines (lines : List Text) : List Text :=
  ((lines.dropWhile (·.isEmpty)).reverse.dropWhile (·.isEmpty)).reverse

/-- The description that lines make up. -/
def descriptionOf (lines : List Line) : Text :=
  Text.join ['\n'] (trimLines (lines.map (·.text)))

/-- Reads a doc comment. -/
def extract (comment : Text) : Extraction :=
  let (description, others) := entries (Line.all comment)
  let extraction := others.foldl Extraction.add {}
  { extraction with
    block :=
      { extraction.block with description := descriptionOf description } }

end Doc

end StyleAudit
