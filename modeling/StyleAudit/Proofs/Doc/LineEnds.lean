import StyleAudit.Proofs.Doc.Entries

/-!
# Line breaks with a carriage return

A carriage return in front of a newline is a blank at the end of a line of a
comment.  The content of the line is trimmed on every way through it, also where
a closing mark is looked for, so the line says the same and its content begins
in the same column.  Only the bytes in front of a line grow, by one for each
line break.
-/

namespace StyleAudit

namespace Text

/-- The text with a carriage return in front of each newline. -/
def withReturns (text : Text) : Text :=
  text.flatMap fun c => if c = '\n' then ['\r', '\n'] else [c]

/-- Lines with a carriage return at the end of each one that another follows. -/
def returned : List Text → List Text
  | [] => []
  | [last] => [last]
  | line :: next :: rest => (line ++ ['\r']) :: returned (next :: rest)

theorem returned_cons (line : Text) {rest : List Text} (more : rest ≠ []) :
    returned (line :: rest) = (line ++ ['\r']) :: returned rest := by
  obtain ⟨next, others, rfl⟩ := List.exists_cons_of_ne_nil more
  rfl

private theorem returned_consFirst (c : Char) {lines : List Text}
    (nonempty : lines ≠ []) :
    returned (consFirst c lines) = consFirst c (returned lines) := by
  obtain ⟨line, rest, rfl⟩ := List.exists_cons_of_ne_nil nonempty
  cases rest with
  | nil => rfl
  | cons next rest => rfl

theorem splitOn_withReturns (text : Text) :
    splitOn '\n' (withReturns text) = returned (splitOn '\n' text) := by
  induction text with
  | nil => rfl
  | cons c rest ih =>
      rw [withReturns] at ih
      rw [withReturns, List.flatMap_cons, splitOn]
      split
      · rw [returned_cons [] (splitOn_ne_nil rest), ← ih]
        rfl
      · rename_i plain
        rw [returned_consFirst c (splitOn_ne_nil rest), ← ih,
          List.singleton_append, splitOn, if_neg plain]

end Text

namespace Doc

/-! ## One line -/

theorem openingLength_le (text : Text) : openingLength text ≤ text.length := by
  rw [openingLength]
  split
  · rename_i opens
    rcases opens with opens | opens
    · exact (Text.beginsWith_iff.mp opens).length_le
    · exact (Text.beginsWith_iff.mp opens).length_le
  · split
    · rename_i opens
      exact (Text.beginsWith_iff.mp opens).length_le
    · exact Nat.zero_le _

section Blank

variable {c : Char} (blank : Text.isBlank c = true)
include blank

private theorem openingLength_concat_of_blank (text : Text) :
    openingLength (text ++ [c]) = openingLength text := by
  have notSlash : c ≠ '/' := by
    rintro rfl
    revert blank
    decide
  have notStar : c ≠ '*' := by
    rintro rfl
    revert blank
    decide
  rw [openingLength, openingLength, Text.beginsWith_concat (by simp [notSlash]),
    Text.beginsWith_concat (by simp [notSlash, notStar]),
    Text.beginsWith_concat (by simp [notSlash, notStar])]

private theorem dropClosing_concat_of_blank (text : Text) :
    dropClosing (text ++ [c]) = dropClosing text := by
  rw [dropClosing, Text.trimEnd_concat_of_blank blank, dropClosing]

/-- A blank behind a line with anything on it is not part of its content. -/
theorem content_concat_of_blank {raw : Text}
    (filled : Text.trimStart raw ≠ []) :
    content (raw ++ [c]) = content raw := by
  have behind : (raw ++ [c]).dropWhile Text.isBlank =
      raw.dropWhile Text.isBlank ++ [c] :=
    Text.trimStart_append_of_ne_nil filled [c]
  have inFront : (raw ++ [c]).takeWhile Text.isBlank =
      raw.takeWhile Text.isBlank := by
    have whole :=
      List.takeWhile_append_dropWhile (p := Text.isBlank) (l := raw ++ [c])
    rw [behind] at whole
    refine List.append_cancel_right (whole.trans ?_)
    rw [← List.append_assoc, List.takeWhile_append_dropWhile]
  have bounded := openingLength_le (raw.dropWhile Text.isBlank)
  simp only [content, Cut.whole, Cut.dropBlanks, Cut.drop, behind, inFront,
    openingLength_concat_of_blank blank, List.take_append_of_le_length bounded,
    List.drop_append_of_le_length bounded, dropClosing_concat_of_blank blank]

/-- More may be cut off the longer line, but this does not count where nothing
is left. -/
theorem ofRaw_concat_of_blank (line offset : Nat) (raw : Text) :
    Line.ofRaw line offset (raw ++ [c]) = Line.ofRaw line offset raw := by
  by_cases none : Text.trimStart raw = []
  · have longer : Text.trimStart (raw ++ [c]) = [] := by
      rw [Text.trimStart_append_of_eq_nil none,
        Text.trimStart_cons_of_blank blank]
      rfl
    rw [ofRaw_eq_of_rest_eq_nil line offset (content_rest_eq_nil none),
      ofRaw_eq_of_rest_eq_nil line offset (content_rest_eq_nil longer)]
  · rw [Line.ofRaw, content_concat_of_blank blank none, Line.ofRaw]

end Blank

/-! ## All lines -/

/-- The line with a byte more in front of it for each line break there. -/
def Line.pushed (line : Line) : Line :=
  { line with offset := line.offset + line.line }

theorem ofRaw_pushed (line offset : Nat) (raw : Text) :
    Line.ofRaw line (offset + line) raw =
      (Line.ofRaw line offset raw).pushed := by
  rw [Line.ofRaw, Line.ofRaw]
  split
  · rfl
  · rw [Line.pushed, Nat.add_right_comm]

private theorem ofRaws_returned (line offset : Nat) (raws : List Text) :
    Line.ofRaws line (offset + line) (Text.returned raws) =
      (Line.ofRaws line offset raws).map Line.pushed := by
  induction raws generalizing line offset with
  | nil => rfl
  | cons raw rest ih =>
      by_cases last : rest = []
      · subst last
        rw [Text.returned, Line.ofRaws, ofRaw_pushed]
        rfl
      · have size : offset + line + Text.byteSize (raw ++ ['\r']) + 1 =
            offset + Text.byteSize raw + 1 + (line + 1) := by
          have one : Char.utf8Size '\r' = 1 := by decide
          rw [Text.byteSize_append, Text.byteSize_cons, Text.byteSize_nil, one]
          omega
        rw [Text.returned_cons raw last, Line.ofRaws, size, ih,
          ofRaw_concat_of_blank (by decide), ofRaw_pushed, Line.ofRaws,
          List.map_cons]

private theorem all_withReturns (comment : Text) :
    Line.all (Text.withReturns comment) =
      (Line.all comment).map Line.pushed := by
  rw [Line.all, Text.splitOn_withReturns, Line.all, ← ofRaws_returned]

/-- Line breaks with a carriage return leave the block as it is, and each issue
but for the bytes in front of it: the cause, the number of the line, the column
and the content are the same. -/
theorem extract_withReturns (comment : Text) :
    (extract (Text.withReturns comment)).block = (extract comment).block ∧
      (extract (Text.withReturns comment)).issues =
        (extract comment).issues.map fun issue =>
          { issue with
            line :=
              { issue.line with
                offset := issue.line.offset + issue.line.line } } := by
  have keeps : ∀ line : Line, line.pushed.text = line.text := fun _ => rfl
  have same := extractLines_map keeps (Line.all comment)
  rw [← all_withReturns, ← extract_eq, ← extract_eq] at same
  rw [same]
  exact ⟨rfl, rfl⟩

end Doc

end StyleAudit
