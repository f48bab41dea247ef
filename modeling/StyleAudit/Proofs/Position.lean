import StyleAudit.Position
import StyleAudit.Proofs.Text.Boundary

/-!
# Positions by counting

A position is found by walking over the text in front of it, and the walk counts
bytes, newlines, and characters since the last newline.  So a line and a column
are enough to find a position again, and a span that was found by walking begins
and ends where its text does.
-/

namespace StyleAudit

/-! ## The last line -/

namespace Text

/-- What stands behind the last newline. -/
def lastLine (text : Text) : Text :=
  (text.reverse.takeWhile (· != '\n')).reverse

theorem takeWhile_reverse_append {text : Text} (oneLine : '\n' ∉ text)
    (back : Text) :
    (text.reverse ++ back).takeWhile (· != '\n') =
      text.reverse ++ back.takeWhile (· != '\n') := by
  apply List.takeWhile_append_of_pos
  intro c member
  rw [bne_iff_ne]
  rintro rfl
  exact oneLine (List.mem_reverse.mp member)

theorem lastLine_append_cons (front : Text) {rest : Text}
    (oneLine : '\n' ∉ rest) :
    lastLine (front ++ '\n' :: rest) = rest := by
  rw [lastLine, List.reverse_append, List.reverse_cons, List.append_assoc,
    takeWhile_reverse_append oneLine, List.singleton_append,
    List.takeWhile_cons_of_neg (by simp), List.append_nil, List.reverse_reverse]

theorem lastLine_of_not_mem {text : Text} (oneLine : '\n' ∉ text) :
    lastLine text = text := by
  rw [lastLine, ← List.append_nil text.reverse,
    takeWhile_reverse_append oneLine, List.takeWhile_nil, List.append_nil,
    List.reverse_reverse]

theorem lastLine_append_of_not_mem (front : Text) {back : Text}
    (oneLine : '\n' ∉ back) :
    lastLine (front ++ back) = lastLine front ++ back := by
  rw [lastLine, List.reverse_append, takeWhile_reverse_append oneLine,
    List.reverse_append, List.reverse_reverse, lastLine]

private theorem exists_last_newline {text : Text} (member : '\n' ∈ text) :
    ∃ front rest, text = front ++ '\n' :: rest ∧ '\n' ∉ rest := by
  obtain ⟨back, front, split, oneLine⟩ :=
    List.eq_append_cons_of_mem (List.mem_reverse.mpr member)
  refine ⟨front.reverse, back.reverse, ?_,
    fun inBack => oneLine (List.mem_reverse.mp inBack)⟩
  rw [← List.reverse_reverse text, split]
  simp

theorem lastLine_append_of_mem (front : Text) {back : Text}
    (member : '\n' ∈ back) :
    lastLine (front ++ back) = lastLine back := by
  obtain ⟨lines, rest, rfl, oneLine⟩ := exists_last_newline member
  rw [← List.append_assoc, lastLine_append_cons _ oneLine,
    lastLine_append_cons _ oneLine]

theorem lastLine_newline_cons (rest : Text) :
    lastLine ('\n' :: rest) = lastLine rest := by
  by_cases member : '\n' ∈ rest
  · exact lastLine_append_of_mem ['\n'] member
  · rw [lastLine_of_not_mem member]
    exact lastLine_append_cons [] member

theorem lastLine_isSuffix (text : Text) : lastLine text <:+ text := by
  have begins := @List.takeWhile_prefix _ text.reverse (· != '\n')
  rw [← List.reverse_suffix, List.reverse_reverse] at begins
  exact begins

theorem eq_of_byteSize_eq {left right text : Text} (leftBegins : left <+: text)
    (rightBegins : right <+: text) (same : byteSize left = byteSize right) :
    left = right := by
  rcases Nat.lt_trichotomy left.length right.length with
    shorter | equal | longer
  · have within := List.prefix_of_prefix_length_le leftBegins rightBegins
      (Nat.le_of_lt shorter)
    have less := byteSize_lt_of_isPrefix within shorter
    omega
  · exact (List.prefix_of_prefix_length_le leftBegins rightBegins
      (Nat.le_of_eq equal)).eq_of_length equal
  · have within := List.prefix_of_prefix_length_le rightBegins leftBegins
      (Nat.le_of_lt longer)
    have less := byteSize_lt_of_isPrefix within longer
    omega

/-- Of two beginnings of a text, the one with fewer bytes begins the other. -/
theorem isPrefix_of_byteSize_le {left right text : Text}
    (leftBegins : left <+: text) (rightBegins : right <+: text)
    (le : byteSize left ≤ byteSize right) : left <+: right := by
  rcases Nat.le_total left.length right.length with shorter | longer
  · exact List.prefix_of_prefix_length_le leftBegins rightBegins shorter
  · have within := List.prefix_of_prefix_length_le rightBegins leftBegins longer
    have same := Nat.le_antisymm le (byteSize_le_of_isPrefix within)
    obtain rfl := eq_of_byteSize_eq leftBegins rightBegins same
    exact List.prefix_refl left

end Text

/-! ## Walking -/

namespace Position

theorem line_advance (position : Position) (text : Text) :
    (position.advance text).line = position.line + text.count '\n' := by
  induction text generalizing position with
  | nil => rfl
  | cons c rest ih =>
      rw [advance_cons, ih, next]
      by_cases newline : c = '\n'
      · rw [if_pos newline, newline, List.count_cons_self]
        exact Nat.add_right_comm position.line 1 _
      · rw [if_neg newline, List.count_cons_of_ne newline]

theorem column_advance (position : Position) (text : Text) :
    (position.advance text).column =
      if '\n' ∈ text then 1 + (Text.lastLine text).length
      else position.column + text.length := by
  induction text generalizing position with
  | nil => rfl
  | cons c rest ih =>
      rw [advance_cons, ih, next]
      by_cases later : '\n' ∈ rest
      · rw [if_pos later, if_pos (List.mem_cons_of_mem c later)]
        exact congrArg (1 + ·.length)
          (Text.lastLine_append_of_mem [c] later).symm
      · rw [if_neg later]
        by_cases newline : c = '\n'
        · rw [if_pos newline, newline, if_pos List.mem_cons_self,
            Text.lastLine_newline_cons, Text.lastLine_of_not_mem later]
        · have nowhere : '\n' ∉ c :: rest := by
            rw [List.mem_cons, not_or]
            exact ⟨Ne.symm newline, later⟩
          rw [if_neg newline, if_neg nowhere, List.length_cons]
          exact Nat.add_right_comm position.column 1 _

theorem line_advance_first (front : Text) :
    (first.advance front).line = 1 + front.count '\n' :=
  line_advance first front

theorem column_advance_first (front : Text) :
    (first.advance front).column = 1 + (Text.lastLine front).length := by
  rw [column_advance]
  split
  · rfl
  · rename_i oneLine
    rw [Text.lastLine_of_not_mem oneLine]
    rfl

theorem byteSize_advance_first (front : Text) :
    (first.advance front).offset = Text.byteSize front := by
  rw [offset_advance]
  exact Nat.zero_add _

/-- The position behind the beginning of a text, by counting: its bytes, its
newlines, and the characters behind the last of these. -/
def counted (front : Text) : Position :=
  ⟨Text.byteSize front, 1 + front.count '\n', 1 + (Text.lastLine front).length⟩

theorem advance_first_eq_counted (front : Text) :
    first.advance front = counted front := by
  have offset := byteSize_advance_first front
  have line := line_advance_first front
  have column := column_advance_first front
  cases reached : first.advance front with
  | mk bytes lines characters =>
      rw [reached] at offset line column
      rw [counted, ← offset, ← line, ← column]

/-! ## Finding a position again -/

private theorem dropLines_count (front back : Text) :
    dropLines (front.count '\n') (front ++ back) =
      Text.lastLine front ++ back := by
  induction front with
  | nil =>
      rw [List.count_nil, dropLines, Text.lastLine_of_not_mem List.not_mem_nil]
  | cons c rest ih =>
      by_cases newline : c = '\n'
      · rw [newline, List.count_cons_self, List.cons_append, dropLines,
          if_pos rfl, ih, Text.lastLine_newline_cons]
      · rw [List.count_cons_of_ne newline]
        by_cases later : '\n' ∈ rest
        · obtain ⟨more, count⟩ :=
            Nat.exists_eq_add_of_lt (List.count_pos_iff.mpr later)
          rw [Nat.zero_add] at count
          rw [count] at ih
          rw [count, List.cons_append, dropLines, if_neg newline, ih]
          exact congrArg (· ++ back)
            (Text.lastLine_append_of_mem [c] later).symm
        · have nowhere : '\n' ∉ c :: rest := by
            rw [List.mem_cons, not_or]
            exact ⟨Ne.symm newline, later⟩
          rw [List.count_eq_zero.mpr later, dropLines,
            Text.lastLine_of_not_mem nowhere]

/-- The line and the column of a position in a text are enough to find it. -/
theorem ofLineColumn_advance {front text : Text} (begins : front <+: text) :
    ofLineColumn text (first.advance front).line (first.advance front).column =
      first.advance front := by
  obtain ⟨back, rfl⟩ := begins
  obtain ⟨lines, whole⟩ := Text.lastLine_isSuffix front
  have sizes := congrArg Text.byteSize whole
  rw [Text.byteSize_append] at sizes
  have offset := byteSize_advance_first front
  have line : (first.advance front).line - 1 = front.count '\n' := by
    rw [line_advance_first]
    omega
  have column : (first.advance front).column - 1 =
      (Text.lastLine front).length := by
    rw [column_advance_first]
    omega
  rw [ofLineColumn]
  simp only [line, column, dropLines_count, List.length_append, List.take_left,
    Text.byteSize_append]
  split
  · have same : Text.byteSize front + Text.byteSize back -
        (Text.byteSize (Text.lastLine front) + Text.byteSize back) +
        Text.byteSize (Text.lastLine front) = (first.advance front).offset := by
      omega
    rw [same]
  · have empty : back = [] := List.eq_nil_of_length_eq_zero (by omega)
    have same : Text.byteSize front + Text.byteSize back =
        (first.advance front).offset := by
      rw [empty, offset]
      rfl
    rw [same]

theorem eq_of_line_column {left leftRest right rightRest text : Text}
    (leftBegins : left ++ leftRest <+: text)
    (rightBegins : right ++ rightRest <+: text)
    (line : (first.advance left).line = (first.advance right).line)
    (column : (first.advance left).column = (first.advance right).column) :
    first.advance left = first.advance right := by
  have leftFront : left <+: text :=
    (List.prefix_append left leftRest).trans leftBegins
  have rightFront : right <+: text :=
    (List.prefix_append right rightRest).trans rightBegins
  rw [← ofLineColumn_advance leftFront, line, column,
    ofLineColumn_advance rightFront]

/-- The position stands between two characters of the source, or at an end of
it, and is what counting gives. -/
def IsIn (source : Text) (position : Position) : Prop :=
  ∃ front, front <+: source ∧ position = counted front

theorem isIn_advance {front source : Text} (begins : front <+: source) :
    (first.advance front).IsIn source :=
  ⟨front, begins, advance_first_eq_counted front⟩

end Position

/-! ## Spans -/

namespace Span

/-- The span of a text that stands in the source. -/
def Shows (source text : Text) (span : Span) : Prop :=
  ∃ front, front ++ text <+: source ∧
    span =
      ⟨Position.first.advance front, Position.first.advance (front ++ text)⟩

/-- Both ends were found by walking over the source. -/
def IsExact (source : Text) (span : Span) : Prop :=
  ∃ text, Shows source text span

/-- The beginning was found by walking over the source, and the end was reckoned
from the length of a text that stands there. -/
def IsReckoned (source : Text) (span : Span) : Prop :=
  ∃ front text, front ++ text <+: source ∧
    span =
      ofOffsets (Position.first.advance front) (Text.byteSize (front ++ text))

/-- The span lies in the source, cuts no character, and begins at the line and
column that counting gives. -/
structure Real (source : Text) (span : Span) : Prop where
  start : Text.IsBoundary source span.start.offset
  stop : Text.IsBoundary source span.stop.offset
  ordered : span.start.offset ≤ span.stop.offset
  inside : span.stop.offset ≤ Text.byteSize source
  counted : ∀ front, front <+: source →
    Text.byteSize front = span.start.offset → span.start = .counted front

theorem real_of_offsets {source front text : Text} {span : Span}
    (begins : front ++ text <+: source)
    (start : span.start = Position.first.advance front)
    (stop : span.stop.offset = Text.byteSize (front ++ text)) :
    Real source span := by
  have frontBegins : front <+: source :=
    (List.prefix_append front text).trans begins
  have offset : span.start.offset = Text.byteSize front := by
    rw [start, Position.byteSize_advance_first]
  constructor
  · exact ⟨front, frontBegins, offset.symm⟩
  · exact ⟨front ++ text, begins, stop.symm⟩
  · rw [offset, stop]
    exact Text.byteSize_le_of_isPrefix (List.prefix_append front text)
  · rw [stop]
    exact Text.byteSize_le_of_isPrefix begins
  · intro other otherBegins same
    rw [offset] at same
    rw [Text.eq_of_byteSize_eq otherBegins frontBegins same, start]
    exact Position.advance_first_eq_counted front

theorem IsExact.real {source : Text} {span : Span}
    (isExact : IsExact source span) :
    Real source span := by
  obtain ⟨text, front, begins, rfl⟩ := isExact
  exact real_of_offsets begins rfl (Position.byteSize_advance_first _)

theorem IsReckoned.real {source : Text} {span : Span}
    (isReckoned : IsReckoned source span) :
    Real source span := by
  obtain ⟨front, text, begins, rfl⟩ := isReckoned
  exact real_of_offsets begins rfl rfl

theorem isExact_point {source front : Text} (begins : front <+: source) :
    IsExact source (point (Position.first.advance front)) := by
  refine ⟨[], front, ?_, ?_⟩
  · rwa [List.append_nil]
  · rw [List.append_nil, point]

theorem IsExact.joined {source : Text} {left right : Span}
    (leftExact : IsExact source left) (rightExact : IsExact source right)
    (ordered : left.start.offset ≤ right.stop.offset) :
    IsExact source (left.joined right) := by
  obtain ⟨leftText, leftFront, leftBegins, rfl⟩ := leftExact
  obtain ⟨rightText, rightFront, rightBegins, rfl⟩ := rightExact
  rw [Position.byteSize_advance_first, Position.byteSize_advance_first]
    at ordered
  obtain ⟨text, whole⟩ := Text.isPrefix_of_byteSize_le
    ((List.prefix_append leftFront leftText).trans leftBegins)
    rightBegins ordered
  refine ⟨text, leftFront, ?_, ?_⟩
  · rwa [whole]
  · rw [whole, Span.joined]

/-- A span from one text to another ends with the second of them. -/
theorem Shows.joined {source leftText rightText : Text} {left right : Span}
    (leftShows : Shows source leftText left)
    (rightShows : Shows source rightText right)
    (ordered : left.start.offset ≤ right.start.offset) :
    ∃ between, Shows source (between ++ rightText) (left.joined right) := by
  obtain ⟨leftFront, leftBegins, rfl⟩ := leftShows
  obtain ⟨rightFront, rightBegins, rfl⟩ := rightShows
  rw [Position.byteSize_advance_first, Position.byteSize_advance_first]
    at ordered
  obtain ⟨between, rfl⟩ := Text.isPrefix_of_byteSize_le
    ((List.prefix_append leftFront leftText).trans leftBegins)
    ((List.prefix_append rightFront rightText).trans rightBegins) ordered
  refine ⟨between, leftFront, ?_, ?_⟩
  · rwa [← List.append_assoc]
  · rw [Span.joined, List.append_assoc]

theorem Shows.text_eq {source text : Text} {span : Span}
    (shows : Shows source text span) :
    span.text source = text := by
  obtain ⟨front, ⟨back, rfl⟩, rfl⟩ := shows
  rw [Span.text, Position.byteSize_advance_first,
    Position.byteSize_advance_first, Text.slice_append]

theorem IsExact.isIn {source : Text} {span : Span}
    (isExact : IsExact source span) :
    span.start.IsIn source ∧ span.stop.IsIn source := by
  obtain ⟨text, front, begins, rfl⟩ := isExact
  exact ⟨Position.isIn_advance ((List.prefix_append front text).trans begins),
    Position.isIn_advance begins⟩

/-- A span that was found by walking is known by its line and column and by the
offset of its end. -/
theorem IsExact.eq {source : Text} {left right : Span}
    (leftExact : IsExact source left) (rightExact : IsExact source right)
    (line : left.start.line = right.start.line)
    (column : left.start.column = right.start.column)
    (stop : left.stop.offset = right.stop.offset) : left = right := by
  obtain ⟨leftText, leftFront, leftBegins, rfl⟩ := leftExact
  obtain ⟨rightText, rightFront, rightBegins, rfl⟩ := rightExact
  have start := Position.eq_of_line_column leftBegins rightBegins line column
  rw [Position.byteSize_advance_first, Position.byteSize_advance_first] at stop
  rw [start, Text.eq_of_byteSize_eq leftBegins rightBegins stop]

theorem IsReckoned.eq {source : Text} {left right : Span}
    (leftReckoned : IsReckoned source left)
    (rightReckoned : IsReckoned source right)
    (line : left.start.line = right.start.line)
    (column : left.start.column = right.start.column)
    (stop : left.stop.offset = right.stop.offset) : left = right := by
  obtain ⟨leftFront, leftText, leftBegins, rfl⟩ := leftReckoned
  obtain ⟨rightFront, rightText, rightBegins, rfl⟩ := rightReckoned
  have start := Position.eq_of_line_column leftBegins rightBegins line column
  have size : Text.byteSize (leftFront ++ leftText) =
      Text.byteSize (rightFront ++ rightText) :=
    stop
  rw [start, size]

end Span

end StyleAudit
