import Mathlib.Tactic.MkIffOfInductiveProp
import StyleAudit.Doc.Extract
import StyleAudit.Doc.Render
import StyleAudit.Proofs.Text.Ends
import StyleAudit.Proofs.Text.Pieces
import StyleAudit.Proofs.Text.Trim

/-!
# Writing and reading the lines of a comment

Writing puts a mark in front of each line, and reading takes it away again
together with whatever else looks like part of the comment.  A clean line comes
through unchanged.
-/

namespace StyleAudit

namespace Doc

/-- A line that can stand in a comment: no blank at its ends, no line break, and
no closing mark at its end. -/
@[mk_iff]
structure Clean (line : Text) : Prop where
  trimmed : Text.Trimmed line
  oneLine : '\n' ∉ line
  notClosing : Text.endsWith ['*', '/'] line = false

instance : DecidablePred Clean :=
  fun _ => decidable_of_iff _ (clean_iff _).symm

/-! ## One line -/

/-- The content of a line, without the record of where it stands. -/
theorem content_rest (raw : Text) :
    (content raw).rest =
      let opened :=
        (Text.trimStart raw).drop (openingLength (Text.trimStart raw))
      Text.trimEnd (Text.trimStart
        ((dropClosing opened).drop (starLength (dropClosing opened)))) := by
  simp only [content, Cut.whole, Cut.dropBlanks, Cut.drop, Text.trimStart]

theorem content_rest_eq_nil {raw : Text} (none : Text.trimStart raw = []) :
    (content raw).rest = [] := by
  rw [content_rest, none]
  decide

theorem dropClosing_append_space {line : Text} (clean : Clean line)
    (nonempty : line ≠ []) (front : Text) :
    dropClosing (front ++ ' ' :: line) = front ++ ' ' :: line := by
  have trimmed : Text.trimEnd (front ++ ' ' :: line) =
      front ++ ' ' :: line := by
    have longer :=
      Text.trimEnd_append (front ++ [' ']) nonempty clean.trimmed.trimEnd_eq
    rwa [List.append_assoc, List.singleton_append] at longer
  have kept : Text.dropBack? ['*', '/'] (front ++ ' ' :: line) = none := by
    rw [Text.dropBack?_eq_none_iff, Text.endsWith_append_cons (by decide)]
    exact clean.notClosing
  rw [dropClosing, trimmed, kept, Option.getD_none]

/-- A star in front of a line is taken away. -/
theorem content_starred {line : Text} (clean : Clean line) :
    (content (Block.marked [' ', '*'] line)).rest = line := by
  by_cases empty : line = []
  · subst empty
    decide
  · have marked : Block.marked [' ', '*'] line = ' ' :: '*' :: ' ' :: line := by
      simp [Block.marked, empty]
    have indented : Text.trimStart (' ' :: '*' :: ' ' :: line) =
        '*' :: ' ' :: line := by
      rw [Text.trimStart_cons_of_blank Text.isBlank_space,
        Text.trimStart_cons_of_filled (by decide)]
    have noOpening : openingLength ('*' :: ' ' :: line) = 0 := by
      simp [openingLength, Text.beginsWith, Text.dropFront?]
    have closed : dropClosing ('*' :: ' ' :: line) = '*' :: ' ' :: line :=
      dropClosing_append_space clean empty ['*']
    have star : starLength ('*' :: ' ' :: line) = 1 := by
      have filled : Text.isBlank '*' = false := by decide
      rw [starLength, Text.trimStart_cons_of_filled filled]
      simp [Text.beginsWith, Text.dropFront?, filled]
    rw [marked, content_rest, indented, noOpening]
    simp only [List.drop_zero, closed, star, List.drop_succ_cons]
    rw [Text.trimStart_cons_of_blank Text.isBlank_space,
      clean.trimmed.trimStart_eq, clean.trimmed.trimEnd_eq]

/-- Three slashes in front of a line are taken away, if no star follows. -/
theorem content_slashed {line : Text} (clean : Clean line)
    (noStar : Text.beginsWith ['*'] line = false) :
    (content (Block.marked ['/', '/', '/'] line)).rest = line := by
  by_cases empty : line = []
  · subst empty
    decide
  · have marked : Block.marked ['/', '/', '/'] line =
        '/' :: '/' :: '/' :: ' ' :: line := by
      simp [Block.marked, empty]
    have indented : Text.trimStart ('/' :: '/' :: '/' :: ' ' :: line) =
        '/' :: '/' :: '/' :: ' ' :: line :=
      Text.trimStart_cons_of_filled (by decide) _
    have opening : openingLength ('/' :: '/' :: '/' :: ' ' :: line) = 3 := by
      simp [openingLength, Text.beginsWith, Text.dropFront?]
    have closed : dropClosing (' ' :: line) = ' ' :: line :=
      dropClosing_append_space clean empty []
    have unstarred : starLength (' ' :: line) = 0 := by
      rw [starLength, Text.trimStart_cons_of_blank Text.isBlank_space,
        clean.trimmed.trimStart_eq, noStar, if_neg Bool.false_ne_true]
    rw [marked, content_rest, indented, opening]
    simp only [List.drop_succ_cons, List.drop_zero, closed, unstarred]
    rw [Text.trimStart_cons_of_blank Text.isBlank_space,
      clean.trimmed.trimStart_eq, clean.trimmed.trimEnd_eq]

/-- The mark in front of a line, without the line break. -/
def lineMark : Style → Text
  | .block => [' ', '*']
  | .lines => ['/', '/', '/']

/-- A line that may be written in a style of comment. -/
@[mk_iff]
structure Writable (style : Style) (line : Text) : Prop where
  clean : Clean line
  noStar : style = .lines → Text.beginsWith ['*'] line = false

instance (style : Style) : DecidablePred (Writable style) :=
  fun _ => decidable_of_iff _ (writable_iff ..).symm

private theorem content_marked {style : Style} {line : Text}
    (writable : Writable style line) :
    (content (Block.marked (lineMark style) line)).rest = line := by
  cases style with
  | block => exact content_starred writable.clean
  | lines => exact content_slashed writable.clean (writable.noStar rfl)

theorem map_content_marked {style : Style} {lines : List Text}
    (writable : ∀ line ∈ lines, Writable style line) :
    (lines.map (Block.marked (lineMark style))).map
      (fun raw => (content raw).rest) =
      lines := by
  induction lines with
  | nil => rfl
  | cons line rest ih =>
      have others :=
        ih fun other member => writable other (List.mem_cons_of_mem line member)
      rw [List.map_cons, List.map_cons, others,
        content_marked (writable line List.mem_cons_self)]

/-! ## All lines -/

/-- The lines of a comment that says the given lines. -/
def dressed (style : Style) (lines : List Text) : List Text :=
  match style with
  | .block =>
    ['/', '*', '*'] ::
      (lines.map (Block.marked (lineMark .block)) ++ [[' ', '*', '/']])
  | .lines =>
    if lines.isEmpty then [['/', '/', '/']]
    else lines.map (Block.marked (lineMark .lines))

/-- The empty lines that a style of comment adds at either end. -/
def padding (style : Style) (lines : List Text) : List Text × List Text :=
  match style with
  | .block => ([[]], [[]])
  | .lines => if lines.isEmpty then ([[]], []) else ([], [])

theorem render_eq_join (style : Style) (block : Block) :
    block.render style =
      Text.join ['\n'] (dressed style block.contentLines) := by
  cases style with
  | block =>
      have broken : Block.marked "\n *".toList =
          fun line => ['\n'] ++ Block.marked (lineMark .block) line := by
        funext line
        by_cases empty : line.isEmpty <;> simp [Block.marked, lineMark, empty]
      have opening : "/**".toList = ['/', '*', '*'] := rfl
      have closing : "\n */".toList = ['\n'] ++ [' ', '*', '/'] := rfl
      simp only [Block.render, broken, opening, closing]
      simp only [dressed, Text.join_cons_eq_flatMap, List.flatMap_append,
        List.flatMap_map, List.flatMap_cons, List.flatMap_nil, List.append_nil,
        List.append_assoc]
  | lines =>
      by_cases empty : block.contentLines.isEmpty
      · simp [Block.render, dressed, empty, Text.join]
      · simp [Block.render, dressed, lineMark, empty]

theorem oneLine_marked {mark line : Text} (markClean : '\n' ∉ mark)
    (lineClean : '\n' ∉ line) : '\n' ∉ Block.marked mark line := by
  by_cases empty : line.isEmpty <;>
    simp [Block.marked, empty, markClean, lineClean]

theorem oneLine_dressed (style : Style) {lines : List Text}
    (clean : ∀ line ∈ lines, '\n' ∉ line) :
    ∀ raw ∈ dressed style lines, '\n' ∉ raw := by
  intro raw member
  cases style with
  | block =>
      simp only [dressed, List.mem_cons, List.mem_append, List.mem_map,
        List.not_mem_nil, or_false] at member
      rcases member with rfl | ⟨line, inLines, rfl⟩ | rfl
      · decide
      · exact oneLine_marked (by decide) (clean line inLines)
      · decide
  | lines =>
      rw [dressed] at member
      split at member
      · obtain rfl := List.mem_singleton.mp member
        decide
      · obtain ⟨line, inLines, rfl⟩ := List.mem_map.mp member
        exact oneLine_marked (by decide) (clean line inLines)

theorem dressed_ne_nil (style : Style) (lines : List Text) :
    dressed style lines ≠ [] := by
  cases style with
  | block => exact List.cons_ne_nil _ _
  | lines =>
      rw [dressed]
      split
      · exact List.cons_ne_nil _ _
      · rename_i nonempty
        simpa using nonempty

theorem text_ofRaw (line offset : Nat) (raw : Text) :
    (Line.ofRaw line offset raw).text = (content raw).rest := by
  simp only [Line.ofRaw]
  generalize content raw = cut
  split
  · rename_i empty
    exact (List.isEmpty_iff.mp empty).symm
  · rfl

theorem ofRaw_eq_of_rest_eq_nil (line offset : Nat) {raw : Text}
    (none : (content raw).rest = []) :
    Line.ofRaw line offset raw = ⟨[], line, 1, offset⟩ := by
  rw [Line.ofRaw, none]
  exact if_pos rfl

private theorem line_ofRaw (line offset : Nat) (raw : Text) :
    (Line.ofRaw line offset raw).line = line := by
  rw [Line.ofRaw]
  split <;> rfl

theorem map_text_ofRaws (line offset : Nat) (raws : List Text) :
    (Line.ofRaws line offset raws).map (·.text) =
      raws.map fun raw => (content raw).rest := by
  induction raws generalizing line offset with
  | nil => rfl
  | cons raw rest ih =>
      rw [Line.ofRaws, List.map_cons, List.map_cons, ih, text_ofRaw]

theorem map_line_ofRaws (line offset : Nat) (raws : List Text) :
    (Line.ofRaws line offset raws).map (·.line) =
      List.range' line raws.length := by
  induction raws generalizing line offset with
  | nil => rfl
  | cons raw rest ih =>
      rw [Line.ofRaws, List.map_cons, ih, line_ofRaw, List.length_cons,
        List.range'_succ]

/-- A content line is found under its number. -/
theorem Line.getElem?_all {comment : Text} {line : Line}
    (member : line ∈ Line.all comment) :
    (Line.all comment)[line.line]? = some line := by
  obtain ⟨index, found⟩ := List.getElem?_of_mem member
  have number : ((Line.all comment).map (·.line))[index]? = some line.line := by
    rw [List.getElem?_map, found, Option.map_some]
  rw [Line.all, map_line_ofRaws] at number
  obtain ⟨bound, same⟩ := List.getElem?_eq_some_iff.mp number
  rw [List.getElem_range', Nat.zero_add, Nat.one_mul] at same
  rw [← same, found]

private theorem map_content_dressed (style : Style) {lines : List Text}
    (writable : ∀ line ∈ lines, Writable style line) :
    (dressed style lines).map (fun raw => (content raw).rest) =
      (padding style lines).1 ++ lines ++ (padding style lines).2 := by
  have through := map_content_marked writable
  cases style with
  | block =>
      have opening : (content ['/', '*', '*']).rest = [] := by decide
      have closing : (content [' ', '*', '/']).rest = [] := by decide
      simp only [dressed, padding, List.map_cons, List.map_append,
        through, opening, closing, List.map_nil, List.cons_append,
        List.nil_append]
  | lines =>
      by_cases empty : lines = []
      · have alone : (content ['/', '/', '/']).rest = [] := by decide
        simp [dressed, padding, empty, alone]
      · have filled : lines.isEmpty = false := by simpa using empty
        simp only [dressed, padding, filled, Bool.false_eq_true,
          if_false, through, List.nil_append, List.append_nil]

theorem splitOn_render (style : Style) {block : Block}
    (oneLine : ∀ line ∈ block.contentLines, '\n' ∉ line) :
    Text.splitOn '\n' (block.render style) =
      dressed style block.contentLines := by
  rw [render_eq_join]
  exact Text.splitOn_join (dressed_ne_nil style block.contentLines)
    (oneLine_dressed style oneLine)

/-- The lines that are read from a written block. -/
theorem map_text_all_render (style : Style) {block : Block}
    (writable : ∀ line ∈ block.contentLines, Writable style line) :
    (Line.all (block.render style)).map (·.text) =
      (padding style block.contentLines).1 ++ block.contentLines ++
        (padding style block.contentLines).2 := by
  have whole :=
    splitOn_render style fun line member => (writable line member).clean.oneLine
  rw [Line.all, map_text_ofRaws, whole, map_content_dressed style writable]

end Doc

end StyleAudit
