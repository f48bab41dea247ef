import StyleAudit.Proofs.Stylesheet.Shift
import StyleAudit.Proofs.Text.Pieces
import StyleAudit.Proofs.Token.Append

/-!
# One stylesheet behind another

When a stylesheet ends with a block, nothing of it is left open behind its last
brace: no token, no comment that waits, no item at hand.  What is put behind it
on a new line is read as it would be on its own, further down.
-/

namespace StyleAudit

/-! ## Lines -/

namespace Text

private theorem linesOfPieces_append (left : List Text) {right : List Text}
    (filled : right ≠ []) :
    linesOfPieces (left ++ right) = left.map dropReturn ++
      linesOfPieces right := by
  induction left with
  | nil => rfl
  | cons piece rest ih =>
      obtain ⟨next, others, split⟩ : ∃ next others,
        rest ++ right = next :: others :=
        List.exists_cons_of_ne_nil (by simp [filled])
      rw [List.cons_append, split, linesOfPieces, ← split, ih]
      rfl

/-- The lines behind a newline come after as many lines as there are newlines up
to it. -/
theorem getElem?_lines_append (front back : Text) (place : Nat) :
    (lines (front ++ '\n' :: back))[front.count '\n' + 1 + place]? =
      (lines back)[place]? := by
  have lengths : ((splitOn '\n' front).map dropReturn).length =
      front.count '\n' + 1 := by
    rw [List.length_map, length_splitOn]
  rw [lines, splitOn_append, linesOfPieces_append _ (splitOn_ne_nil back),
    List.getElem?_append_right (by omega), lengths, Nat.add_sub_cancel_left]
  rfl

end Text

/-! ## Outlines -/

namespace Outline

/-- The open blocks, with items in front of all of them. -/
def Frame.behindAll (before : List Item) : List Frame → List Frame
  | [] => []
  | [frame] => [{ frame with before := before ++ frame.before }]
  | frame :: next :: rest => frame :: behindAll before (next :: rest)

namespace Draft

/-- The draft, with items in front of all that it holds. -/
def behind (before : List Item) (draft : Draft) : Draft :=
  { draft with
    frames := Frame.behindAll before draft.frames,
    items :=
      if draft.frames.isEmpty then before ++ draft.items else draft.items }

private theorem closed_behind_of_open {draft : Draft}
    (inside : draft.frames ≠ []) (before : List Item) :
    (draft.behind before).closed = draft.closed := by
  have filled : draft.frames.isEmpty = false := by simpa using inside
  simp only [closed, behind, filled, Bool.false_eq_true, if_false]

theorem closed_behind_of_closed {draft : Draft} (outside : draft.frames = [])
    (before : List Item) :
    (draft.behind before).closed = before ++ draft.closed := by
  rw [closed, closed, behind, outside]
  cases draft.head with
  | nil => rfl
  | cons token rest => exact List.append_assoc ..

/-- A draft takes a token in the same way, whatever items stand in front. -/
theorem step_behind (before : List Item) (draft : Draft) (token : Token) :
    (draft.behind before).step token =
      (draft.step token).map (behind before) := by
  have head : (draft.behind before).head = draft.head := rfl
  rw [step, step, head]
  cases token.kind with
  | comment style text =>
      cases draft.head.isEmpty
      · rfl
      · cases frames : draft.frames <;> simp [behind, frames, Except.map]
  | semicolon =>
      cases draft.head.isEmpty
      · cases frames : draft.frames <;> simp [behind, frames, Except.map]
      · cases frames : draft.frames <;> simp [behind, frames, Except.map]
  | openBrace =>
      cases frames : draft.frames <;>
        simp [behind, frames, Except.map, Frame.behindAll]
  | closeBrace =>
      cases frames : draft.frames with
      | nil => simp [behind, frames, Except.map, Frame.behindAll]
      | cons frame rest =>
          rw [closed_behind_of_open (by simp [frames])]
          cases rest <;> simp [behind, frames, Except.map, Frame.behindAll]
  | unterminated construct => rfl
  | endOfInput => rfl
  | _ => rfl

theorem step_of_frame {draft : Draft} {frame : Frame} {rest : List Frame}
    (inside : draft.frames = frame :: rest) {token : Token}
    (closing : token.kind = .closeBrace) :
    draft.step token = .ok
      ⟨rest, frame.before ++
        [.block frame.head frame.opening draft.closed token], []⟩ := by
  rw [step, closing, inside]

end Draft

/-- Items in front of all tokens stand in front of the outline. -/
theorem foldlM_behind (before : List Item) (tokens : List Token) :
    (tokens.foldlM Draft.step { items := before } >>= Draft.finish) =
      (ofTokens tokens).map (before ++ ·) := by
  have follows : ∀ (draft : Draft) (token : Token),
      (draft.behind before).step (id token) =
      ((draft.step token).mapError id).map (Draft.behind before) := by
    intro draft token
    rw [id, Draft.step_behind]
    cases draft.step token <;> rfl
  have run := foldlM_of_step follows {} tokens
  rw [List.map_id] at run
  have start : Draft.behind before {} = { items := before } := by
    simp [Draft.behind, Frame.behindAll]
  rw [start] at run
  rw [ofTokens, run]
  cases tokens.foldlM Draft.step {} with
  | error fault => rfl
  | ok final =>
      change (final.behind before).finish = (final.finish).map (before ++ ·)
      rw [Draft.finish, Draft.finish]
      cases frames : final.frames with
      | nil =>
          rw [Draft.closed_behind_of_closed frames]
          simp [Draft.behind, frames, Except.map, Frame.behindAll]
      | cons frame rest =>
          cases rest <;>
            simp [Draft.behind, frames, Except.map, Frame.behindAll]

/-- An outline whose last token is a closing brace ends with a block, and the
gap behind the brace does not matter. -/
theorem foldlM_of_closeBrace {front : List Token} {brace last : Token}
    {items : List Item}
    (outline : ofTokens (front ++ [brace, last]) = .ok items)
    (closing : brace.kind = .closeBrace) (ending : last.kind = .endOfInput) :
    ∃ before head opening inner,
      items = before ++ [.block head opening inner brace] ∧
      ∀ other : Token, other.kind = .closeBrace →
        (front ++ [other]).foldlM Draft.step {} =
          .ok { items := before ++ [.block head opening inner other] } := by
  cases ran : front.foldlM Draft.step {} with
  | error fault =>
      rw [ofTokens, List.foldlM_append, ran] at outline
      cases outline
  | ok draft =>
      have whole : ofTokens (front ++ [brace, last]) =
          (draft.step brace >>= fun next =>
            next.step last >>= Draft.finish) := by
        rw [ofTokens, List.foldlM_append, ran]
        change ((draft.step brace >>= fun next => next.step last >>= pure) >>=
          Draft.finish) = _
        rw [bind_assoc]
        simp only [bind_pure]
      cases frames : draft.frames with
      | nil =>
          have outside : draft.openings = [] := List.map_eq_nil_iff.mpr frames
          rw [whole, Draft.step_of_strayBrace closing outside] at outline
          cases outline
      | cons frame rest =>
          rw [whole, Draft.step_of_frame frames closing] at outline
          change (Draft.step _ last >>= Draft.finish) = .ok items at outline
          rw [Draft.step, ending] at outline
          change Draft.finish _ = .ok items at outline
          cases rest with
          | cons outer rest => cases outline
          | nil =>
              refine ⟨frame.before, frame.head, frame.opening,
                draft.closed, ?_, ?_⟩
              · exact (Except.ok.inj outline).symm
              · intro other kind
                rw [List.foldlM_append, ran]
                change (draft.step other >>= pure) = _
                rw [bind_pure, Draft.step_of_frame frames kind]

end Outline

/-! ## Tokens -/

/-- How far a text moves when it is put behind `front`, on a new line. -/
def Shift.past (front : Text) : Shift :=
  ⟨Text.byteSize front + 1, front.count '\n' + 1⟩

theorem Position.advance_past (front back : Text) :
    first.advance (front ++ '\n' :: back) =
      (first.advance back).shift (.past front) := by
  have newline : (first.advance front).next '\n' =
      first.shift (.past front) := by
    rw [next, if_pos rfl, byteSize_advance_first, line_advance_first]
    simp only [first, Position.shift, Shift.past, Nat.zero_add, Nat.add_assoc]
    rfl
  rw [advance_append, advance_cons, newline, advance_shift]

namespace Token

/-- Nothing but gap stands behind the last closing brace. -/
def EndsClosed (source : Text) : Prop :=
  ∀ last ∈ (scan source).dropLast.getLast?, last.kind = .closeBrace

instance (source : Text) : Decidable (EndsClosed source) :=
  inferInstanceAs
    (Decidable (∀ last ∈ (scan source).dropLast.getLast?,
      last.kind = .closeBrace))

theorem EndsClosed.cases {source : Text} (closed : EndsClosed source) :
    let last := endAt (Position.first.advance source)
    scan source = [last] ∨
      ∃ front brace, scan source = front ++ [brace, last] ∧
        brace.kind = .closeBrace := by
  obtain ⟨others, split, -⟩ := (layout_scan source).ended
  rw [EndsClosed, split, List.dropLast_concat] at closed
  rcases List.eq_nil_or_concat others with rfl | ⟨front, brace, rfl⟩
  · exact .inl split
  · refine .inr ⟨front, brace, ?_, closed brace (by simp)⟩
    rw [split, List.concat_eq_append, List.append_assoc]
    rfl

theorem scanFrom_past (front back : Text) :
    scanFrom (Position.first.advance (front ++ '\n' :: leadingGap back))
      (afterGap back) =
      (scan back).map (Token.shift (.past front)) := by
  rw [Position.advance_past, scanFrom_shift, scan]

end Token

/-! ## Stylesheets -/

/-- The failure, moved. -/
def Failure.shift (shift : Shift) (failure : Failure) : Failure :=
  match failure.cause with
  | .malformed detail line column sourceLine =>
    { failure with
      cause := .malformed detail (line + shift.lines) column sourceLine }
  | .cancelled => failure
  | .snapshot _ => failure

namespace Stylesheet

theorem append_assoc (first second third : Stylesheet) :
    (first.append second).append third =
      first.append (second.append third) := by
  simp only [append, List.append_assoc]

theorem runSpan_concat {last other : Token} (same : last.span = other.span)
    (tokens : List Token) :
    Token.runSpan (tokens ++ [last]) = Token.runSpan (tokens ++ [other]) := by
  cases tokens with
  | nil =>
      rw [List.nil_append, List.nil_append, Token.runSpan, Token.runSpan,
        List.getLastD_nil, List.getLastD_nil, same]
  | cons token rest =>
      rw [List.cons_append, List.cons_append, Token.runSpan, Token.runSpan,
        List.getLastD_concat, List.getLastD_concat, same]

/-- Behind a block no comment waits, so that what follows is read on its own.
Of the brace only the place matters. -/
theorem ofItems_append_block {closing other : Token}
    (same : closing.span = other.span) (pending : Option Comment)
    (before : List Item) (head : List Token) (opening : Token)
    (inner rest : List Item) :
    ofItems pending (before ++ .block head opening inner closing :: rest) =
      (ofItems pending (before ++ [.block head opening inner other])).append
        (ofItems none rest) := by
  induction before generalizing pending with
  | nil =>
      have span := runSpan_concat same (head ++ [opening])
      rw [List.append_assoc, List.append_assoc] at span
      have ended : ofItems none [] = ⟨[], []⟩ := rfl
      have block : ofItem pending (.block head opening inner closing) =
          ofItem pending (.block head opening inner other) := by
        rw [ofItem, ofItem]
        exact congrArg (fun span => (ofBlock pending span _ _, none)) span
      rw [List.nil_append, List.nil_append, ofItems, ofItems, block]
      simp only [ofItem, ended, append_empty]
  | cons item before ih =>
      rw [List.cons_append, List.cons_append, ofItems, ofItems, ih,
        append_assoc]

/-- Behind a stylesheet that ends with a block, the outline is the one of the
text behind it, moved, with items in front that give the stylesheet. -/
theorem exists_outline_append {front : Text} {sheet : Stylesheet}
    (done : read front = .ok sheet) (closed : Token.EndsClosed front)
    (back : Text) :
    ∃ before,
      (∀ rest,
        ofItems none (before ++ rest) = sheet.append (ofItems none rest)) ∧
      Outline.ofTokens (Token.scan (front ++ '\n' :: back)) =
        (Outline.ofTokens
          ((Token.scan back).map (Token.shift (.past front)))).map
            (before ++ ·) := by
  obtain ⟨items, outline, rfl⟩ : ∃ items,
      Outline.ofTokens (Token.scan front) = .ok items ∧
        sheet = ofItems none items := by
    cases outline : Outline.ofTokens (Token.scan front) with
    | error fault =>
        rw [read, parse, outline] at done
        cases done
    | ok items =>
        rw [read, parse, outline] at done
        exact ⟨items, rfl, (Except.ok.inj done).symm⟩
  rcases closed.cases with scanned | ⟨others, brace, scanned, closing⟩
  · rw [scanned] at outline
    have empty : items = [] := (Except.ok.inj outline).symm
    refine ⟨[], fun rest => ?_, ?_⟩
    · rw [empty]
      rfl
    · rw [Token.scan_append_newline_of_gap scanned, Token.scanFrom_past]
      exact (congrFun Except.map_id _).symm
  · rw [scanned] at outline
    obtain ⟨before, head, opening, inner, rfl, runs⟩ :=
      Outline.foldlM_of_closeBrace outline closing rfl
    obtain ⟨other, kind, span, whole⟩ : ∃ other : Token,
        other.kind = .closeBrace ∧ other.span = brace.span ∧
          Token.scan (front ++ '\n' :: back) =
            others ++ [other] ++ (Token.scan back).map
              (Token.shift (.past front)) := by
      refine ⟨{ brace with gap := brace.gap ++ '\n' :: Token.leadingGap back },
        closing, rfl, ?_⟩
      rw [Token.scan_append_newline scanned closing, Token.scanFrom_past,
        List.append_assoc]
      rfl
    refine ⟨before ++ [.block head opening inner other], fun rest => ?_, ?_⟩
    · rw [List.append_assoc]
      exact ofItems_append_block span none before head opening inner rest
    · rw [whole, Outline.ofTokens, List.foldlM_append, runs other kind]
      exact Outline.foldlM_behind _ _

private theorem failureAt_shift (front : Text) {back : Text} (message : String)
    {token : Token} (member : token ∈ Token.scan back) :
    failureAt (front ++ '\n' :: back) message (token.shift (.past front)) =
      (failureAt back message token).shift (.past front) := by
  obtain ⟨before, -, span⟩ := (Token.inOrder_scan back).shown token member
  have line : token.span.start.line = 1 + before.count '\n' := by
    rw [span, Position.line_advance_first]
  have place : (token.shift (.past front)).span.start.line - 1 =
      front.count '\n' + 1 + (token.span.start.line - 1) := by
    change token.span.start.line + (front.count '\n' + 1) - 1 = _
    omega
  rw [failureAt, place, Text.getElem?_lines_append]
  rfl

/-- Behind a stylesheet that ends with a block, a text on a new line is read as
on its own.  If it can be read, its nodes and orphans follow those in front,
moved behind them; if not, the failure is the same, in a line further down. -/
theorem read_append_newline {front : Text} {sheet : Stylesheet}
    (done : read front = .ok sheet) (closed : Token.EndsClosed front)
    (back : Text) :
    read (front ++ '\n' :: back) =
      ((read back).mapError (Failure.shift (.past front))).map
        fun other => sheet.append (other.shift (.past front)) := by
  obtain ⟨before, placed, outline⟩ := exists_outline_append done closed back
  rw [Outline.ofTokens_shift] at outline
  rcases Outline.ofTokens_cases (Token.scan back) with
    ⟨items, behind, -⟩ | ⟨flaw, token, stopped, faulty⟩
  · rw [behind] at outline
    have moved :=
      ofItems_shift (.past front) (Outline.shaped_ofTokens behind) none
    rw [read, parse, read, parse, outline, behind]
    change Except.ok
      (ofItems none (before ++ Item.shiftAll (.past front) items)) =
      .ok (sheet.append ((ofItems none items).shift (.past front)))
    rw [placed, ← moved]
    rfl
  · rw [stopped] at outline
    have failed : Outline.ofTokens (Token.scan (front ++ '\n' :: back)) =
        .error ⟨flaw, (token.shift (.past front)).span⟩ := outline
    rw [read_of_ofTokens_error stopped, read_of_ofTokens_error failed,
      failureAt_shift front flaw.message faulty.mem]
    rfl

/-- Behind a rule and a comment that runs to the end of its line, another rule
is read, two lines further down, and a block that nothing closes is not. -/
theorem read_append_newline_card :
    let front := ".a\n\x7b\x7d // \x7b".toList
    let good := "/**b*/.b\x7b\x7d".toList
    let broken := ".é\n .c \x7b".toList
    ∃ sheet other, read front = .ok sheet ∧ Token.EndsClosed front ∧
    read good = .ok other ∧
      read (front ++ '\n' :: good) = .ok (sheet.append (other.shift ⟨11, 2⟩)) ∧
      read (front ++ '\n' :: broken) =
        .error
          { cause := .malformed "unclosed block" 4 5 " .c \x7b".toList } := by
  intro front good broken
  have closed : Token.EndsClosed front := by decide +kernel
  obtain ⟨sheet, done⟩ : ∃ sheet, read front = .ok sheet :=
    exists_of_isOk (by decide +kernel)
  obtain ⟨other, also⟩ : ∃ other, read good = .ok other :=
    exists_of_isOk (by decide +kernel)
  refine ⟨sheet, other, done, closed, also, ?_, ?_⟩
  · rw [read_append_newline done closed, also]
    rfl
  · have fails : (read broken).map (fun _ => ()) =
        .error
          { cause := .malformed "unclosed block" 2 5 " .c \x7b".toList } := by
      decide +kernel
    rw [read_append_newline done closed]
    cases failed : read broken with
    | ok _ =>
        rw [failed] at fails
        cases fails
    | error failure =>
        rw [failed] at fails
        rw [Except.error.inj fails]
        rfl

end Stylesheet

end StyleAudit
