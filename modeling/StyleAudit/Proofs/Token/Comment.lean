import StyleAudit.Proofs.Text.Unclosed
import StyleAudit.Proofs.Token.Append
import StyleAudit.Proofs.Token.Tiling

/-!
# Comments as tokens

A comment between marks is one token up to the first closing mark, and a run of
doc lines is one token up to the first line that is none.  So a text is a single
comment if it has the closing mark at its end only, or if each of its lines is a
doc line.
-/

namespace StyleAudit

namespace Token

/-! ## Between marks -/

theorem commentLength_of_unclosed {inner : Text}
    (unclosed : Text.Unclosed inner) (rest : Text) :
    commentLength (inner ++ '*' :: '/' :: rest) = some (inner.length + 2) := by
  induction inner with
  | nil => rfl
  | cons c inner ih =>
      have later := ih (unclosed.of_isInfix (List.suffix_cons c inner).isInfix)
      rw [List.cons_append, commentLength, later, Option.map_some,
        List.length_cons, Nat.add_comm 1, Nat.add_right_comm]
      intro behind star slash
      cases inner with
      | nil => cases slash
      | cons d inner =>
          obtain ⟨rfl, -⟩ := List.cons.inj slash
          exact unclosed (star ▸ (List.prefix_append ['*', '/'] inner).isInfix)

theorem exists_of_commentLength {text : Text} {length : Nat}
    (closed : commentLength text = some length) :
    ∃ inner, text.take length = inner ++ ['*', '/'] ∧ Text.Unclosed inner := by
  fun_induction commentLength text generalizing length with
  | case1 => cases closed
  | case2 rest =>
      rw [← Option.some.inj closed]
      exact ⟨[], rfl, Text.unclosed_nil⟩
  | case3 c rest notClosing ih =>
      obtain ⟨shorter, closedLater, rfl⟩ := Option.map_eq_some_iff.mp closed
      obtain ⟨inner, taken, unclosed⟩ := ih closedLater
      refine ⟨c :: inner, ?_, ?_⟩
      · rw [Nat.add_comm, List.take_succ_cons, taken, List.cons_append]
      · intro closing
        rcases List.infix_cons_iff.mp closing with here | later
        · obtain ⟨behind, same⟩ := here
          obtain ⟨star, slash⟩ := List.cons.inj same
          have begins : inner ++ ['*', '/'] <+: rest :=
            taken ▸ List.take_prefix shorter rest
          rw [← slash] at begins
          obtain ⟨others, whole⟩ := begins
          exact notClosing (behind ++ ['*', '/'] ++ others) star.symm
            (by simp [← whole])
        · exact unclosed later

/-- If the token is a comment between marks, it has the closing mark at its end
only. -/
def Kind.ClosesOnce (kind : Kind) : Prop :=
  ∀ style text, kind = .comment style text → style ≠ .docLine →
    ∃ inner, text = '/' :: '*' :: inner ++ ['*', '/'] ∧ Text.Unclosed inner

theorem Kind.closesOnce_of_isComment_eq_false {kind : Kind}
    (other : kind.isComment = false) :
    kind.ClosesOnce := by
  rintro style text rfl
  cases other

namespace Lexeme

theorem read_slash_star (rest : Text) :
    read '/' ('*' :: rest) = comment ('*' :: rest) :=
  rfl

theorem read_slashes (rest : Text) :
    read '/' ('/' :: '/' :: rest) = docLines ('/' :: '/' :: rest) :=
  rfl

private theorem closesOnce_comment {rest : Text}
    (star : Text.beginsWith ['*'] rest) :
    (comment rest).kind.ClosesOnce := by
  obtain ⟨behind, rfl⟩ := Text.beginsWith_iff.mp star
  unfold comment
  split
  · exact Kind.closesOnce_of_isComment_eq_false rfl
  · rename_i length closed
    obtain ⟨inner, taken, unclosed⟩ := exists_of_commentLength closed
    intro style text same _
    obtain ⟨-, rfl⟩ := Kind.comment.inj same
    refine ⟨inner, ?_, unclosed⟩
    have whole : (['*'] ++ behind).take (1 + length) =
        '*' :: behind.take length := by
      rw [Nat.add_comm, List.singleton_append, List.take_succ_cons]
    have taken : behind.take length = inner ++ ['*', '/'] := taken
    rw [whole, taken, List.cons_append, List.cons_append]

/-- A lexeme is a comment just behind the marks of one. -/
theorem read_comment_cases (c : Char) (rest : Text) :
    (read c rest).kind.isComment = false ∨ c = '/' ∧
      (read c rest = docLines rest ∨ Text.beginsWith ['*'] rest ∧
        read c rest = comment rest) := by
  apply read_elim
    (motive := fun lexeme => lexeme.kind.isComment = false ∨ c = '/' ∧
    (lexeme = docLines rest ∨ Text.beginsWith ['*'] rest ∧
      lexeme = comment rest))
  case mark =>
    have table : ∀ kind ∈ [Kind.openBrace, .closeBrace, .semicolon,
        .colon, .comma], kind.isComment = false := by
      decide
    exact fun kind member => .inl (table kind member)
  case docLines => exact fun slash _ => .inr ⟨slash, .inl rfl⟩
  case comment => exact fun slash star => .inr ⟨slash, .inr ⟨star, rfl⟩⟩
  case string => exact fun _ => .inl (by unfold string; split <;> rfl)
  case parameters => exact fun _ => .inl (by unfold parameters; split <;> rfl)
  case interpolation =>
    exact fun _ _ => .inl (by unfold interpolation; split <;> rfl)
  case keyword =>
    intro _
    exact .inl
      (kind_signed (motive := (·.isComment = false)) '@' rest rfl fun _ => rfl)
  case variableName =>
    intro _
    exact .inl
      (kind_signed (motive := (·.isComment = false)) '$' rest rfl fun _ => rfl)
  case word => exact fun _ => .inl rfl
  case delimiter => exact .inl rfl

private theorem closesOnce_read (c : Char) (rest : Text) :
    (read c rest).kind.ClosesOnce := by
  rcases read_comment_cases c rest with other | ⟨-, lines | ⟨star, marked⟩⟩
  · exact Kind.closesOnce_of_isComment_eq_false other
  · rw [lines]
    intro style text same noRun
    exact (noRun (Kind.comment.inj same).1.symm).elim
  · rw [marked]
    exact closesOnce_comment star

/-- A comment carries the text that it covers. -/
theorem text_of_comment_read {c : Char} {rest : Text} {style : CommentStyle}
    {text : Text} (isComment : (read c rest).kind = .comment style text) :
    text = c :: rest.take (read c rest).tail := by
  rcases read_comment_cases c rest with other | ⟨rfl, lines | ⟨-, marked⟩⟩
  · rw [isComment] at other
    cases other
  · rw [lines] at isComment ⊢
    exact (Kind.comment.inj isComment).2.symm
  · rw [marked] at isComment ⊢
    unfold comment at isComment ⊢
    split at isComment
    · cases isComment
    · exact (Kind.comment.inj isComment).2.symm

end Lexeme

theorem closesOnce_of_mem_scan {source : Text} {token : Token}
    (member : token ∈ scan source) :
    token.kind.ClosesOnce := by
  rcases (layout_scan source).mem_cases member with
    ⟨before, c, rest, -, -, rfl⟩ | rfl
  · exact Lexeme.closesOnce_read c rest
  · exact Kind.closesOnce_of_isComment_eq_false rfl

theorem text_of_comment_mem_scan {source : Text} {token : Token}
    (member : token ∈ scan source) {style : CommentStyle} {text : Text}
    (isComment : token.kind = .comment style text) :
    token.text = text := by
  rcases (layout_scan source).mem_cases member with
    ⟨before, c, rest, -, -, rfl⟩ | rfl
  · exact (Lexeme.text_of_comment_read isComment).symm
  · cases isComment

/-! ## Doc lines -/

theorem docLinesLength_append_of_oneLine {line : Text} (oneLine : '\n' ∉ line)
    (more : Text) :
    docLinesLength (line ++ more) = line.length + docLinesLength more := by
  induction line with
  | nil => rw [List.nil_append, List.length_nil, Nat.zero_add]
  | cons c line ih =>
      rw [List.mem_cons, not_or] at oneLine
      rw [List.cons_append, docLinesLength, if_neg (Ne.symm oneLine.1),
        ih oneLine.2, List.length_cons]
      omega

/-- A line of a run of doc lines. -/
structure IsDocLine (line : Text) : Prop where
  begins : isDocLine line = true
  oneLine : '\n' ∉ line

theorem IsDocLine.isDocLine_append {line more : Text} (isLine : IsDocLine line)
    (ended : AtLineEnd more) : isDocLine (line ++ more) = true := by
  rw [isDocLine_iff, isPrefix_append_iff_of_atLineEnd (by decide) ended,
    isPrefix_append_iff_of_atLineEnd (by decide) ended, ← isDocLine_iff]
  exact isLine.begins

theorem IsDocLine.docLinesLength_newline {line more : Text}
    (isLine : IsDocLine line) (ended : AtLineEnd more) :
    docLinesLength ('\n' :: (line ++ more)) =
      1 + docLinesLength (line ++ more) := by
  have goesOn := isLine.isDocLine_append ended
  obtain ⟨behind, slashes⟩ := (isDocLine_iff.mp goesOn).1
  have unindented : (line ++ more).dropWhile
      (fun d => d == ' ' || d == '\t' || d == '\r') =
      line ++ more := by
    rw [← slashes]
    rfl
  rw [docLinesLength, if_pos rfl, unindented, if_pos goesOn]

/-- Lines behind a first one, each on a line of its own. -/
def following (others : List Text) : Text :=
  others.flatMap ('\n' :: ·)

theorem atLineEnd_following {others : List Text} {more : Text}
    (ended : AtLineEnd more) :
    AtLineEnd (following others ++ more) := by
  cases others with
  | nil => exact ended
  | cons line others =>
      exact .inr ⟨line ++ following others ++ more, by simp [following]⟩

/-- A run of doc lines ends where the next line is none. -/
theorem docLinesLength_run {first more : Text} {others : List Text}
    (oneLine : '\n' ∉ first) (docLines : ∀ line ∈ others, IsDocLine line)
    (ended : AtLineEnd more) (stops : docLinesLength more = 0) :
    docLinesLength (first ++ following others ++ more) =
      (first ++ following others).length := by
  induction others generalizing first with
  | nil =>
      rw [following, List.flatMap_nil, List.append_nil,
        docLinesLength_append_of_oneLine oneLine, stops, Nat.add_zero]
  | cons line others ih =>
      have isLine := docLines line List.mem_cons_self
      have later := ih isLine.oneLine fun other member =>
        docLines other (List.mem_cons_of_mem line member)
      have split : following (line :: others) =
          '\n' :: (line ++ following others) := by
        rw [following, List.flatMap_cons, List.cons_append, following]
      rw [split, List.append_assoc, docLinesLength_append_of_oneLine oneLine,
        List.cons_append, List.append_assoc,
        isLine.docLinesLength_newline (atLineEnd_following ended),
        ← List.append_assoc, later]
      simp only [List.length_append, List.length_cons]
      omega

/-! ## A comment in front of a text -/

/-- With `more` behind it, the text is read as one comment. -/
structure ReadsComment (style : CommentStyle) (comment more : Text) : Prop where
  read : ∃ rest, comment = '/' :: rest ∧
    Lexeme.read '/' (rest ++ more) = ⟨.comment style comment, rest.length⟩
  noGap : isLineComment (comment ++ more) = false

/-- The token of a comment at the front of a source. -/
def commentAtFront (style : CommentStyle) (comment gap : Text) : Token :=
  { kind := .comment style comment,
    span := ⟨.first, Position.first.advance comment⟩, text := comment, gap }

theorem ReadsComment.scan_append {style : CommentStyle} {comment more : Text}
    (reads : ReadsComment style comment more) :
    scan (comment ++ more) = commentAtFront style comment (leadingGap more) ::
      scanFrom (Position.first.advance (comment ++ leadingGap more))
        (afterGap more) := by
  obtain ⟨rest, rfl, read⟩ := reads.read
  have noGap : gapLength false ('/' :: (rest ++ more)) = 0 := by
    apply gapLength_of_token (by decide)
    rw [← List.cons_append, reads.noGap]
    exact Bool.false_ne_true
  have nothing : leadingGap ('/' :: (rest ++ more)) = [] := by
    rw [leadingGap, noGap, List.take_zero]
  have all : afterGap ('/' :: (rest ++ more)) = '/' :: (rest ++ more) := by
    rw [afterGap, noGap, List.drop_zero]
  rw [List.cons_append, scan, nothing, all, scanFrom_cons]
  simp only [read, List.take_left, List.drop_left, Position.advance_nil]
  rw [← Position.advance_append]
  rfl

/-- A doc comment between marks. -/
theorem readsComment_doc {tail : Text} (unclosed : Text.Unclosed ('*' :: tail))
    (more : Text) :
    ReadsComment .doc ('/' :: '*' :: '*' :: tail ++ ['*', '/']) more := by
  have length : commentLength ('*' :: tail ++ '*' :: '/' :: more) =
      some (tail.length + 3) :=
    commentLength_of_unclosed unclosed more
  have notEmpty : Text.beginsWith ['*', '*', '/']
      ('*' :: ('*' :: tail ++ '*' :: '/' :: more)) =
      false := by
    rw [← Bool.not_eq_true, Text.beginsWith_iff]
    cases tail with
    | nil => simp
    | cons c tail =>
        have noSlash : c ≠ '/' := by
          rintro rfl
          exact unclosed (List.prefix_append ['*', '/'] tail).isInfix
        simp [Ne.symm noSlash]
  have stars : Text.beginsWith ['*', '*']
      ('*' :: ('*' :: tail ++ '*' :: '/' :: more)) = true := by
    simp [Text.beginsWith, Text.dropFront?]
  have whole : '*' :: '*' :: tail ++ ['*', '/'] ++ more =
      '*' :: ('*' :: tail ++ '*' :: '/' :: more) := by
    simp
  have reach : 1 + (tail.length + 3) =
      ('*' :: '*' :: tail ++ ['*', '/']).length := by
    simp only [List.length_append, List.length_cons, List.length_nil]
    omega
  refine ⟨⟨'*' :: '*' :: tail ++ ['*', '/'], rfl, ?_⟩, rfl⟩
  rw [whole, Lexeme.read_slash_star, Lexeme.comment, List.drop_succ_cons,
    List.drop_zero, length]
  simp only [notEmpty, stars]
  rw [reach, ← whole, List.take_left]
  rfl

/-- A run of doc lines. -/
theorem readsComment_docLine {first more : Text} {others : List Text}
    (isLine : IsDocLine first) (docLines : ∀ line ∈ others, IsDocLine line)
    (ended : AtLineEnd more) (stops : docLinesLength more = 0) :
    ReadsComment .docLine (first ++ following others) more := by
  have goesOn : isDocLine (first ++ following others ++ more) = true := by
    rw [List.append_assoc]
    exact isLine.isDocLine_append (atLineEnd_following ended)
  obtain ⟨⟨behind, rfl⟩, -⟩ := isDocLine_iff.mp isLine.begins
  have oneLine : '\n' ∉ '/' :: '/' :: behind := fun member =>
    isLine.oneLine (List.mem_cons_of_mem '/' member)
  have length := docLinesLength_run oneLine docLines ended stops
  constructor
  · refine ⟨'/' :: '/' :: behind ++ following others, rfl, ?_⟩
    rw [List.cons_append, List.cons_append, List.cons_append, List.cons_append,
      Lexeme.read_slashes, Lexeme.docLines]
    simp only [← List.cons_append, length, List.take_left]
    rfl
  · rw [isLineComment, goesOn, Bool.not_true, Bool.and_false]

end Token

end StyleAudit
