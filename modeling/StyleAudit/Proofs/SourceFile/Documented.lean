import StyleAudit.Proofs.Doc.Comment
import StyleAudit.Proofs.Stylesheet.Compose
import StyleAudit.SourceFile.Build

/-!
# A written block documents the rule behind it

What is written for a block goes through all stages of reading a file: it is one
comment, the comment waits for the rule on the next line, and the declaration of
the rule has the block.
-/

namespace StyleAudit

/-! ## A comment in front of a stylesheet -/

namespace Token

/-- The tokens of a stylesheet with a comment on the lines in front of it. -/
theorem ReadsComment.scan_past {style : CommentStyle} {comment back : Text}
    (reads : ReadsComment style comment ('\n' :: back)) :
    scan (comment ++ '\n' :: back) =
      commentAtFront style comment ('\n' :: leadingGap back) ::
        (scan back).map (Token.shift (.past comment)) := by
  have length : gapLength false ('\n' :: back) = gapLength false back + 1 :=
    gapLength_of_blank (by decide)
  have gap : leadingGap ('\n' :: back) = '\n' :: leadingGap back := by
    rw [leadingGap, length, List.take_succ_cons, leadingGap]
  have behind : afterGap ('\n' :: back) = afterGap back := by
    rw [afterGap, length, List.drop_succ_cons, afterGap]
  rw [reads.scan_append, gap, behind, scanFrom_past]

end Token

namespace Stylesheet

/-- The comment at the front of a source. -/
def frontComment (style : CommentStyle) (text : Text) : Comment :=
  ⟨style, text, ⟨.first, Position.first.advance text⟩⟩

/-- A stylesheet with a comment on the lines in front of it is read as if the
comment had been waiting. -/
theorem read_comment_past {style : CommentStyle} {comment back : Text}
    {items : List Item}
    (reads : Token.ReadsComment style comment ('\n' :: back))
    (outline : Outline.ofTokens (Token.scan back) = .ok items) :
    read (comment ++ '\n' :: back) =
      .ok (ofItems (some (frontComment style comment))
        (Item.shiftAll (.past comment) items)) := by
  let token :=
    Token.commentAtFront style comment ('\n' :: Token.leadingGap back)
  have whole : Outline.ofTokens (Token.scan (comment ++ '\n' :: back)) =
      .ok (.comment style token :: Item.shiftAll (.past comment) items) := by
    have first : ∀ tokens, Outline.ofTokens (token :: tokens) =
        (tokens.foldlM Outline.Draft.step
          { items := [.comment style token] } >>=
          Outline.Draft.finish) :=
      fun _ => rfl
    rw [reads.scan_past, first, Outline.foldlM_behind, Outline.ofTokens_shift,
      outline]
    rfl
  have settled : ofItems none
      (.comment style token :: Item.shiftAll (.past comment) items) =
      ofItems (some (frontComment style comment))
        (Item.shiftAll (.past comment) items) := by
    rw [ofItems, ofItem]
    rfl
  rw [read, parse, whole, ← settled]
  rfl

/-! ## A documented rule -/

/-- A rule without properties. -/
def bareRule : Text :=
  ".c-x \x7b\x7d".toList

private theorem outline_bareRule :
    ∃ head opening closing, Outline.ofTokens (Token.scan bareRule) =
        .ok [.block head opening [] closing] ∧
      Head.ofTokens head = .style ".c-x".toList := by
  have scanned : Token.scan bareRule =
      [⟨.delimiter '.', ⟨⟨0, 1, 1⟩, ⟨1, 1, 2⟩⟩, ['.'], []⟩,
        ⟨.ident "c-x".toList, ⟨⟨1, 1, 2⟩, ⟨4, 1, 5⟩⟩, "c-x".toList, [' ']⟩,
        ⟨.openBrace, ⟨⟨5, 1, 6⟩, ⟨6, 1, 7⟩⟩, ['{'], []⟩,
        ⟨.closeBrace, ⟨⟨6, 1, 7⟩, ⟨7, 1, 8⟩⟩, ['}'], []⟩,
        Token.endAt ⟨7, 1, 8⟩] := by
    decide +kernel
  rw [scanned]
  exact ⟨_, _, _, rfl, rfl⟩

private theorem read_comment_bareRule {style : CommentStyle} {comment : Text}
    (reads : Token.ReadsComment style comment ('\n' :: bareRule)) :
    ∃ span, read (comment ++ '\n' :: bareRule) =
      .ok ⟨[.rule ".c-x".toList (some (frontComment style comment)) [] span],
        []⟩ := by
  obtain ⟨head, opening, closing, outline, selector⟩ := outline_bareRule
  have moved : Head.ofTokens (head.map (Token.shift (.past comment))) =
      .style ".c-x".toList := by
    rw [Head.ofTokens_shift, selector]
    rfl
  rw [read_comment_past reads outline, Item.shiftAll_singleton, Item.shift,
    ofItems, ofItem, moved]
  exact ⟨_, rfl⟩

end Stylesheet

/-- A file that holds nothing but a documented rule without properties declares
that rule. -/
theorem SourceFile.ofStylesheet_documented (id text selector : Text)
    {comment : Comment} {block : Doc.Block} (span : Span)
    (extracted : Doc.extract comment.text = { block, issues := [] }) :
    let reading :=
      ofStylesheet id text ⟨[.rule selector (some comment) [] span], []⟩
    reading.diagnostics = [] ∧ ∃ declaration,
      reading.file.declarations = [declaration] ∧
      declaration.signature = selector ∧ declaration.doc = some block := by
  simp [ofStylesheet, Draft.addNodes, Draft.addNode, Draft.addRule,
    readDoc, extracted, Draft.declareRule, Draft.declare, blockContents]

namespace Doc

/-- A written block documents the rule behind it.  Unless a text of the block
closes the comment early, what is written for the block is a single comment, and
reading a file that holds it and a rule finds nothing wrong and one declaration,
which has the block. -/
theorem read_render_rule (style : Style) (block : Block)
    (canonical : block.Canonical style)
    (unclosed : style = .block → ∀ text ∈ block.texts, Text.Unclosed text)
    (id : Text) :
    let comment := block.render style
    Token.scan comment =
        [Token.commentAtFront style.comment comment [],
          Token.endAt (Position.first.advance comment)] ∧
      ∃ reading declaration,
        SourceFile.read id (comment ++ "\n.c-x \x7b\x7d".toList) = .ok reading ∧
        reading.diagnostics = [] ∧ reading.file.declarations = [declaration] ∧
        declaration.signature = ".c-x".toList ∧ declaration.doc =
          some block := by
  intro comment
  constructor
  · have reads := readsComment_render canonical unclosed (.inl rfl) rfl
    have scanned := reads.scan_append
    have noGap : Token.leadingGap [] = [] := rfl
    have noMore : Token.afterGap [] = [] := rfl
    rwa [noGap, noMore, List.append_nil, Token.scanFrom] at scanned
  · have reads : Token.ReadsComment style.comment comment
        ('\n' :: Stylesheet.bareRule) :=
      readsComment_render canonical unclosed (.inr ⟨_, rfl⟩) rfl
    obtain ⟨plain, tagged, tail, whole, said⟩ :=
      exists_expresses_render canonical
    have extracted : extract
        (Stylesheet.frontComment style.comment comment).text =
        { block, issues := [] } :=
      extract_of_expresses canonical whole said
    obtain ⟨span, sheet⟩ := Stylesheet.read_comment_bareRule reads
    obtain ⟨noDiagnostics, declaration, declared, signature, documented⟩ :=
      SourceFile.ofStylesheet_documented id
        (comment ++ '\n' :: Stylesheet.bareRule) ".c-x".toList span extracted
    refine ⟨_, declaration, ?_, noDiagnostics, declared, signature, documented⟩
    change SourceFile.read id (comment ++ '\n' :: Stylesheet.bareRule) = _
    rw [SourceFile.read, sheet]

theorem read_render_rule_awkward :
    let block : Block :=
      { Block.awkward with extensions := [("o*".toList, [[], "/ p".toList])] }
    (block.Canonical .block ∧ ∀ text ∈ block.texts, Text.Unclosed text) ∧
      ∃ reading declaration,
        SourceFile.read "a.scss".toList
          (block.render .block ++ "\n.c-x \x7b\x7d".toList) =
          .ok reading ∧
        reading.diagnostics = [] ∧ reading.file.declarations = [declaration] ∧
        declaration.signature = ".c-x".toList ∧ declaration.doc =
          some block := by
  intro block
  have canonical : block.Canonical .block := by decide +kernel
  have unclosed : ∀ text ∈ block.texts, Text.Unclosed text := by decide +kernel
  exact ⟨⟨canonical, unclosed⟩,
    (read_render_rule .block block canonical (fun _ => unclosed)
      "a.scss".toList).2⟩

end Doc

end StyleAudit
