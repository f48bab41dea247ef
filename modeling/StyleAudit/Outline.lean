import StyleAudit.Token.Basic

/-!
# The outline of a token list

Braces and semicolons cut a list of tokens into items: comments, statements and
blocks, where a block holds items in turn.  The outline is found in one pass
that keeps the blocks still open, and it fails at a brace that closes nothing,
at a construct that is left open, and at the end of the text when a block is
still open.
-/

namespace StyleAudit

/-- A part of a block. -/
inductive Item where
  /-- A comment in front of another item or at the end of a block. -/
  | comment (style : CommentStyle) (token : Token)
  /-- A semicolon that ends nothing. -/
  | separator (token : Token)
  /-- Tokens up to a semicolon or to the end of the block. -/
  | statement (head : List Token) (semicolon : Option Token)
  /-- Tokens in front of a brace, and what the brace holds. -/
  | block (head : List Token) (opening : Token) (items : List Item)
      (closing : Token)
deriving Repr

namespace Outline

/-- What keeps a token list from having an outline. -/
inductive Flaw where
  | strayBrace
  | unclosedBlock
  | unterminated (construct : OpenConstruct)
deriving DecidableEq, Repr

namespace Flaw

/-- The flaw in words. -/
def message : Flaw → String
  | .strayBrace => "unexpected '\x7d'"
  | .unclosedBlock => "unclosed block"
  | .unterminated construct => construct.message

end Flaw

/-- A flaw in its place. -/
structure Fault where
  /-- What is wrong. -/
  flaw : Flaw
  /-- Where it is. -/
  span : Span
deriving DecidableEq, Repr

/-- A block whose closing brace is still to come. -/
structure Frame where
  /-- The items in front of the block. -/
  before : List Item
  /-- The tokens in front of the brace. -/
  head : List Token
  /-- The opening brace. -/
  opening : Token
deriving Repr

/-- What is known of an outline in the middle of the token list. -/
structure Draft where
  /-- The open blocks, the innermost first. -/
  frames : List Frame := []
  /-- The items of the innermost block so far. -/
  items : List Item := []
  /-- The tokens of the item at hand. -/
  head : List Token := []
deriving Repr

namespace Draft

/-- The items of the innermost block when it ends here. -/
def closed (draft : Draft) : List Item :=
  if draft.head.isEmpty then draft.items
  else draft.items ++ [.statement draft.head none]

/-- The draft with one more token. -/
def step (draft : Draft) (token : Token) : Except Fault Draft :=
  match token.kind with
  | .comment style _ =>
    if draft.head.isEmpty then
      .ok { draft with items := draft.items ++ [.comment style token] }
    else .ok { draft with head := draft.head ++ [token] }
  | .semicolon =>
    if draft.head.isEmpty then
      .ok { draft with items := draft.items ++ [.separator token] }
    else
      .ok
        { draft with
          items := draft.items ++ [.statement draft.head (some token)],
          head := [] }
  | .openBrace =>
    .ok
      { frames := ⟨draft.items, draft.head, token⟩ :: draft.frames,
        items := [], head := [] }
  | .closeBrace =>
    match draft.frames with
    | [] => .error ⟨.strayBrace, token.span⟩
    | frame :: frames =>
      .ok
        { frames,
          items := frame.before ++
            [.block frame.head frame.opening draft.closed token],
          head := [] }
  | .unterminated construct => .error ⟨.unterminated construct, token.span⟩
  | .endOfInput => .ok draft
  | _ => .ok { draft with head := draft.head ++ [token] }

/-- The items of the whole token list, unless a block is still open. -/
def finish (draft : Draft) : Except Fault (List Item) :=
  match draft.frames with
  | [] => .ok draft.closed
  | frame :: _ => .error ⟨.unclosedBlock, frame.opening.span⟩

end Draft

/-- The outline of a token list. -/
def ofTokens (tokens : List Token) : Except Fault (List Item) := do
  (← tokens.foldlM Draft.step {}).finish

end Outline

end StyleAudit
