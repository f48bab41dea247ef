import StyleAudit.Failure
import StyleAudit.Outline
import StyleAudit.Stylesheet.Head
import StyleAudit.Token.Scan

/-!
# Stylesheets

A stylesheet is read from the outline of its tokens.  On the way each comment in
front of an item is settled: it documents the rule or at-rule behind it, or it
documents nothing and is kept as an orphan.  A plain comment that documents
nothing is passed over, unless another comment took its place.
-/

namespace StyleAudit

/-- Why a comment documents nothing. -/
inductive OrphanReason where
  /-- Another comment follows. -/
  | superseded
  /-- What follows cannot be documented. -/
  | notDeclarable
  /-- Nothing follows in the block. -/
  | trailing
deriving DecidableEq, Repr

/-- A comment that documents nothing. -/
structure Orphan where
  /-- Where the comment is. -/
  span : Span
  /-- Why it documents nothing. -/
  reason : OrphanReason
deriving DecidableEq, Repr

namespace Orphan

/-- The orphan that a comment in waiting becomes. -/
def ofPending (reason : OrphanReason) : Option Comment → List Orphan
  | none => []
  | some comment =>
    if reason = .superseded ∨ comment.style ≠ .block then
      [⟨comment.span, reason⟩]
    else []

end Orphan

/-- What a stylesheet, or a block of it, holds. -/
structure Stylesheet where
  /-- Rules, at-rules, imports and includes, in order. -/
  nodes : List Node
  /-- The comments that document nothing, in the order in which that is
  settled. -/
  orphans : List Orphan
deriving DecidableEq, Repr

namespace Stylesheet

/-- One stylesheet after another. -/
def append (left right : Stylesheet) : Stylesheet :=
  ⟨left.nodes ++ right.nodes, left.orphans ++ right.orphans⟩

/-- An item without a block. -/
def ofStatement (pending : Option Comment) (span : Span) : Head → Stylesheet
  | .style _ => ⟨[], Orphan.ofPending .notDeclarable pending⟩
  | .atRule rule => ⟨[.atRule rule pending none span], []⟩
  | .importing kind targets =>
    ⟨[.importing kind targets span], Orphan.ofPending .notDeclarable pending⟩
  | .including name arguments =>
    ⟨[.including name arguments none span],
      Orphan.ofPending .notDeclarable pending⟩

/-- An item with a block.  What the block of an import holds is dropped. -/
def ofBlock (pending : Option Comment) (span : Span) (inner : Stylesheet) :
    Head → Stylesheet
  | .style selector =>
    ⟨[.rule selector pending inner.nodes span], inner.orphans⟩
  | .atRule rule =>
    ⟨[.atRule rule pending (some inner.nodes) span], inner.orphans⟩
  | .importing kind targets =>
    ⟨[.importing kind targets span],
      inner.orphans ++ Orphan.ofPending .notDeclarable pending⟩
  | .including name arguments =>
    ⟨[.including name arguments (some inner.nodes) span],
      inner.orphans ++ Orphan.ofPending .notDeclarable pending⟩

mutual

/-- What an item adds behind a comment that waits for something to document, and
the comment that waits after it. -/
def ofItem (pending : Option Comment) : Item → Stylesheet × Option Comment
  | .comment style token =>
    (⟨[], Orphan.ofPending .superseded pending⟩,
      some ⟨style, token.text, token.span⟩)
  | .separator _ => (⟨[], []⟩, pending)
  | .statement head semicolon =>
    (ofStatement pending (Token.runSpan (head ++ semicolon.toList))
      (Head.ofTokens head), none)
  | .block head opening items closing =>
    (ofBlock pending (Token.runSpan (head ++ [opening, closing]))
      (ofItems none items) (Head.ofTokens head), none)

/-- The stylesheet of the items of a block, behind a comment that waits for
something to document. -/
def ofItems (pending : Option Comment) : List Item → Stylesheet
  | [] => ⟨[], Orphan.ofPending .trailing pending⟩
  | item :: rest =>
    append (ofItem pending item).1 (ofItems (ofItem pending item).2 rest)

end

/-- Parses a stylesheet. -/
def parse (source : Text) : Except Outline.Fault Stylesheet :=
  (Outline.ofTokens (Token.scan source)).map (ofItems none)

/-- Parses a stylesheet, and says what is wrong where it is malformed. -/
def read (source : Text) : Except Failure Stylesheet :=
  (parse source).mapError fun fault =>
    { cause := .malformedAt fault.flaw.message fault.span source }

end Stylesheet

end StyleAudit
