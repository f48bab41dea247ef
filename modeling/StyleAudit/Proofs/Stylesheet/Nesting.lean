import StyleAudit.Proofs.Stylesheet.Comments
import StyleAudit.Proofs.Stylesheet.Placement
import StyleAudit.Proofs.Token.Append

/-!
# Nodes nest as their texts do

A node reaches from one token of its item to another one, and what it holds
comes from tokens between its braces.  So the spans of the nodes form a tree in
the source: what stands side by side in the tree does so in the text, in the
same order, and what is inside a node is inside its span, apart from its ends.
-/

namespace StyleAudit

/-! ## Tokens in a row -/

namespace Token

/-- Tokens that stand in the source in this order, each of which covers some
text. -/
structure InRow (source : Text) (tokens : List Token) :
    Prop extends InOrder source tokens where
  filled : ∀ token ∈ tokens, token.span.start.offset < token.span.stop.offset
  braces : ∀ token ∈ tokens, token.kind = .closeBrace → token.text = ['}']

private theorem readAt_text_of_closeBrace {front : Text} {c : Char}
    {rest : Text} (kind : (readAt front c rest).kind = .closeBrace) :
    (readAt front c rest).text = ['}'] := by
  obtain rfl := Lexeme.eq_of_closeBrace kind
  rw [readAt, Lexeme.read_closeBrace]
  rfl

/-- The tokens of a source in front of the end mark stand in a row. -/
theorem inRow_of_scan {source : Text} {tokens : List Token}
    (split : scan source = tokens ++ [endAt (Position.first.advance source)]) :
    InRow source tokens := by
  have laid := layout_scan source
  have front : tokens.Sublist (scan source) :=
    split ▸ List.sublist_append_left _ _
  obtain ⟨others, whole, marked⟩ := laid.ended
  obtain rfl := List.append_cancel_right (split.symm.trans whole)
  refine ⟨(inOrder_scan source).sublist front, ?_, ?_⟩
  · intro token member
    exact laid.filled (front.subset member) (marked token member)
  · intro token member kind
    rcases laid.mem_cases (front.subset member) with
      ⟨before, c, rest, -, -, rfl⟩ | rfl
    · exact readAt_text_of_closeBrace kind
    · cases kind

namespace InRow

variable {source : Text} {tokens : List Token}

theorem sublist (inRow : InRow source tokens) {some : List Token}
    (inside : some.Sublist tokens) : InRow source some where
  toInOrder := inRow.toInOrder.sublist inside
  filled := fun token member => inRow.filled token (inside.subset member)
  braces := fun token member => inRow.braces token (inside.subset member)

/-- The first token begins no later than the others. -/
theorem start_le {first last : Token} {rest : List Token}
    (inRow : InRow source (first :: rest)) (member : last ∈ first :: rest) :
    first.span.start.offset ≤ last.span.start.offset := by
  rcases List.mem_cons.mp member with rfl | later
  · exact Nat.le_refl _
  · have filled := inRow.filled first List.mem_cons_self
    have between := (List.pairwise_cons.mp inRow.ordered).1 last later
    omega

/-- Earlier tokens end before later ones begin. -/
theorem stop_le_start {front back : List Token}
    (inRow : InRow source (front ++ back)) {left right : Token}
    (inFront : left ∈ front) (inBack : right ∈ back) :
    left.span.stop.offset ≤ right.span.start.offset :=
  (List.pairwise_append.mp inRow.ordered).2.2 left inFront right inBack

end InRow

theorem runSpan_concat (first : Token) (rest : List Token) (last : Token) :
    runSpan (first :: rest ++ [last]) = first.span.joined last.span := by
  rw [List.cons_append, runSpan, List.getLastD_concat]

end Token

/-! ## Nodes -/

namespace Node

/-- Does the node have a block, and keep what is in it? -/
def hasBlock : Node → Bool
  | .rule _ _ _ _ => true
  | .atRule _ _ body _ | .including _ _ body _ => body.isSome
  | .importing _ _ _ => false

/-- The nodes stand side by side, in this order. -/
def SideBySide (nodes : List Node) : Prop :=
  nodes.Pairwise fun left right => left.span.stop.offset ≤
    right.span.start.offset

/-- A node in its place: it covers some text, both its ends are where their
lines and columns say, what is directly inside it stands side by side, strictly
between its ends, and if it has a block, its text ends with the brace that
closes it. -/
structure Nested (source : Text) (node : Node) : Prop where
  start : node.span.start.IsIn source
  stop : node.span.stop.IsIn source
  filled : node.span.start.offset < node.span.stop.offset
  sideBySide : SideBySide node.children
  inside : ∀ child ∈ node.children,
    node.span.start.offset < child.span.start.offset ∧
    child.span.stop.offset < node.span.stop.offset
  closed : node.hasBlock = true → ['}'] <:+ node.span.text source

/-- The node reaches from one of the tokens to another one. -/
def Reaches (tokens : List Token) (node : Node) : Prop :=
  ∃ first ∈ tokens, ∃ last ∈ tokens, node.span = first.span.joined last.span

theorem Reaches.mono {some tokens : List Token} {node : Node}
    (reaches : node.Reaches some) (inside : some ⊆ tokens) :
    node.Reaches tokens := by
  obtain ⟨first, firstMember, last, lastMember, span⟩ := reaches
  exact ⟨first, inside firstMember, last, inside lastMember, span⟩

/-- Nodes of earlier tokens stand in front of nodes of later ones. -/
theorem Reaches.stop_le_start {source : Text} {front back : List Token}
    (inRow : Token.InRow source (front ++ back)) {left right : Node}
    (inFront : left.Reaches front) (inBack : right.Reaches back) :
    left.span.stop.offset ≤ right.span.start.offset := by
  obtain ⟨_, _, last, lastMember, leftSpan⟩ := inFront
  obtain ⟨first, firstMember, _, _, rightSpan⟩ := inBack
  rw [leftSpan, rightSpan]
  exact inRow.stop_le_start lastMember firstMember

/-- A node at any depth is in the span of one of the nodes at the top. -/
theorem exists_around {source : Text} {nodes : List Node}
    (each : ∀ node ∈ walkList nodes, node.Nested source) {inner : Node}
    (member : inner ∈ walkList nodes) :
    ∃ node ∈ nodes, node.span.start.offset ≤ inner.span.start.offset ∧
      inner.span.stop.offset ≤ node.span.stop.offset := by
  induction nodes using forest_induction with
  | nil =>
      rw [walkList] at member
      exact (List.not_mem_nil member).elim
  | cons node rest ihInside ihRest =>
      rw [walkList, walk_eq] at each member
      obtain ⟨first, others⟩ := List.forall_mem_append.mp each
      obtain ⟨own, inside⟩ := List.forall_mem_cons.mp first
      rcases List.mem_append.mp member with inFirst | inRest
      · rcases List.mem_cons.mp inFirst with rfl | deeper
        · exact ⟨inner, List.mem_cons_self, Nat.le_refl _, Nat.le_refl _⟩
        · obtain ⟨child, isChild, starts, stops⟩ := ihInside inside deeper
          have between := own.inside child isChild
          exact ⟨node, List.mem_cons_self, by omega, by omega⟩
      · obtain ⟨other, inOthers, around⟩ := ihRest others inRest
        exact ⟨other, List.mem_cons_of_mem node inOthers, around⟩

/-- A node begins before what is inside it, and what stands in front of it
begins before both. -/
theorem starts_ascend {source : Text} {nodes : List Node}
    (sideBySide : SideBySide nodes)
    (each : ∀ node ∈ walkList nodes, node.Nested source) :
    (walkList nodes).Pairwise fun left right =>
      left.span.start.offset < right.span.start.offset := by
  induction nodes using forest_induction with
  | nil =>
      rw [walkList]
      exact List.Pairwise.nil
  | cons node rest ihInside ihRest =>
      rw [walkList, walk_eq] at each ⊢
      obtain ⟨first, others⟩ := List.forall_mem_append.mp each
      obtain ⟨own, inside⟩ := List.forall_mem_cons.mp first
      obtain ⟨before, besides⟩ := List.pairwise_cons.mp sideBySide
      rw [List.pairwise_append, List.pairwise_cons]
      refine ⟨⟨?_, ihInside own.sideBySide inside⟩, ihRest besides others, ?_⟩
      · intro inner member
        obtain ⟨child, isChild, starts, -⟩ := exists_around inside member
        have between := own.inside child isChild
        omega
      · intro left inFirst right inRest
        obtain ⟨other, inOthers, starts, -⟩ := exists_around others inRest
        have apart := before other inOthers
        have filled := (first left inFirst).filled
        rcases List.mem_cons.mp inFirst with rfl | deeper
        · omega
        · obtain ⟨child, isChild, -, stops⟩ := exists_around inside deeper
          have between := own.inside child isChild
          omega

end Node

namespace Stylesheet

/-- The nodes at the top stand side by side, and every node at any depth is in
its place. -/
structure Nested (source : Text) (sheet : Stylesheet) : Prop where
  sideBySide : Node.SideBySide sheet.nodes
  nodes : ∀ node ∈ Node.walkList sheet.nodes, node.Nested source

/-- The stylesheet is made of tokens: its nodes nest, and those at the top reach
from one of the tokens to another one. -/
structure MadeOf (source : Text) (tokens : List Token) (sheet : Stylesheet) :
    Prop extends Nested source sheet where
  reaches : ∀ node ∈ sheet.nodes, node.Reaches tokens

/-- No two nodes begin at the same place. -/
theorem Nested.nodup_starts {source : Text} {sheet : Stylesheet}
    (nested : sheet.Nested source) :
    ((Node.walkList sheet.nodes).map (·.span.start)).Nodup := by
  rw [List.Nodup, List.pairwise_map]
  apply (Node.starts_ascend nested.sideBySide nested.nodes).imp
  intro left right before same
  rw [same] at before
  exact Nat.lt_irrefl _ before

section Items

variable {source : Text} {tokens : List Token}

theorem madeOf_of_no_nodes (tokens : List Token) (orphans : List Orphan) :
    (Stylesheet.mk [] orphans).MadeOf source tokens := by
  refine ⟨⟨List.Pairwise.nil, ?_⟩, nofun⟩
  intro node member
  rw [Node.walkList] at member
  exact (List.not_mem_nil member).elim

theorem MadeOf.append {front back : List Token}
    (inRow : Token.InRow source (front ++ back)) {left right : Stylesheet}
    (first : left.MadeOf source front) (second : right.MadeOf source back) :
    (left.append right).MadeOf source (front ++ back) := by
  refine ⟨⟨?_, ?_⟩, ?_⟩
  · refine List.pairwise_append.mpr ⟨first.sideBySide, second.sideBySide, ?_⟩
    intro node inLeft other inRight
    exact (first.reaches node inLeft).stop_le_start inRow
      (second.reaches other inRight)
  · intro node member
    rw [Stylesheet.append, Node.walkList_append] at member
    rcases List.mem_append.mp member with inLeft | inRight
    · exact first.nodes node inLeft
    · exact second.nodes node inRight
  · intro node member
    rcases List.mem_append.mp member with inLeft | inRight
    · exact (first.reaches node inLeft).mono
        (List.subset_append_left front back)
    · exact (second.reaches node inRight).mono
        (List.subset_append_right front back)

/-- A single node is made of a row of tokens that begins where it begins, if
what it holds is made of tokens strictly inside the row. -/
theorem madeOf_node {first last : Token} {rest : List Token}
    (inRow : Token.InRow source (first :: rest)) (member : last ∈ first :: rest)
    {node : Node} (span : node.span = first.span.joined last.span)
    (walk : node.walk = node :: Node.walkList node.children)
    (sideBySide : Node.SideBySide node.children)
    (nodes : ∀ other ∈ Node.walkList node.children, other.Nested source)
    (inside : ∀ child ∈ node.children,
      first.span.start.offset < child.span.start.offset ∧
      child.span.stop.offset < last.span.stop.offset)
    (closed : node.hasBlock = true → last.text = ['}'])
    (orphans : List Orphan) :
    (Stylesheet.mk [node] orphans).MadeOf source (first :: rest) := by
  have firstShows := inRow.shown first List.mem_cons_self
  have begins := inRow.start_le member
  obtain ⟨between, shown⟩ := firstShows.joined (inRow.shown last member) begins
  rw [← span] at shown
  have own : node.Nested source := by
    obtain ⟨start, stop⟩ := Span.IsExact.isIn ⟨_, shown⟩
    refine ⟨start, stop, ?_, sideBySide, ?_, ?_⟩
    · rw [span]
      exact Nat.lt_of_le_of_lt begins (inRow.filled last member)
    · rw [span]
      exact inside
    · intro hasBlock
      rw [shown.text_eq, closed hasBlock]
      exact List.suffix_append between ['}']
  refine ⟨⟨List.pairwise_singleton _ _, ?_⟩, ?_⟩
  · intro other inWalk
    rw [Node.walkList_singleton, walk] at inWalk
    rcases List.mem_cons.mp inWalk with rfl | inInner
    · exact own
    · exact nodes other inInner
  · intro other isNode
    rw [List.mem_singleton.mp isNode]
    exact ⟨first, List.mem_cons_self, last, member, span⟩

/-- A node that holds nothing. -/
theorem madeOf_leaf {first last : Token} {rest : List Token}
    (inRow : Token.InRow source (first :: rest)) (member : last ∈ first :: rest)
    {node : Node} (span : node.span = first.span.joined last.span)
    (walk : node.walk = [node]) (childless : node.children = [])
    (blockless : node.hasBlock = false) (orphans : List Orphan) :
    (Stylesheet.mk [node] orphans).MadeOf source (first :: rest) := by
  apply madeOf_node inRow member span
  · rw [walk, childless, Node.walkList]
  · rw [childless]
    exact List.Pairwise.nil
  · rw [childless, Node.walkList]
    exact List.forall_mem_nil _
  · rw [childless]
    exact List.forall_mem_nil _
  · rw [blockless]
    exact fun closed => Bool.noConfusion closed

theorem madeOf_ofStatement {first last : Token} {rest : List Token}
    (inRow : Token.InRow source (first :: rest)) (member : last ∈ first :: rest)
    (pending : Option Comment) (head : Head) :
    (ofStatement pending (first.span.joined last.span) head).MadeOf source
      (first :: rest) := by
  cases head with
  | style selector => exact madeOf_of_no_nodes _ _
  | atRule rule =>
      exact madeOf_leaf inRow member rfl (by rw [Node.walk]) rfl rfl _
  | importing kind names =>
      exact madeOf_leaf inRow member rfl (by rw [Node.walk]) rfl rfl _
  | including name arguments =>
      exact madeOf_leaf inRow member rfl (by rw [Node.walk]) rfl rfl _

private theorem madeOf_ofBlock {first closing : Token} {rest inner : List Token}
    (inRow : Token.InRow source (first :: rest ++ inner ++ [closing]))
    (kind : closing.kind = .closeBrace) {block : Stylesheet}
    (madeOf : block.MadeOf source inner) (pending : Option Comment)
    (head : Head) :
    (ofBlock pending (first.span.joined closing.span) block head).MadeOf source
      (first :: rest ++ inner ++ [closing]) := by
  have member : closing ∈ first :: (rest ++ inner ++ [closing]) :=
    List.mem_append_right (first :: rest ++ inner) List.mem_cons_self
  have brace := inRow.braces closing member kind
  have opened : Token.InRow source (first :: rest ++ inner) :=
    inRow.sublist (List.sublist_append_left _ _)
  have inside : ∀ child ∈ block.nodes,
      first.span.start.offset < child.span.start.offset ∧
      child.span.stop.offset < closing.span.stop.offset := by
    intro child inBlock
    obtain ⟨left, leftMember, right, rightMember, span⟩ :=
      madeOf.reaches child inBlock
    have before := opened.stop_le_start List.mem_cons_self leftMember
    have behind := inRow.stop_le_start (List.mem_append_right _ rightMember)
      (List.mem_singleton_self closing)
    rw [span]
    exact ⟨Nat.lt_of_lt_of_le (opened.filled first List.mem_cons_self) before,
      Nat.lt_of_le_of_lt behind (inRow.filled closing member)⟩
  have keeps : ∀ (node : Node) (orphans : List Orphan),
      node.span = first.span.joined closing.span →
      node.walk = node :: Node.walkList block.nodes →
      node.children = block.nodes →
      (Stylesheet.mk [node] orphans).MadeOf source
        (first :: rest ++ inner ++ [closing]) := by
    intro node orphans span walk children
    rw [← children] at walk inside
    apply madeOf_node inRow member span walk _ _ inside (fun _ => brace)
    · rw [children]
      exact madeOf.sideBySide
    · rw [children]
      exact madeOf.nodes
  cases head with
  | style selector => exact keeps _ _ rfl (by rw [Node.walk]) rfl
  | atRule rule => exact keeps _ _ rfl (by rw [Node.walk]) rfl
  | importing kind names =>
      exact madeOf_leaf inRow member rfl (by rw [Node.walk]) rfl rfl _
  | including name arguments => exact keeps _ _ rfl (by rw [Node.walk]) rfl

end Items

/-- The induction follows the shape of the outline: an item is made of its own
tokens, and the tokens of the items behind it come later. -/
theorem madeOf_ofItems {source : Text} {items : List Item}
    (shaped : Item.Shaped items)
    (inRow : Token.InRow source (Item.tokensOf items))
    (pending : Option Comment) :
    (ofItems pending items).MadeOf source (Item.tokensOf items) := by
  induction shaped generalizing pending with
  | nil =>
      rw [ofItems]
      exact madeOf_of_no_nodes _ _
  | comment _ _ ih =>
      rw [Item.tokensOf] at inRow ⊢
      rw [ofItems, ofItem]
      exact (madeOf_of_no_nodes _ _).append inRow
        (ih (inRow.sublist (List.sublist_append_right _ _)) _)
  | separator _ _ ih =>
      rw [Item.tokensOf] at inRow ⊢
      rw [ofItems, ofItem]
      exact (madeOf_of_no_nodes _ _).append inRow
        (ih (inRow.sublist (List.sublist_append_right _ _)) _)
  | @statement head semicolon rest isHead _ _ ih =>
      obtain ⟨first, others, rfl, -⟩ := isHead.begins
      rw [Item.tokensOf, Item.tokens, Option.toList_some] at inRow ⊢
      rw [ofItems, ofItem, Option.toList_some, Token.runSpan_concat]
      refine MadeOf.append inRow ?_
        (ih (inRow.sublist (List.sublist_append_right _ _)) _)
      exact madeOf_ofStatement (inRow.sublist (List.sublist_append_left _ _))
        (List.mem_append_right (first :: others) List.mem_cons_self) _ _
  | @last head isHead =>
      obtain ⟨first, others, rfl, -⟩ := isHead.begins
      rw [Item.tokensOf_singleton, Item.tokens, Option.toList_none,
        List.append_nil] at inRow ⊢
      rw [ofItems, ofItem, ofItems, Option.toList_none, List.append_nil,
        Token.runSpan]
      have statement := madeOf_ofStatement inRow List.getLastD_mem_cons pending
        (Head.ofTokens (first :: others))
      rw [← List.append_nil (first :: others)] at inRow
      have whole := statement.append inRow
        (madeOf_of_no_nodes [] (Orphan.ofPending .trailing none))
      rwa [List.append_nil] at whole
  | @block head opening closing items rest _ _ _ kind _ ihInner ihRest =>
      rw [Item.tokensOf, Item.tokens] at inRow ⊢
      rw [ofItems, ofItem]
      have own := inRow.sublist (List.sublist_append_left _ _)
      have inner := ihInner (own.sublist
        ((List.sublist_append_right _ _).trans (List.sublist_append_left _ _)))
          none
      refine MadeOf.append inRow ?_
        (ihRest (inRow.sublist (List.sublist_append_right _ _)) _)
      obtain ⟨first, others, begun⟩ : ∃ first others,
        head ++ [opening] = first :: others :=
        List.exists_cons_of_ne_nil (by simp)
      have span : Token.runSpan (head ++ [opening, closing]) =
          first.span.joined closing.span := by
        rw [List.append_cons, begun, Token.runSpan_concat]
      rw [begun] at own ⊢
      rw [span]
      exact madeOf_ofBlock own kind inner pending _

theorem starts_ascend_of_read {source : Text} {sheet : Stylesheet}
    (done : read source = .ok sheet) :
    (Node.walkList sheet.nodes).Pairwise fun left right =>
      left.span.start.offset < right.span.start.offset := by
  obtain ⟨items, shaped, rfl, split⟩ := exists_outline_of_read done
  have madeOf := madeOf_ofItems shaped (Token.inRow_of_scan split) none
  exact Node.starts_ascend madeOf.sideBySide madeOf.nodes

theorem nodup_starts_of_read {source : Text} {sheet : Stylesheet}
    (done : read source = .ok sheet) :
    ((Node.walkList sheet.nodes).map (·.span.start)).Nodup := by
  obtain ⟨items, shaped, rfl, split⟩ := exists_outline_of_read done
  exact (madeOf_ofItems shaped (Token.inRow_of_scan split) none).nodup_starts

theorem nodup_spans_of_read {source : Text} {sheet : Stylesheet}
    (done : read source = .ok sheet) :
    ((Node.walkList sheet.nodes).map Node.span).Nodup := by
  have starts := nodup_starts_of_read done
  rw [List.Nodup, List.pairwise_map] at starts ⊢
  exact starts.imp fun apart same => apart (congrArg Span.start same)

/-- The nodes of a stylesheet nest as their texts do. -/
theorem nested_of_read {source : Text} {sheet : Stylesheet}
    (done : read source = .ok sheet) :
    sheet.Nested source := by
  obtain ⟨items, shaped, rfl, split⟩ := exists_outline_of_read done
  exact (madeOf_ofItems shaped (Token.inRow_of_scan split) none).toNested

/-- A rule in an include in a rule, a statement that the end of its block cuts
off, and an import whose block is dropped. -/
theorem nested_of_read_card :
    let source :=
      "é \x7b@include b\x7b.c\x7b\x7d;\x7d\n@media/*x*/\x7d@use 'd'\x7be\x7b\x7d\x7d".toList
    ∃ sheet, read source = .ok sheet ∧ sheet.Nested source ∧
      (Node.walkList sheet.nodes).map Node.span =
        [⟨⟨0, 1, 1⟩, ⟨34, 2, 13⟩⟩, ⟨⟨4, 1, 4⟩, ⟨21, 1, 21⟩⟩,
          ⟨⟨15, 1, 15⟩, ⟨19, 1, 19⟩⟩, ⟨⟨22, 2, 1⟩, ⟨33, 2, 12⟩⟩,
          ⟨⟨34, 2, 13⟩, ⟨47, 2, 26⟩⟩] := by
  intro source
  obtain ⟨sheet, done⟩ : ∃ sheet, read source = .ok sheet :=
    exists_of_isOk (by decide +kernel)
  have spans : (read source).map
      (fun sheet => (Node.walkList sheet.nodes).map Node.span) =
      .ok [⟨⟨0, 1, 1⟩, ⟨34, 2, 13⟩⟩, ⟨⟨4, 1, 4⟩, ⟨21, 1, 21⟩⟩,
        ⟨⟨15, 1, 15⟩, ⟨19, 1, 19⟩⟩, ⟨⟨22, 2, 1⟩, ⟨33, 2, 12⟩⟩,
        ⟨⟨34, 2, 13⟩, ⟨47, 2, 26⟩⟩] := by
    decide +kernel
  rw [done] at spans
  exact ⟨sheet, done, nested_of_read done, Except.ok.inj spans⟩

end Stylesheet

end StyleAudit
