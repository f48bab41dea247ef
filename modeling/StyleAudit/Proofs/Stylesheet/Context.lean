import StyleAudit.Proofs.Stylesheet.Relocation

/-!
# One head among the items

A context is an outline with a place left free for the head of one item, however
deep.  Filled with another head, the outline keeps its shape, and the stylesheet
changes in one node only: that of the item, and only if the item has one and is
not in the block of an import, of which nothing is kept.
-/

namespace StyleAudit

/-- An outline without the head of one of its items. -/
inductive Context where
  | statement (before : List Item) (semicolon : Option Token)
    (after : List Item)
  | block (before : List Item) (opening : Token) (items : List Item)
    (closing : Token)
      (after : List Item)
  | inside (before : List Item) (head : List Token) (opening : Token)
    (inner : Context)
      (closing : Token) (after : List Item)

namespace Context

/-- The outline with a head in the place that was left free. -/
def fill : Context → List Token → List Item
  | .statement before semicolon after, head =>
    before ++ .statement head semicolon :: after
  | .block before opening items closing after, head =>
    before ++ .block head opening items closing :: after
  | .inside before outer opening inner closing after, head =>
    before ++ .block outer opening (inner.fill head) closing :: after

/-- The tokens in front of the head. -/
def front : Context → List Token
  | .statement before _ _ => Item.tokensOf before
  | .block before _ _ _ _ => Item.tokensOf before
  | .inside before outer opening inner _ _ =>
    Item.tokensOf before ++ (outer ++ opening :: inner.front)

/-- The tokens behind the head. -/
def back : Context → List Token
  | .statement _ semicolon after => semicolon.toList ++ Item.tokensOf after
  | .block _ opening items closing after =>
    opening :: (Item.tokensOf items ++ closing :: Item.tokensOf after)
  | .inside _ _ _ inner closing after =>
    inner.back ++ closing :: Item.tokensOf after

/-- Is there a node for the item with this head? -/
def keeps : Context → Head → Bool
  | .statement _ _ _, .style _ => false
  | .statement _ _ _, _ => true
  | .block _ _ _ _ _, _ => true
  | .inside _ outer _ inner _ _, head =>
    !(Head.ofTokens outer).isImport && inner.keeps head

/-! ## Tokens -/

theorem tokensOf_fill (context : Context) (head : List Token) :
    Item.tokensOf (context.fill head) =
      context.front ++ (head ++ context.back) := by
  induction context with
  | statement before semicolon after =>
      rw [fill, front, back, Item.tokensOf_append, Item.tokensOf, Item.tokens,
        List.append_assoc]
  | block before opening items closing after =>
      rw [fill, front, back, Item.tokensOf_append, Item.tokensOf, Item.tokens]
      simp only [List.append_assoc, List.cons_append, List.nil_append]
  | inside before outer opening inner closing after ih =>
      rw [fill, front, back, Item.tokensOf_append, Item.tokensOf,
        Item.tokens, ih]
      simp only [List.append_assoc, List.cons_append, List.nil_append]

end Context

/-! ## Shape -/

namespace Item.Shaped

theorem tail {item : Item} {rest : List Item} (shaped : Shaped (item :: rest)) :
    Shaped rest := by
  cases shaped with
  | comment _ later => exact later
  | separator _ later => exact later
  | statement _ _ later => exact later
  | last _ => exact .nil
  | block _ _ _ _ later => exact later

/-- Only the last item may go without what ends it, so others may be followed by
anything. -/
theorem followed_by {item : Item} {rest others : List Item}
    (shaped : Shaped (item :: rest)) (filled : rest ≠ [])
    (shapedToo : Shaped others) : Shaped (item :: others) := by
  cases shaped with
  | comment kind _ => exact .comment kind shapedToo
  | separator kind _ => exact .separator kind shapedToo
  | statement isHead kind _ => exact .statement isHead kind shapedToo
  | last _ => exact (filled rfl).elim
  | block isHead opens inner closes _ =>
      exact .block isHead opens inner closes shapedToo

theorem of_append {before rest : List Item} (shaped : Shaped (before ++ rest)) :
    Shaped rest := by
  induction before with
  | nil => exact shaped
  | cons item before ih => exact ih shaped.tail

theorem replace {before rest others : List Item}
    (shaped : Shaped (before ++ rest)) (filled : rest ≠ [])
    (shapedToo : Shaped others) : Shaped (before ++ others) := by
  induction before with
  | nil => exact shapedToo
  | cons item before ih =>
      exact shaped.followed_by (by simp [filled]) (ih shaped.tail)

end Item.Shaped

namespace Context

theorem isHead_of_shaped {context : Context} {head : List Token}
    (shaped : Item.Shaped (context.fill head)) (filled : head ≠ []) :
    Token.IsHead head := by
  induction context with
  | statement before semicolon after =>
      cases shaped.of_append with
      | statement isHead _ _ => exact isHead
      | last isHead => exact isHead
  | block before opening items closing after =>
      cases shaped.of_append with
      | block isHead _ _ _ _ => exact isHead.resolve_left filled
  | inside before outer opening inner closing after ih =>
      cases shaped.of_append with
      | block _ _ inside _ _ => exact ih inside

theorem shaped_fill {context : Context} {head other : List Token}
    (shaped : Item.Shaped (context.fill head)) (isHead : Token.IsHead other) :
    Item.Shaped (context.fill other) := by
  induction context with
  | statement before semicolon after =>
      apply shaped.replace (List.cons_ne_nil _ _)
      cases shaped.of_append with
      | statement _ kind later => exact .statement isHead kind later
      | last _ => exact .last isHead
  | block before opening items closing after =>
      apply shaped.replace (List.cons_ne_nil _ _)
      cases shaped.of_append with
      | block _ opens inner closes later =>
          exact .block (.inr isHead) opens inner closes later
  | inside before outer opening inner closing after ih =>
      apply shaped.replace (List.cons_ne_nil _ _)
      cases shaped.of_append with
      | block isOuter opens inside closes later =>
          exact .block isOuter opens (ih inside) closes later

/-- A head ends where the text ends, or at a semicolon or a brace. -/
theorem back_of_shaped {context : Context} {head : List Token}
    (shaped : Item.Shaped (context.fill head)) :
    context.back = [] ∨
      ∃ mark rest, context.back = mark :: rest ∧
        mark.kind.isBoundary = true := by
  induction context with
  | statement before semicolon after =>
      cases shaped.of_append with
      | @statement _ mark _ _ kind _ =>
          exact .inr ⟨mark, Item.tokensOf after, rfl, by rw [kind]; rfl⟩
      | last _ => exact .inl (by rw [back, Item.tokensOf]; rfl)
  | block before opening items closing after =>
      cases shaped.of_append with
      | block _ opens _ _ _ => exact .inr ⟨opening, _, rfl, by rw [opens]; rfl⟩
  | inside before outer opening inner closing after ih =>
      cases shaped.of_append with
      | block _ _ inside closes _ =>
          rcases ih inside with nothing | ⟨mark, rest, behind, boundary⟩
          · exact .inr
              ⟨closing, Item.tokensOf after, by rw [back, nothing]; rfl,
              by rw [closes]; rfl⟩
          · exact .inr ⟨mark, rest ++ closing :: Item.tokensOf after,
              by rw [back, behind]; rfl, boundary⟩

end Context

/-! ## Stylesheets -/

/-- Two heads of the same sort, neither of an import. -/
inductive Head.Alike : Head → Head → Prop where
  | style (selector other : Text) : Alike (.style selector) (.style other)
  | atRule (rule other : AtRule) : Alike (.atRule rule) (.atRule other)
  | including (name other : Text) (arguments otherArguments : Option Text) :
      Alike (.including name arguments) (.including other otherArguments)

theorem Head.Alike.notImport {head other : Head} (alike : head.Alike other) :
    other.isImport = false := by
  cases alike <;> rfl

theorem Head.Alike.right {head other : Head} (alike : head.Alike other) :
    other.Alike other := by
  cases alike with
  | style _ selector => exact .style selector selector
  | atRule _ rule => exact .atRule rule rule
  | including _ name _ arguments =>
      exact .including name name arguments arguments

namespace Stylesheet

/-- The stylesheet of items changes where one item does, if no comment waits
behind it. -/
theorem exists_split_ofItems (pending : Option Comment)
    (before after : List Item) :
    ∃ (waiting : Option Comment) (left right : Stylesheet), ∀ item,
      (∀ comment, (ofItem comment item).2 = none) →
        ofItems pending (before ++ item :: after) =
          left.append ((ofItem waiting item).1.append right) := by
  induction before generalizing pending with
  | nil =>
      refine ⟨pending, ⟨[], []⟩, ofItems none after, ?_⟩
      intro item settles
      rw [List.nil_append, ofItems, settles]
      rfl
  | cons first before ih =>
      obtain ⟨waiting, left, right, split⟩ := ih (ofItem pending first).2
      refine ⟨waiting, (ofItem pending first).1.append left, right, ?_⟩
      intro item settles
      rw [List.cons_append, ofItems, split item settles]
      simp only [append, List.append_assoc]

theorem bare_append (left right : Stylesheet) :
    (left.append right).bare = left.bare.append right.bare :=
  append_moved _ left right

/-- The same comments document nothing, and the nodes are the same under a
condition. -/
structure Change (same : Prop) (old new : Stylesheet) : Prop where
  orphans : new.bare.orphans = old.bare.orphans
  nodes : new.bare.nodes = old.bare.nodes ↔ same

theorem Change.bare_iff {same : Prop} {old new : Stylesheet}
    (change : Change same old new) :
    new.bare = old.bare ↔ same := by
  rw [← change.nodes]
  constructor
  · exact fun equal => congrArg Stylesheet.nodes equal
  · intro nodes
    have orphans := change.orphans
    cases oldBare : old.bare
    cases newBare : new.bare
    rw [oldBare, newBare] at nodes orphans
    cases nodes
    cases orphans
    rfl

theorem Change.between {same : Prop} {old new : Stylesheet}
    (change : Change same old new) (left right : Stylesheet) :
    Change same (left.append (old.append right))
      (left.append (new.append right)) := by
  constructor
  · rw [bare_append, bare_append, bare_append, bare_append]
    simp only [append, change.orphans]
  · rw [bare_append, bare_append, bare_append, bare_append]
    simp only [append, List.append_cancel_left_eq, List.append_cancel_right_eq]
    exact change.nodes

/-- What changes in one item changes among the others. -/
theorem Change.ofItems {same : Prop} {item other : Item}
    (settles : ∀ comment, (ofItem comment item).2 = none)
    (settlesToo : ∀ comment, (ofItem comment other).2 = none)
    (change : ∀ waiting,
      Change same (ofItem waiting item).1 (ofItem waiting other).1)
    (pending : Option Comment) (before after : List Item) :
    Change same (Stylesheet.ofItems pending (before ++ item :: after))
      (Stylesheet.ofItems pending (before ++ other :: after)) := by
  obtain ⟨waiting, left, right, split⟩ :=
    exists_split_ofItems pending before after
  rw [split item settles, split other settlesToo]
  exact (change waiting).between left right

theorem change_ofStatement {head other : Head} (alike : head.Alike other)
    (pending : Option Comment) (span place : Span) (before after : List Item)
    (semicolon : Option Token) :
    Change ((Context.statement before semicolon after).keeps head = true →
      head = other) (ofStatement pending span head)
        (ofStatement pending place other) := by
  cases alike with
  | style selector other =>
      constructor
      · rfl
      · exact iff_of_true rfl Bool.noConfusion
  | atRule rule other =>
      constructor
      · rfl
      · simp [ofStatement, bare, Stylesheet.moved, Node.movedAll,
          Node.moved, Span.moved, Context.keeps, eq_comm]
  | including name other arguments otherArguments =>
      constructor
      · rfl
      · simp [ofStatement, bare, Stylesheet.moved, Node.movedAll,
          Node.moved, Span.moved, Context.keeps, eq_comm]

private theorem change_ofBlock {head other : Head} (alike : head.Alike other)
    (pending : Option Comment) (span place : Span) (inner : Stylesheet) :
    Change (head = other) (ofBlock pending span inner head)
      (ofBlock pending place inner other) := by
  cases alike with
  | style selector other =>
      constructor
      · rfl
      · simp [ofBlock, bare, Stylesheet.moved, Node.movedAll, Node.moved,
          Span.moved, eq_comm]
  | atRule rule other =>
      constructor
      · rfl
      · simp [ofBlock, bare, Stylesheet.moved, Node.movedAll, Node.moved,
          Span.moved, eq_comm]
  | including name other arguments otherArguments =>
      constructor
      · rfl
      · simp [ofBlock, bare, Stylesheet.moved, Node.movedAll, Node.moved,
          Span.moved, eq_comm]

/-- What changes in a block changes in its item, unless that is an import. -/
theorem Change.ofBlock {same : Prop} {old new : Stylesheet}
    (change : Change same old new) (pending : Option Comment) (span : Span)
    (outer : Head) :
    Change (outer.isImport = false → same)
      (Stylesheet.ofBlock pending span old outer)
      (Stylesheet.ofBlock pending span new outer) := by
  have orphans := change.orphans
  have nodes := change.nodes
  simp only [bare, Stylesheet.moved] at orphans nodes
  cases outer with
  | style selector =>
      constructor
      · exact orphans
      · simp [Stylesheet.ofBlock, bare, Stylesheet.moved, Node.movedAll,
          Node.moved, Head.isImport, nodes]
  | atRule rule =>
      constructor
      · exact orphans
      · simp [Stylesheet.ofBlock, bare, Stylesheet.moved, Node.movedAll,
          Node.moved, Head.isImport, nodes]
  | importing kind targets =>
      constructor
      · simp [Stylesheet.ofBlock, bare, Stylesheet.moved, orphans]
      · exact iff_of_true rfl Bool.noConfusion
  | including name arguments =>
      constructor
      · simp [Stylesheet.ofBlock, bare, Stylesheet.moved, orphans]
      · simp [Stylesheet.ofBlock, bare, Stylesheet.moved, Node.movedAll,
          Node.moved, Head.isImport, nodes]

/-- Another head of the same sort changes nothing but the node of its item, if
there is one. -/
theorem change_fill {head other : List Token}
    (alike : (Head.ofTokens head).Alike (Head.ofTokens other))
    (context : Context) (pending : Option Comment) :
    Change (context.keeps (Head.ofTokens head) = true →
      Head.ofTokens head = Head.ofTokens other)
        (Stylesheet.ofItems pending (context.fill head))
      (Stylesheet.ofItems pending (context.fill other)) := by
  induction context generalizing pending with
  | statement before semicolon after =>
      apply Change.ofItems
      · exact fun _ => rfl
      · exact fun _ => rfl
      · intro waiting
        rw [ofItem, ofItem]
        exact change_ofStatement alike waiting _ _ before after semicolon
  | block before opening items closing after =>
      apply Change.ofItems
      · exact fun _ => rfl
      · exact fun _ => rfl
      · intro waiting
        rw [ofItem, ofItem]
        have change := change_ofBlock alike waiting
          (Token.runSpan (head ++ [opening, closing]))
          (Token.runSpan (other ++ [opening, closing]))
          (Stylesheet.ofItems none items)
        exact ⟨change.orphans, change.nodes.trans (by simp [Context.keeps])⟩
  | inside before outer opening inner closing after ih =>
      apply Change.ofItems
      · exact fun _ => rfl
      · exact fun _ => rfl
      · intro waiting
        rw [ofItem, ofItem]
        have change := (ih none).ofBlock waiting
          (Token.runSpan (outer ++ [opening, closing])) (Head.ofTokens outer)
        refine ⟨change.orphans, change.nodes.trans ?_⟩
        rw [Context.keeps, Bool.and_eq_true, Bool.not_eq_true', and_imp]

end Stylesheet

end StyleAudit
