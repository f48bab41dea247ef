import StyleAudit.Proofs.Stylesheet.Comments

/-!
# Reading does not look at positions

Positions are carried along and never looked at: when the positions of tokens
are changed, whichever way, their outline and the stylesheet come out as before,
with their positions changed the same way, and so does a fault.  With every
position set to the first one, what is left of a stylesheet is what it says.
-/

namespace StyleAudit

variable (move : Position → Position)

/-! ## What has a place -/

/-- The span, elsewhere. -/
def Span.moved (span : Span) : Span :=
  ⟨move span.start, move span.stop⟩

/-- The token, elsewhere. -/
def Token.moved (token : Token) : Token :=
  { token with span := token.span.moved move }

theorem Token.kind_moved (token : Token) :
    (token.moved move).kind = token.kind :=
  rfl

/-- The comment, elsewhere. -/
def Comment.moved (comment : Comment) : Comment :=
  { comment with span := comment.span.moved move }

/-- The path, elsewhere. -/
def ImportTarget.moved (target : ImportTarget) : ImportTarget :=
  { target with span := target.span.moved move }

/-- The orphan, elsewhere. -/
def Orphan.moved (orphan : Orphan) : Orphan :=
  { orphan with span := orphan.span.moved move }

/-- The head, elsewhere. -/
def Head.moved : Head → Head
  | .importing kind targets =>
    .importing kind (targets.map (ImportTarget.moved move))
  | head => head

namespace Node

mutual

/-- The node with all inside it, elsewhere. -/
def moved (move : Position → Position) : Node → Node
  | .rule selector doc children span =>
    .rule selector (doc.map (Comment.moved move)) (movedAll move children)
      (span.moved move)
  | .atRule head doc none span =>
    .atRule head (doc.map (Comment.moved move)) none (span.moved move)
  | .atRule head doc (some body) span =>
    .atRule head (doc.map (Comment.moved move)) (some (movedAll move body))
      (span.moved move)
  | .importing kind targets span =>
    .importing kind (targets.map (ImportTarget.moved move)) (span.moved move)
  | .including name arguments none span =>
    .including name arguments none (span.moved move)
  | .including name arguments (some body) span =>
    .including name arguments (some (movedAll move body)) (span.moved move)

/-- The nodes, elsewhere. -/
def movedAll (move : Position → Position) : List Node → List Node
  | [] => []
  | node :: rest => node.moved move :: movedAll move rest

end

theorem movedAll_append (left right : List Node) :
    movedAll move (left ++ right) = movedAll move left ++
      movedAll move right := by
  induction left with
  | nil => rw [movedAll, List.nil_append, List.nil_append]
  | cons node rest ih =>
      rw [List.cons_append, movedAll, movedAll, ih, List.cons_append]

end Node

/-- The stylesheet, elsewhere. -/
def Stylesheet.moved (sheet : Stylesheet) : Stylesheet :=
  ⟨Node.movedAll move sheet.nodes, sheet.orphans.map (Orphan.moved move)⟩

/-- The stylesheet without its places. -/
def Stylesheet.bare (sheet : Stylesheet) : Stylesheet :=
  sheet.moved fun _ => .first

namespace Item

mutual

/-- The item with all inside it, elsewhere. -/
def moved (move : Position → Position) : Item → Item
  | .comment style token => .comment style (token.moved move)
  | .separator token => .separator (token.moved move)
  | .statement head semicolon =>
    .statement (head.map (Token.moved move)) (semicolon.map (Token.moved move))
  | .block head opening items closing =>
    .block (head.map (Token.moved move)) (opening.moved move)
      (movedAll move items) (closing.moved move)

/-- The items, elsewhere. -/
def movedAll (move : Position → Position) : List Item → List Item
  | [] => []
  | item :: rest => item.moved move :: movedAll move rest

end

theorem movedAll_append (left right : List Item) :
    movedAll move (left ++ right) = movedAll move left ++
      movedAll move right := by
  induction left with
  | nil => rw [movedAll, List.nil_append, List.nil_append]
  | cons item rest ih =>
      rw [List.cons_append, movedAll, movedAll, ih, List.cons_append]

theorem movedAll_singleton (item : Item) :
    movedAll move [item] = [item.moved move] := by
  rw [movedAll, movedAll]

end Item

/-! ## Tokens -/

theorem Token.runText_moved (tokens : List Token) :
    runText (tokens.map (Token.moved move)) = runText tokens := by
  fun_induction runText tokens with
  | case1 => rfl
  | case2 token => rfl
  | case3 token next rest ih =>
      rw [List.map_cons, List.map_cons, runText, ← List.map_cons, ih]
      rfl

theorem Token.runSpan_moved {tokens : List Token} (filled : tokens ≠ []) :
    runSpan (tokens.map (Token.moved move)) = (runSpan tokens).moved move := by
  cases tokens with
  | nil => exact (filled rfl).elim
  | cons token rest =>
      rw [List.map_cons, runSpan, runSpan]
      have last : (rest.map (Token.moved move)).getLastD (token.moved move) =
          (rest.getLastD token).moved move := by
        rw [List.getLastD_eq_getLast?, List.getLastD_eq_getLast?,
          List.getLast?_map, Option.getD_map]
      rw [last]
      rfl

theorem Token.dropTrailingComments_moved (tokens : List Token) :
    dropTrailingComments (tokens.map (Token.moved move)) =
      (dropTrailingComments tokens).map (Token.moved move) := by
  rw [dropTrailingComments, dropTrailingComments, ← List.map_reverse,
    List.dropWhile_map, List.map_reverse]
  rfl

variable {move} in
theorem Token.eq_of_moved_eq {token : Token} {kind : Token.Kind} {span : Span}
    {text gap : Text} (same : token.moved move = ⟨kind, span, text, gap⟩) :
    token = ⟨kind, token.span, text, gap⟩ := by
  obtain ⟨_, _, _, _⟩ := token
  cases same
  rfl

/-! ## Heads -/

namespace Head

section Kinds

-- Names and parameter lists are found by the kinds of the tokens alone.
variable {change : Token → Token}
  (kept : ∀ token, (change token).kind = token.kind)
include kept

theorem exists_change_eq (kind : Token.Kind) (span : Span) (text gap : Text) :
    ∃ span' text' gap',
      change ⟨kind, span, text, gap⟩ = ⟨kind, span', text', gap'⟩ := by
  have same : (change ⟨kind, span, text, gap⟩).kind = kind := kept _
  refine ⟨(change ⟨kind, span, text, gap⟩).span,
    (change ⟨kind, span, text, gap⟩).text, (change ⟨kind, span, text, gap⟩).gap,
    ?_⟩
  cases changed : change ⟨kind, span, text, gap⟩
  rw [changed] at same
  cases same
  rfl

theorem eq_of_change_eq {token : Token} {kind : Token.Kind} {span : Span}
    {text gap : Text} (changed : change token = ⟨kind, span, text, gap⟩) :
    token = ⟨kind, token.span, token.text, token.gap⟩ := by
  have same := kept token
  rw [changed] at same
  cases same
  rfl

theorem parameters?_map (tokens : List Token) :
    parameters? (tokens.map change) = parameters? tokens := by
  cases tokens with
  | nil => rfl
  | cons token rest =>
      obtain ⟨kind, span, text, gap⟩ := token
      obtain ⟨_, _, _, changed⟩ := exists_change_eq kept kind span text gap
      rw [List.map_cons, changed]
      cases kind <;> rfl

private theorem dottedName_map (tokens : List Token) :
    dottedName (tokens.map change) =
      ((dottedName tokens).1, (dottedName tokens).2.map change) := by
  fun_induction dottedName tokens with
  | case1 span text gap part span' text' gap' rest name behind later ih =>
      obtain ⟨_, _, _, dot⟩ :=
        exists_change_eq kept (.delimiter '.') span text gap
      obtain ⟨_, _, _, word⟩ :=
        exists_change_eq kept (.ident part) span' text' gap'
      rw [List.map_cons, List.map_cons, dot, word, dottedName, ih, later]
  | case2 span text gap rest notPart ih =>
      obtain ⟨_, _, _, dot⟩ :=
        exists_change_eq kept (.delimiter '.') span text gap
      rw [List.map_cons, dot, dottedName, ih]
      intro part span' text' gap' rest' behind
      obtain ⟨next, others, rfl, second, -⟩ := List.map_eq_cons_iff.mp behind
      exact notPart _ _ _ _ others
        (congrArg (· :: others) (eq_of_change_eq kept second))
  | case3 tokens notDotted notDot =>
      rw [dottedName]
      · intro span text gap part span' text' gap' rest whole
        obtain ⟨next, others, rfl, first, -⟩ := List.map_eq_cons_iff.mp whole
        exact notDot _ _ _ others
          (congrArg (· :: others) (eq_of_change_eq kept first))
      · intro span text gap rest whole
        obtain ⟨next, others, rfl, first, -⟩ := List.map_eq_cons_iff.mp whole
        exact notDot _ _ _ others
          (congrArg (· :: others) (eq_of_change_eq kept first))

theorem includingOf_map (tokens : List Token) :
    includingOf (tokens.map change) = includingOf tokens := by
  cases tokens with
  | nil => rfl
  | cons token rest =>
      obtain ⟨kind, span, text, gap⟩ := token
      obtain ⟨_, _, _, changed⟩ := exists_change_eq kept kind span text gap
      rw [List.map_cons, changed]
      cases kind with
      | ident name =>
          rw [includingOf, includingOf, dottedName_map kept]
          exact congrArg (Head.including _) (parameters?_map kept _)
      | _ => rfl

end Kinds

private theorem prelude_moved (tokens : List Token) :
    prelude (tokens.map (Token.moved move)) = prelude tokens := by
  have same : Text.normalizeBlanks (Token.runText
      (Token.dropTrailingComments (tokens.map (Token.moved move)))) =
        Text.normalizeBlanks
          (Token.runText (Token.dropTrailingComments tokens)) := by
    rw [Token.dropTrailingComments_moved, Token.runText_moved]
  cases tokens with
  | nil => exact same
  | cons token rest =>
      obtain ⟨kind, span, text, gap⟩ := token
      cases kind with
      | ident name =>
          rw [List.map_cons, Token.moved, prelude, prelude,
            Token.dropTrailingComments_moved]
          cases kept : Token.dropTrailingComments rest with
          | nil => rfl
          | cons token others =>
              have whole := Token.runText_moved move
                (⟨.ident name, span, text, gap⟩ :: token :: others)
              exact congrArg Text.normalizeBlanks whole
      | _ => exact same

private theorem atRuleOf_moved (keyword : Text) (tokens : List Token) :
    atRuleOf keyword (tokens.map (Token.moved move)) =
      atRuleOf keyword tokens := by
  have same := prelude_moved move tokens
  cases tokens with
  | nil => rfl
  | cons token rest =>
      obtain ⟨kind, span, text, gap⟩ := token
      cases kind with
      | ident name =>
          rw [List.map_cons] at same ⊢
          rw [Token.moved, atRuleOf, atRuleOf,
            parameters?_map (Token.kind_moved move)]
          rw [Token.moved] at same
          rw [same]
      | _ =>
          rw [List.map_cons] at same ⊢
          exact congrArg (fun shown => (⟨keyword, none, none, shown⟩ : AtRule))
            same

private theorem targets_moved (tokens : List Token) :
    targets (tokens.map (Token.moved move)) =
      (targets tokens).map (ImportTarget.moved move) := by
  fun_induction targets tokens with
  | case1 => rfl
  | case2 span text gap inner last _ _ rest ih =>
      rw [List.map_cons, List.map_cons, Token.moved, Token.moved, targets,
        if_pos rfl, ih]
      rfl
  | case3 name span text gap inner last _ _ rest other ih =>
      rw [List.map_cons, List.map_cons, Token.moved, Token.moved, targets,
        if_neg other, ih]
  | case4 path span text gap rest ih =>
      rw [List.map_cons, Token.moved, targets, ih]
      rfl
  | case5 token rest notUrl notString ih =>
      rw [List.map_cons, targets, ih]
      · intro name span text gap inner last text' gap' rest' first behind
        obtain ⟨next, others, rfl, second, -⟩ := List.map_eq_cons_iff.mp behind
        exact notUrl _ _ _ _ _ _ _ _ others (Token.eq_of_moved_eq first)
          (congrArg (· :: others) (Token.eq_of_moved_eq second))
      · intro path span text gap first
        exact notString _ _ _ _ (Token.eq_of_moved_eq first)

theorem ofTokens_moved (tokens : List Token) :
    ofTokens (tokens.map (Token.moved move)) =
      (ofTokens tokens).moved move := by
  have style : Head.style (Text.normalizeBlanks (Token.runText
      (Token.dropTrailingComments (tokens.map (Token.moved move))))) =
        .style
          (Text.normalizeBlanks
            (Token.runText (Token.dropTrailingComments tokens))) := by
    rw [Token.dropTrailingComments_moved, Token.runText_moved]
  cases tokens with
  | nil => exact style
  | cons token rest =>
      obtain ⟨kind, span, text, gap⟩ := token
      cases kind with
      | atKeyword keyword =>
          rw [List.map_cons, Token.moved, ofTokens, ofTokens, targets_moved,
            includingOf_map (Token.kind_moved move), atRuleOf_moved]
          cases ImportKind.ofKeyword? keyword with
          | some kind => rfl
          | none =>
              by_cases included : keyword = "include".toList
              · obtain ⟨name, arguments, isInclude⟩ := includingOf_eq rest
                simp only [included, if_true, isInclude, Head.moved]
              · simp only [if_neg included, Head.moved]
      | _ => exact style

end Head

/-! ## Outlines -/

namespace Outline

/-- The fault, elsewhere. -/
def Fault.moved (fault : Fault) : Fault :=
  { fault with span := fault.span.moved move }

/-- The open block, elsewhere. -/
def Frame.moved (frame : Frame) : Frame :=
  ⟨Item.movedAll move frame.before, frame.head.map (Token.moved move),
    frame.opening.moved move⟩

namespace Draft

/-- The draft, elsewhere. -/
def moved (draft : Draft) : Draft :=
  ⟨draft.frames.map (Frame.moved move), Item.movedAll move draft.items,
    draft.head.map (Token.moved move)⟩

theorem closed_moved (draft : Draft) :
    (draft.moved move).closed = Item.movedAll move draft.closed := by
  rw [closed, closed, Draft.moved, List.isEmpty_map]
  split
  · rfl
  · rw [Item.movedAll_append, Item.movedAll_singleton, Item.moved,
      Option.map_none]

private theorem step_moved (draft : Draft) (token : Token) :
    (draft.moved move).step (token.moved move) =
      ((draft.step token).mapError (Fault.moved move)).map
        (Draft.moved move) := by
  have empty : (draft.moved move).head.isEmpty = draft.head.isEmpty :=
    List.isEmpty_map
  have kept : (token.moved move).kind = token.kind := rfl
  rw [step, step, empty, kept]
  cases kind : token.kind with
  | comment style text =>
      cases draft.head.isEmpty
      · simp [Except.mapError, Except.map, Draft.moved]
      · simp [Except.mapError, Except.map, Draft.moved, Item.movedAll_append,
          Item.movedAll, Item.moved]
  | semicolon =>
      cases draft.head.isEmpty
      · simp [Except.mapError, Except.map, Draft.moved, Item.movedAll_append,
          Item.movedAll, Item.moved]
      · simp [Except.mapError, Except.map, Draft.moved, Item.movedAll_append,
          Item.movedAll, Item.moved]
  | openBrace =>
      simp [Except.mapError, Except.map, Draft.moved, Frame.moved,
        Item.movedAll]
  | closeBrace =>
      have closed := closed_moved move draft
      cases frames : draft.frames with
      | nil =>
          simp [Except.mapError, Except.map, Draft.moved, frames, Fault.moved,
            Token.moved]
      | cons frame rest =>
          have moved : (draft.moved move).frames =
              frame.moved move :: rest.map (Frame.moved move) := by
            rw [Draft.moved, frames, List.map_cons]
          rw [moved, closed]
          simp [Except.mapError, Except.map, Draft.moved, Item.movedAll_append,
            Item.movedAll, Item.moved, Frame.moved]
  | unterminated construct => rfl
  | endOfInput => rfl
  | _ => simp [Except.mapError, Except.map, Draft.moved]

end Draft

/-- What a step keeps to, a run keeps to. -/
theorem foldlM_of_step {state token error : Type}
    {step : state → token → Except error state} {onState : state → state}
    {onToken : token → token} {onError : error → error}
    (follows : ∀ s t,
      step (onState s) (onToken t) = ((step s t).mapError onError).map onState)
    (start : state) (tokens : List token) :
    (tokens.map onToken).foldlM step (onState start) =
      ((tokens.foldlM step start).mapError onError).map onState := by
  induction tokens generalizing start with
  | nil => rfl
  | cons token rest ih =>
      rw [List.map_cons, List.foldlM_cons, List.foldlM_cons, follows]
      cases step start token with
      | error fault => rfl
      | ok next => exact ih next

theorem ofTokens_moved (tokens : List Token) :
    ofTokens (tokens.map (Token.moved move)) =
      ((ofTokens tokens).mapError (Fault.moved move)).map
        (Item.movedAll move) := by
  have run := foldlM_of_step (Draft.step_moved move) {} tokens
  have start : Draft.moved move {} = {} := by
    simp [Draft.moved, Item.movedAll]
  rw [start] at run
  rw [ofTokens, ofTokens, run]
  cases tokens.foldlM Draft.step {} with
  | error fault => rfl
  | ok final =>
      change (final.moved move).finish =
        ((final.finish).mapError (Fault.moved move)).map (Item.movedAll move)
      rw [Draft.finish, Draft.finish]
      cases frames : final.frames with
      | nil =>
          rw [Draft.closed_moved]
          simp [Draft.moved, frames, Except.mapError, Except.map]
      | cons frame rest =>
          simp [Draft.moved, frames, Except.mapError, Except.map, Fault.moved,
            Frame.moved, Token.moved]

end Outline

/-! ## Stylesheets -/

namespace Stylesheet

theorem append_moved (left right : Stylesheet) :
    (left.append right).moved move =
      (left.moved move).append (right.moved move) := by
  simp only [append, Stylesheet.moved, Node.movedAll_append, List.map_append]

theorem ofPending_moved (reason : OrphanReason) (pending : Option Comment) :
    Orphan.ofPending reason (pending.map (Comment.moved move)) =
      (Orphan.ofPending reason pending).map (Orphan.moved move) := by
  cases pending with
  | none => rfl
  | some comment =>
      simp only [Option.map_some, Orphan.ofPending, Comment.moved]
      split <;> rfl

theorem ofStatement_moved (pending : Option Comment) (span : Span)
    (head : Head) :
    ofStatement (pending.map (Comment.moved move)) (span.moved move)
      (head.moved move) =
      (ofStatement pending span head).moved move := by
  cases head <;>
    simp [ofStatement, Head.moved, Stylesheet.moved, Node.movedAll, Node.moved,
      ofPending_moved]

private theorem ofBlock_moved (pending : Option Comment) (span : Span)
    (inner : Stylesheet) (head : Head) :
    ofBlock (pending.map (Comment.moved move)) (span.moved move)
      (inner.moved move)
        (head.moved move) =
      (ofBlock pending span inner head).moved move := by
  cases head <;>
    simp [ofBlock, Head.moved, Stylesheet.moved, Node.movedAll, Node.moved,
      ofPending_moved]

theorem ofItems_moved {items : List Item} (shaped : Item.Shaped items)
    (pending : Option Comment) :
    ofItems (pending.map (Comment.moved move)) (Item.movedAll move items) =
      (ofItems pending items).moved move := by
  induction shaped generalizing pending with
  | nil =>
      rw [Item.movedAll, ofItems, ofItems, ofPending_moved]
      rfl
  | comment _ _ ih =>
      rw [Item.movedAll, Item.moved, ofItems, ofItems, ofItem, ofItem,
        append_moved, ← ih, ofPending_moved]
      rfl
  | separator _ _ ih =>
      rw [Item.movedAll, Item.moved, ofItems, ofItems, ofItem, ofItem,
        append_moved, ← ih]
      rfl
  | @statement head semicolon rest isHead _ _ ih =>
      rw [Item.movedAll, Item.moved, ofItems, ofItems, ofItem, ofItem,
        append_moved, ← ih, ← ofStatement_moved,
        ← Token.runSpan_moved move (by simp), ← Head.ofTokens_moved,
        List.map_append]
      rfl
  | @last head isHead =>
      obtain ⟨first, behind, filled, _⟩ := isHead.begins
      simp only [Item.movedAll, Item.moved, ofItems, ofItem, append_moved]
      rw [← ofStatement_moved, ← Token.runSpan_moved move (by simp [filled]),
        ← Head.ofTokens_moved, List.map_append]
      rfl
  | @block head opening closing items rest _ _ _ _ _ ihItems ihRest =>
      rw [Item.movedAll, Item.moved, ofItems, ofItems, ofItem, ofItem,
        append_moved, ← ihRest, ← ofBlock_moved,
        ← Token.runSpan_moved move (by simp), ← Head.ofTokens_moved,
        List.map_append, ← ihItems]
      rfl

end Stylesheet

end StyleAudit
