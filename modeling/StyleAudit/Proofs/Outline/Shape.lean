import StyleAudit.Proofs.Outline.Flatten

/-!
# The shape of an outline

What the pass over the tokens puts into an item is of the right kind: comments
are comments, braces are braces, and a head begins with something that is no
comment and has no brace or semicolon in it.  Only the last statement of a block
may go without its semicolon.
-/

namespace StyleAudit

/-- The tokens of an item up to its semicolon or its block. -/
structure Token.IsHead (tokens : List Token) : Prop where
  begins : ∃ first rest, tokens = first :: rest ∧ first.kind.isComment = false
  inside : ∀ token ∈ tokens, token.kind.isBoundary = false

theorem Token.IsHead.singleton {token : Token}
    (notComment : token.kind.isComment = false)
    (notBoundary : token.kind.isBoundary = false) : IsHead [token] := by
  refine ⟨⟨token, [], rfl, notComment⟩, ?_⟩
  intro other member
  rwa [List.mem_singleton.mp member]

theorem Token.IsHead.concat {tokens : List Token} (isHead : IsHead tokens)
    {token : Token} (notBoundary : token.kind.isBoundary = false) :
    IsHead (tokens ++ [token]) := by
  obtain ⟨first, rest, rfl, notComment⟩ := isHead.begins
  refine ⟨⟨first, rest ++ [token], rfl, notComment⟩, ?_⟩
  intro other member
  rcases List.mem_append.mp member with before | last
  · exact isHead.inside other before
  · rwa [List.mem_singleton.mp last]

namespace Item

/-- The items of a block, each with the tokens that belong in it. -/
inductive Shaped : List Item → Prop where
  | nil : Shaped []
  | comment {style : CommentStyle} {text : Text} {token : Token}
    {rest : List Item} :
      token.kind = .comment style text → Shaped rest →
        Shaped (.comment style token :: rest)
  | separator {token : Token} {rest : List Item} :
      token.kind = .semicolon → Shaped rest → Shaped (.separator token :: rest)
  | statement {head : List Token} {semicolon : Token} {rest : List Item} :
      Token.IsHead head → semicolon.kind = .semicolon → Shaped rest →
      Shaped (.statement head (some semicolon) :: rest)
  | last {head : List Token} : Token.IsHead head → Shaped [.statement head none]
  | block {head : List Token} {opening closing : Token}
    {items rest : List Item} :
      head = [] ∨ Token.IsHead head → opening.kind = .openBrace → Shaped items →
      closing.kind = .closeBrace → Shaped rest →
      Shaped (.block head opening items closing :: rest)

/-- The items may be followed by more. -/
def Sealed (items : List Item) : Prop :=
  ∀ rest, Shaped rest → Shaped (items ++ rest)

theorem sealed_nil : Sealed [] :=
  fun _ => id

theorem Sealed.shaped {items : List Item} (isSealed : Sealed items) :
    Shaped items := by
  have whole := isSealed [] .nil
  rwa [List.append_nil] at whole

theorem Sealed.concat {items : List Item} (isSealed : Sealed items)
    {item : Item} (shaped : ∀ rest, Shaped rest → Shaped (item :: rest)) :
    Sealed (items ++ [item]) := by
  intro rest after
  rw [List.append_assoc]
  exact isSealed (item :: rest) (shaped rest after)

end Item

namespace Outline

open Item (Shaped Sealed)

namespace Draft

/-- What the draft holds may be followed by more, at every level. -/
structure Shaped (draft : Draft) : Prop where
  frames : ∀ frame ∈ draft.frames, Sealed frame.before ∧
    (frame.head = [] ∨ Token.IsHead frame.head) ∧
      frame.opening.kind = .openBrace
  items : Sealed draft.items
  head : draft.head = [] ∨ Token.IsHead draft.head

theorem shaped_empty : Shaped {} :=
  ⟨nofun, Item.sealed_nil, .inl rfl⟩

theorem Shaped.closed {draft : Draft} (shaped : draft.Shaped) :
    Item.Shaped draft.closed := by
  rw [Draft.closed]
  split
  · exact shaped.items.shaped
  · rename_i filled
    rcases shaped.head with empty | isHead
    · exact (filled (List.isEmpty_iff.mpr empty)).elim
    · exact shaped.items _ (.last isHead)

theorem Shaped.step {draft next : Draft} (shaped : draft.Shaped) {token : Token}
    (stepped : draft.step token = .ok next) : next.Shaped := by
  rw [Draft.step] at stepped
  split at stepped
  case h_1 style text kind =>
    split at stepped
    · rw [← Except.ok.inj stepped]
      exact { shaped with items := shaped.items.concat fun _ => .comment kind }
    · rename_i filled
      rw [← Except.ok.inj stepped]
      rcases shaped.head with empty | isHead
      · exact (filled (List.isEmpty_iff.mpr empty)).elim
      · exact { shaped with head := .inr (isHead.concat (by rw [kind]; rfl)) }
  case h_2 kind =>
    split at stepped
    · rw [← Except.ok.inj stepped]
      exact
        { shaped with items := shaped.items.concat fun _ => .separator kind }
    · rename_i filled
      rw [← Except.ok.inj stepped]
      rcases shaped.head with empty | isHead
      · exact (filled (List.isEmpty_iff.mpr empty)).elim
      · exact ⟨shaped.frames,
          shaped.items.concat fun _ => .statement isHead kind, .inl rfl⟩
  case h_3 kind =>
    rw [← Except.ok.inj stepped]
    refine ⟨?_, Item.sealed_nil, .inl rfl⟩
    intro frame member
    rcases List.mem_cons.mp member with rfl | outer
    · exact ⟨shaped.items, shaped.head, kind⟩
    · exact shaped.frames frame outer
  case h_4 kind =>
    split at stepped
    · cases stepped
    · rename_i frame frames isOpen
      have frameShaped := shaped.frames
      rw [isOpen] at frameShaped
      obtain ⟨before, head, opening⟩ := frameShaped frame List.mem_cons_self
      rw [← Except.ok.inj stepped]
      refine ⟨?_, ?_, .inl rfl⟩
      · exact fun other member =>
          frameShaped other (List.mem_cons_of_mem frame member)
      · exact before.concat fun _ => .block head opening shaped.closed kind
  case h_5 => cases stepped
  case h_6 =>
    rw [← Except.ok.inj stepped]
    exact shaped
  case h_7 notComment notSemicolon notOpening notClosing _ notEnd =>
    have plain : token.kind.isComment = false := by
      cases kind : token.kind <;> simp_all [Token.Kind.isComment]
    have notBoundary : token.kind.isBoundary = false := by
      cases kind : token.kind <;> simp_all [Token.Kind.isBoundary]
    rw [← Except.ok.inj stepped]
    refine ⟨shaped.frames, shaped.items, .inr ?_⟩
    rcases shaped.head with empty | isHead
    · rw [empty]
      exact .singleton plain notBoundary
    · exact isHead.concat notBoundary

theorem Shaped.foldlM {draft final : Draft} (shaped : draft.Shaped)
    {tokens : List Token} (ran : tokens.foldlM Draft.step draft = .ok final) :
    final.Shaped := by
  induction tokens generalizing draft with
  | nil =>
      rw [← Except.ok.inj ran]
      exact shaped
  | cons token rest ih =>
      rw [List.foldlM_cons] at ran
      obtain ⟨next, stepped, ranOn⟩ := exists_ok_of_bind ran
      exact ih (shaped.step stepped) ranOn

end Draft

/-- Every outline has the right shape. -/
theorem shaped_ofTokens {tokens : List Token} {items : List Item}
    (outline : ofTokens tokens = .ok items) : Item.Shaped items := by
  obtain ⟨final, ran, -, rfl⟩ := exists_draft_of_ofTokens outline
  exact (Draft.shaped_empty.foldlM ran).closed

/-! ## An outline from its tokens -/

theorem Intact.of_append {left right : List Token}
    (intact : Intact (left ++ right)) :
    Intact left ∧ Intact right := by
  constructor
  · exact fun token member => intact token (List.mem_append_left right member)
  · exact fun token member => intact token (List.mem_append_right left member)

namespace Draft

private theorem step_inside {draft : Draft} (filled : draft.head ≠ [])
    {token : Token} (inside : token.kind.isBoundary = false)
    (closed : ∀ construct, token.kind ≠ .unterminated construct) :
    draft.step token = .ok { draft with head := draft.head ++ [token] } := by
  have notEmpty : draft.head.isEmpty = false := by simpa using filled
  unfold step
  split <;> simp_all [Token.Kind.isBoundary]

private theorem foldlM_inside {draft : Draft} (filled : draft.head ≠ [])
    {tokens : List Token}
    (inside : ∀ token ∈ tokens, token.kind.isBoundary = false)
    (intact : Intact tokens) :
    tokens.foldlM Draft.step draft = .ok
      { draft with head := draft.head ++ tokens } := by
  induction tokens generalizing draft with
  | nil =>
      rw [List.append_nil]
      rfl
  | cons token rest ih =>
      have stepped := step_inside filled (inside token List.mem_cons_self)
        (intact token List.mem_cons_self)
      rw [List.foldlM_cons, stepped]
      have later := @ih { draft with head := draft.head ++ [token] } (by simp)
        (fun other member => inside other (List.mem_cons_of_mem token member))
        (fun other member => intact other (List.mem_cons_of_mem token member))
      rw [List.append_assoc] at later
      exact later

/-- The tokens of a head are gathered as they come. -/
theorem foldlM_head {head : List Token} (isHead : Token.IsHead head)
    (intact : Intact head) (frames : List Frame) (before : List Item) :
    head.foldlM Draft.step ⟨frames, before, []⟩ =
      .ok ⟨frames, before, head⟩ := by
  have inside := isHead.inside
  obtain ⟨first, rest, rfl, notComment⟩ := isHead.begins
  have starts : Draft.step ⟨frames, before, []⟩ first =
      .ok ⟨frames, before, [first]⟩ := by
    have boundary := inside first List.mem_cons_self
    have closed := intact first List.mem_cons_self
    unfold step
    split <;> simp_all [Token.Kind.isBoundary, Token.Kind.isComment]
  rw [List.foldlM_cons, starts]
  exact foldlM_inside (List.cons_ne_nil first [])
    (fun token member => inside token (List.mem_cons_of_mem first member))
    (fun token member => intact token (List.mem_cons_of_mem first member))

/-- A pass over the tokens adds the items, whatever was there before. -/
def Adds (tokens : List Token) (items : List Item) : Prop :=
  ∀ frames before, ∃ draft,
    tokens.foldlM Draft.step ⟨frames, before, []⟩ = .ok draft ∧
      draft.frames = frames ∧ draft.closed = before ++ items

theorem foldlM_singleton {draft next : Draft} {token : Token}
    (stepped : draft.step token = .ok next) :
    [token].foldlM Draft.step draft = .ok next := by
  rw [List.foldlM_cons, stepped]
  rfl

theorem adds_cons {item : Item} {rest : List Item}
    (added : ∀ frames before,
      item.tokens.foldlM Draft.step ⟨frames, before, []⟩ =
      .ok ⟨frames, before ++ [item], []⟩)
    (later : Adds (Item.tokensOf rest) rest) :
    Adds (Item.tokensOf (item :: rest)) (item :: rest) := by
  intro frames before
  obtain ⟨draft, ran, same, closed⟩ := later frames (before ++ [item])
  rw [List.append_assoc] at closed
  refine ⟨draft, ?_, same, closed⟩
  rw [Item.tokensOf, List.foldlM_append, added]
  exact ran

private theorem foldlM_block {head : List Token} {opening closing : Token}
    {items : List Item} (opens : opening.kind = .openBrace)
    (closes : closing.kind = .closeBrace) {frames : List Frame}
    {before : List Item}
    (gathered : head.foldlM Draft.step ⟨frames, before, []⟩ =
      .ok ⟨frames, before, head⟩)
    (inside : Adds (Item.tokensOf items) items) :
    (Item.block head opening items closing).tokens.foldlM Draft.step
        ⟨frames, before, []⟩ =
      .ok ⟨frames, before ++ [.block head opening items closing], []⟩ := by
  obtain ⟨inner, ran, same, closed⟩ :=
    inside (⟨before, head, opening⟩ :: frames) []
  have stepOpening : Draft.step ⟨frames, before, head⟩ opening =
      .ok ⟨⟨before, head, opening⟩ :: frames, [], []⟩ := by
    rw [step, opens]
  have stepClosing : inner.step closing =
      .ok ⟨frames, before ++ [.block head opening items closing], []⟩ := by
    rw [step, closes, same, closed, List.nil_append]
  rw [Item.tokens, List.append_assoc, List.append_assoc, List.foldlM_append,
    List.singleton_append, gathered]
  change List.foldlM Draft.step ⟨frames, before, head⟩ (opening :: _) = _
  rw [List.foldlM_cons, stepOpening]
  change List.foldlM Draft.step ⟨⟨before, head, opening⟩ :: frames, [], []⟩ _ =
    _
  rw [List.foldlM_append, ran]
  exact foldlM_singleton stepClosing

/-- A pass over the tokens of items adds these items. -/
theorem adds_tokensOf {items : List Item} (shaped : Item.Shaped items)
    (intact : Intact (Item.tokensOf items)) :
    Adds (Item.tokensOf items) items := by
  induction shaped with
  | nil =>
      intro frames before
      exact ⟨⟨frames, before, []⟩, rfl, rfl, (List.append_nil before).symm⟩
  | @comment style text token rest kind _ ih =>
      refine adds_cons (fun frames before => foldlM_singleton ?_)
        (ih intact.of_append.2)
      rw [step, kind]
      rfl
  | @separator token rest kind _ ih =>
      refine adds_cons (fun frames before => foldlM_singleton ?_)
        (ih intact.of_append.2)
      rw [step, kind]
      rfl
  | @statement head semicolon rest isHead kind _ ih =>
      refine adds_cons (fun frames before => ?_) (ih intact.of_append.2)
      have gathered :=
        foldlM_head isHead intact.of_append.1.of_append.1 frames before
      rw [Item.tokens, List.foldlM_append, gathered]
      obtain ⟨first, others, rfl, -⟩ := isHead.begins
      refine foldlM_singleton ?_
      rw [step, kind]
      rfl
  | @last head isHead =>
      intro frames before
      rw [Item.tokensOf, Item.tokens, Item.tokensOf, Option.toList_none,
        List.append_nil, List.append_nil] at intact ⊢
      refine ⟨_, foldlM_head isHead intact frames before, rfl, ?_⟩
      obtain ⟨first, others, rfl, -⟩ := isHead.begins
      rfl
  | @block head opening closing items rest isHead opens _ closes _
      ihItems ihRest =>
      obtain ⟨intactBlock, intactRest⟩ := intact.of_append
      rw [Item.tokens] at intactBlock
      obtain ⟨intactOpening, intactItems⟩ := intactBlock.of_append.1.of_append
      refine adds_cons (fun frames before => ?_) (ihRest intactRest)
      refine foldlM_block opens closes ?_ (ihItems intactItems)
      rcases isHead with rfl | isHead
      · rfl
      · exact foldlM_head isHead intactOpening.of_append.1 frames before

end Draft

/-- Items of the right shape are the outline of their tokens. -/
theorem ofTokens_tokensOf {items : List Item} (shaped : Item.Shaped items)
    (intact : Intact (Item.tokensOf items)) {last : Token}
    (ending : last.kind = .endOfInput) :
    ofTokens (Item.tokensOf items ++ [last]) = .ok items := by
  obtain ⟨draft, ran, frames, closed⟩ := Draft.adds_tokensOf shaped intact [] []
  have stepped : draft.step last = .ok draft := by
    rw [Draft.step, ending]
  rw [ofTokens, List.foldlM_append, ran]
  change (List.foldlM Draft.step draft [last] >>= Draft.finish) = _
  rw [List.foldlM_cons, stepped]
  change draft.finish = _
  rw [Draft.finish, frames, closed, List.nil_append]

end Outline

end StyleAudit
