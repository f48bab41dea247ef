import StyleAudit.Proofs.Outcome
import StyleAudit.Proofs.Outline.Acceptance

/-!
# An outline holds the tokens in order

Nothing is lost or moved when tokens are cut into items: an outline, read from
its beginning to its end, is the list of its tokens without the end mark.
-/

namespace StyleAudit

namespace Item

mutual

/-- The tokens of an item, in order. -/
def tokens : Item → List Token
  | .comment _ token => [token]
  | .separator token => [token]
  | .statement head semicolon => head ++ semicolon.toList
  | .block head opening items closing =>
    head ++ [opening] ++ tokensOf items ++ [closing]

/-- The tokens of items, in order. -/
def tokensOf : List Item → List Token
  | [] => []
  | item :: rest => item.tokens ++ tokensOf rest

end

theorem tokensOf_append (left right : List Item) :
    tokensOf (left ++ right) = tokensOf left ++ tokensOf right := by
  induction left with
  | nil => rw [tokensOf, List.nil_append, List.nil_append]
  | cons item rest ih =>
      rw [List.cons_append, tokensOf, tokensOf, ih, List.append_assoc]

theorem tokensOf_singleton (item : Item) : tokensOf [item] = item.tokens := by
  rw [tokensOf, tokensOf, List.append_nil]

end Item

namespace Outline

/-- The tokens in front of an open block, its brace included. -/
def Frame.tokens (frame : Frame) : List Token :=
  Item.tokensOf frame.before ++ frame.head ++ [frame.opening]

namespace Draft

/-- The tokens that a draft holds, in order. -/
def tokens (draft : Draft) : List Token :=
  draft.frames.reverse.flatMap Frame.tokens ++ Item.tokensOf draft.items ++
    draft.head

theorem tokensOf_closed (draft : Draft) :
    Item.tokensOf draft.closed = Item.tokensOf draft.items ++ draft.head := by
  rw [closed]
  split
  · rename_i empty
    rw [List.isEmpty_iff.mp empty, List.append_nil]
  · rw [Item.tokensOf_append, Item.tokensOf_singleton, Item.tokens,
      Option.toList_none, List.append_nil]

private theorem tokens_concat {draft : Draft}
    (empty : draft.head.isEmpty = true) {item : Item} {token : Token}
    (single : item.tokens = [token]) :
    { draft with items := draft.items ++ [item] }.tokens =
      draft.tokens ++ [token] := by
  simp [tokens, List.isEmpty_iff.mp empty, Item.tokensOf_append,
    Item.tokensOf_singleton, single]

/-- The draft holds a token that it has taken, unless that is the end mark. -/
theorem tokens_step {draft next : Draft} {token : Token}
    (stepped : draft.step token = .ok next) :
    next.tokens = draft.tokens ++ [token].filter (·.kind != .endOfInput) := by
  have kept : token.kind ≠ .endOfInput →
      [token].filter (·.kind != .endOfInput) = [token] := by
    intro notEnd
    simp [notEnd]
  rw [step] at stepped
  split at stepped
  case h_1 kind =>
    rw [kept (by simp [kind])]
    split at stepped
    · rename_i empty
      rw [← Except.ok.inj stepped]
      exact tokens_concat empty (by rw [Item.tokens])
    · rw [← Except.ok.inj stepped]
      simp [tokens]
  case h_2 kind =>
    rw [kept (by simp [kind])]
    split at stepped
    · rename_i empty
      rw [← Except.ok.inj stepped]
      exact tokens_concat empty (by rw [Item.tokens])
    · rw [← Except.ok.inj stepped]
      simp [tokens, Item.tokensOf_append, Item.tokensOf_singleton, Item.tokens]
  case h_3 kind =>
    rw [kept (by simp [kind]), ← Except.ok.inj stepped]
    simp [tokens, Frame.tokens, Item.tokensOf]
  case h_4 kind =>
    rw [kept (by simp [kind])]
    split at stepped
    · cases stepped
    · rename_i frame frames isOpen
      rw [← Except.ok.inj stepped]
      simp [tokens, Frame.tokens, isOpen, Item.tokensOf_append,
        Item.tokensOf_singleton, Item.tokens, tokensOf_closed]
  case h_5 => cases stepped
  case h_6 kind =>
    rw [← Except.ok.inj stepped]
    simp [kind]
  case h_7 notEnd =>
    rw [kept notEnd, ← Except.ok.inj stepped]
    simp [tokens]

private theorem tokens_foldlM {draft final : Draft} {list : List Token}
    (ran : list.foldlM step draft = .ok final) :
    final.tokens = draft.tokens ++ list.filter (·.kind != .endOfInput) := by
  induction list generalizing draft with
  | nil =>
      rw [← Except.ok.inj ran, List.filter_nil, List.append_nil]
  | cons token rest ih =>
      rw [List.foldlM_cons] at ran
      obtain ⟨next, stepped, ranOn⟩ := exists_ok_of_bind ran
      rw [ih ranOn, tokens_step stepped, List.append_assoc,
        ← List.filter_append, List.singleton_append]

end Draft

/-- An outline is what the last draft holds, with no block left open. -/
theorem exists_draft_of_ofTokens {tokens : List Token} {items : List Item}
    (outline : ofTokens tokens = .ok items) :
    ∃ final : Draft, tokens.foldlM Draft.step {} = .ok final ∧
      final.frames = [] ∧ final.closed = items := by
  obtain ⟨final, ran, finished⟩ := exists_ok_of_bind outline
  rw [Draft.finish] at finished
  split at finished
  · rename_i noFrames
    exact ⟨final, ran, noFrames, Except.ok.inj finished⟩
  · cases finished

/-- The outline holds all tokens but the end mark, in order. -/
theorem tokensOf_ofTokens {tokens : List Token} {items : List Item}
    (outline : ofTokens tokens = .ok items) :
    Item.tokensOf items = tokens.filter (·.kind != .endOfInput) := by
  obtain ⟨final, ran, noFrames, rfl⟩ := exists_draft_of_ofTokens outline
  have held := Draft.tokens_foldlM ran
  rw [Draft.tokensOf_closed]
  simpa [Draft.tokens, noFrames, Item.tokensOf] using held

/-- The token to blame for a flaw is one of the tokens. -/
theorem Faulty.mem {tokens : List Token} {flaw : Flaw} {token : Token}
    (faulty : Faulty tokens flaw token) : token ∈ tokens := by
  cases faulty with
  | stray split _ _ => simp [split]
  | unterminated split _ _ _ => simp [split]
  | unclosed _ _ last =>
      obtain ⟨front, back, split, -, -⟩ := lastUnclosed_iff.mp last
      simp [split]

end Outline

end StyleAudit
