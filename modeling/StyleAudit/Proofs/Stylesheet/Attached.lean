import Mathlib.Data.List.Nodup
import StyleAudit.Proofs.Outline.Balance
import StyleAudit.Proofs.Stylesheet.Comments

/-!
# Each comment of a stylesheet is settled by its tokens

The comments that a stylesheet keeps, on its nodes or as orphans, are comments
among the tokens, and what becomes of them is what the tokens behind them tell.
This needs no assumption on imports: where the block of an import is dropped,
comments are lost, but none comes in.
-/

namespace StyleAudit

/-- The comments of a source where an item can begin, each with its fate. -/
def Settlement.all (source : Text) : List Settlement :=
  (Token.itemPlaces [] (Token.scan source)).filterMap Settlement.at?

namespace Stylesheet

open Token (gather)
open Item (tokensOf)

/-- The stylesheet keeps no other comments than those that were settled, in the
way they were. -/
structure Keeps (sheet : Stylesheet) (settled : List Settlement) : Prop where
  documented : sheet.documented ⊆ settled.filterMap Settlement.doc?
  orphans : sheet.orphans ⊆ settled.filterMap Settlement.orphan?

theorem Keeps.mono {sheet : Stylesheet} {fewer more : List Settlement}
    (keeps : sheet.Keeps fewer) (within : fewer ⊆ more) : sheet.Keeps more :=
  ⟨List.Subset.trans keeps.documented (List.filterMap_subset _ within),
    List.Subset.trans keeps.orphans (List.filterMap_subset _ within)⟩

theorem Keeps.append {left right : Stylesheet} {settled : List Settlement}
    (first : left.Keeps settled) (second : right.Keeps settled) :
    (left.append right).Keeps settled := by
  constructor
  · rw [documented_append]
    exact List.append_subset.mpr ⟨first.documented, second.documented⟩
  · exact List.append_subset.mpr ⟨first.orphans, second.orphans⟩

/-- What is accounted for is kept, and so is what is kept behind it. -/
theorem Accounts.keeps {sheet : Stylesheet} {pending next : Option Comment}
    {tokens more : List Token}
    (accounts : sheet.Accounts pending tokens next more) :
    sheet.Keeps (unsettled pending tokens) ∧
      ∀ {later : Stylesheet}, later.Keeps (unsettled next more) →
        later.Keeps (unsettled pending tokens) := by
  obtain ⟨-, documented, orphans⟩ := accounts
  constructor
  · constructor
    · rw [documented]
      exact List.subset_append_left _ _
    · exact List.Subset.trans (List.subset_append_left _ _) orphans.symm.subset
  · intro later keeps
    constructor
    · rw [documented]
      exact List.Subset.trans keeps.documented (List.subset_append_right _ _)
    · apply List.Subset.trans keeps.orphans
      exact List.Subset.trans (List.subset_append_right _ _) orphans.symm.subset

theorem Accounts.keeps_append {sheet later : Stylesheet}
    {pending next : Option Comment} {tokens more : List Token}
    (accounts : sheet.Accounts pending tokens next more)
    (keeps : later.Keeps (unsettled next more)) :
    (sheet.append later).Keeps (unsettled pending tokens) :=
  accounts.keeps.1.append (accounts.keeps.2 keeps)

/-- An item around an empty block keeps the comment in front of it, even if it
is an import. -/
theorem begins_ofBlock_empty (pending : Option Comment) (span : Span)
    (head : Head) :
    (ofBlock pending span ⟨[], []⟩ head).Begins ⟨[], []⟩ pending
      (head.isDeclaration true) span.start := by
  cases imports : head.isImport with
  | false => exact begins_ofBlock pending span ⟨[], []⟩ imports
  | true =>
      cases head with
      | importing kind targets =>
          have statement :=
            begins_ofStatement pending span (.importing kind targets)
          exact ⟨statement.declared, statement.documented, statement.orphans⟩
      | style selector => cases imports
      | atRule rule => cases imports
      | including name arguments => cases imports

/-- What is in a block is kept as it is, or dropped. -/
theorem ofBlock_subset (pending : Option Comment) (span : Span)
    (inner : Stylesheet) (head : Head) :
    let shell := ofBlock pending span ⟨[], []⟩ head
    (ofBlock pending span inner head).documented ⊆
      shell.documented ++ inner.documented ∧
      (ofBlock pending span inner head).orphans ⊆
        shell.orphans ++ inner.orphans := by
  intro shell
  cases imports : head.isImport with
  | false =>
      have around := begins_ofBlock pending span ⟨[], []⟩ imports
      have whole := begins_ofBlock pending span inner imports
      constructor
      · rw [whole.documented, around.documented, List.append_assoc]
        exact List.append_subset.mpr ⟨List.subset_append_left _ _,
          List.Subset.trans (List.subset_append_right _ _)
            (List.subset_append_right _ _)⟩
      · apply List.Subset.trans whole.orphans.subset
        apply List.append_subset.mpr
        constructor
        · have kept := around.orphans.symm.subset
          apply List.Subset.trans (List.subset_append_left _ _)
          exact List.Subset.trans kept (List.subset_append_left _ _)
        · exact List.subset_append_right _ _
  | true =>
      cases head with
      | importing kind targets =>
          exact ⟨List.subset_append_left _ _, List.perm_append_comm.subset⟩
      | style selector => cases imports
      | atRule rule => cases imports
      | including name arguments => cases imports

private theorem unsettled_behind_block (inside : List Token) {closing : Token}
    (kind : closing.kind = .closeBrace) (more : List Token) :
    unsettled none more ⊆ unsettled none (inside ++ closing :: more) := by
  obtain ⟨found, later, split⟩ :=
    Token.gather_append Settlement.at? true inside (closing :: more)
  rw [unsettled, unsettled, split, Token.gather_of_ending quiet_at? (.inr kind)]
  exact List.subset_append_right found _

/-- The stylesheet of a block keeps the comments that are settled in front of
the token that ends the block.  The shell of an item accounts for the comment in
front; what is inside and behind is kept by induction. -/
theorem keeps_ofItems {items : List Item} (shaped : Item.Shaped items)
    (pending : Option Comment) {ending : Token}
    (kind : ending.kind = .closeBrace ∨ ending.kind = .endOfInput)
    (back : List Token) :
    (ofItems pending items).Keeps
      (unsettled pending (tokensOf items ++ ending :: back)) := by
  induction shaped generalizing pending ending back with
  | nil =>
      rw [ofItems]
      exact (accounts_trailing pending kind back).keeps.1
  | comment isComment _ ih =>
      rw [tokensOf, Item.tokens, List.singleton_append, List.cons_append,
        ofItems, ofItem]
      exact (accounts_comment pending isComment _).keeps_append (ih _ kind back)
  | separator isSemicolon _ ih =>
      rw [tokensOf, Item.tokens, List.singleton_append, List.cons_append,
        ofItems, ofItem]
      exact (accounts_separator pending isSemicolon _).keeps_append
        (ih _ kind back)
  | @statement head semicolon rest isHead isSemicolon _ ih =>
      rw [tokensOf, Item.tokens, Option.toList_some, List.append_assoc,
        List.append_assoc, List.singleton_append, ofItems, ofItem]
      exact (accounts_terminated pending isHead isSemicolon _).keeps_append
        (ih none kind back)
  | @last head isHead =>
      rw [tokensOf, tokensOf, Item.tokens, ofItems, ofItem, ofItems,
        Option.toList_none, List.append_nil, List.append_nil]
      exact (accounts_unterminated pending isHead kind back).keeps_append
        (accounts_trailing none kind back).keeps.1
  | @block head opening closing items rest before isOpening _ isClosing _
      ihItems ihRest =>
      have flat : tokensOf (.block head opening items closing :: rest) ++
          ending :: back =
          head ++ opening ::
            (tokensOf items ++ closing ::
              (tokensOf rest ++ ending :: back)) := by
        simp [tokensOf, Item.tokens]
      obtain ⟨first, behind, same, begins, enters⟩ :=
        enters_block before isOpening
          (tokensOf items ++ closing :: (tokensOf rest ++ ending :: back))
      rw [flat, same, ofItems, ofItem]
      have start : (Token.runSpan (head ++ [opening, closing])).start =
          first.span.start := by
        apply start_runSpan
        rw [List.append_cons, List.head?_append, begins, Option.some_or]
      have shell := begins_ofBlock_empty pending
        (Token.runSpan (head ++ [opening, closing])) (Head.ofTokens head)
      rw [← enters.declares, start] at shell
      have accounts := shell.accounts enters.isStart (fun _ => enters.passes)
        ⟨rfl, rfl, .refl _⟩
      have inner := accounts.keeps.2 (ihItems none (.inl isClosing) _)
      have later := accounts.keeps.2 ((ihRest none kind back).mono
        (unsettled_behind_block (tokensOf items) isClosing _))
      refine Keeps.append ?_ later
      obtain ⟨documented, orphans⟩ := ofBlock_subset pending
        (Token.runSpan (head ++ [opening, closing])) (ofItems none items)
        (Head.ofTokens head)
      constructor
      · apply List.Subset.trans documented
        exact List.append_subset.mpr
          ⟨accounts.keeps.1.documented, inner.documented⟩
      · apply List.Subset.trans orphans
        exact List.append_subset.mpr ⟨accounts.keeps.1.orphans, inner.orphans⟩

theorem keeps_of_read {source : Text} {sheet : Stylesheet}
    (done : read source = .ok sheet) :
    sheet.Keeps (Settlement.all source) := by
  obtain ⟨items, shaped, rfl, split⟩ := exists_outline_of_read done
  rw [Settlement.all, Token.filterMap_itemPlaces, split]
  exact keeps_ofItems shaped none (.inr rfl) []

/-! ## Comments by their places -/

theorem eq_of_mem_settled {source : Text} {left right : Settlement}
    (first : left ∈ Settlement.all source)
    (second : right ∈ Settlement.all source)
    (same : left.comment.span = right.comment.span) : left = right :=
  List.inj_on_of_nodup_map (nodup_settled source) first second same

private theorem exists_split_of_mem_itemPlaces {front tokens : List Token}
    {place : Token × List Token}
    (member : place ∈ Token.itemPlaces front tokens) :
    ∃ before, tokens = before ++ place.1 :: place.2 := by
  induction tokens generalizing front with
  | nil => exact (List.not_mem_nil member).elim
  | cons token back ih =>
      rw [Token.itemPlaces] at member
      rcases List.mem_append.mp member with here | later
      · split at here
        · rw [List.mem_singleton.mp here]
          exact ⟨[], rfl⟩
        · exact (List.not_mem_nil here).elim
      · obtain ⟨before, rfl⟩ := ih later
        exact ⟨token :: before, rfl⟩

/-- A comment that was settled is one of the tokens, and its fate is that of a
comment there. -/
theorem exists_token_of_mem_settled {source : Text} {settlement : Settlement}
    (member : settlement ∈ Settlement.all source) :
    ∃ front token back content, Token.scan source = front ++ token :: back ∧
      token.kind = .comment settlement.comment.style content ∧
      token.span = settlement.comment.span ∧ settlement.fate =
        .before back := by
  obtain ⟨place, isPlace, found⟩ := List.mem_filterMap.mp member
  obtain ⟨front, split⟩ := exists_split_of_mem_itemPlaces isPlace
  rw [Settlement.at?] at found
  split at found
  · rename_i style content kind
    rw [← Option.some.inj found]
    exact ⟨front, place.1, place.2, content, split, kind, rfl, rfl⟩
  · cases found

/-- A token that covers some text stands at one place only. -/
theorem eq_of_scan_split {source : Text} {front back front' back' : List Token}
    {token token' : Token} (split : Token.scan source = front ++ token :: back)
    (split' : Token.scan source = front' ++ token' :: back')
    (notEnd : token.kind ≠ .endOfInput) (same : token.span = token'.span) :
    token = token' ∧ back = back' := by
  have laid := Token.layout_scan source
  have filled :=
    laid.filled (split ▸ List.mem_append_right _ List.mem_cons_self) notEnd
  have ordered := laid.ordered
  rcases Outline.append_cons_cases (split.symm.trans split') with
    ⟨between, -, behind⟩ | ⟨-, sameToken, sameBack⟩ | ⟨between, -, behind⟩
  · rw [split, behind, List.pairwise_append, List.pairwise_cons] at ordered
    have apart :=
      ordered.2.1.1 token' (List.mem_append_right _ List.mem_cons_self)
    rw [same] at apart filled
    omega
  · exact ⟨sameToken, sameBack⟩
  · rw [split', behind, List.pairwise_append, List.pairwise_cons] at ordered
    have apart :=
      ordered.2.1.1 token (List.mem_append_right _ List.mem_cons_self)
    rw [same] at apart filled
    omega

/-- The comment on a node was settled to document it. -/
theorem mem_settled_of_doc {source : Text} {sheet : Stylesheet}
    (done : read source = .ok sheet) {node : Node}
    (member : node ∈ Node.walkList sheet.nodes) {comment : Comment}
    (documents : comment ∈ node.doc) :
    ⟨comment, .documents node.span.start⟩ ∈ Settlement.all source := by
  have kept : (comment, node.span.start) ∈ sheet.documented := by
    apply List.mem_filterMap.mpr
    refine ⟨node, member, ?_⟩
    rw [Node.documented?, Option.mem_def.mp documents]
    rfl
  obtain ⟨⟨settled, fate⟩, isSettled, found⟩ :=
    List.mem_filterMap.mp ((keeps_of_read done).documented kept)
  cases fate with
  | documents start =>
      obtain ⟨rfl, rfl⟩ := Prod.mk.inj (Option.some.inj found)
      exact isSettled
  | orphaned reason => cases found

/-- An orphan was settled to be one, and is no plain comment unless another
comment follows it. -/
theorem exists_settled_of_orphan {source : Text} {sheet : Stylesheet}
    (done : read source = .ok sheet) {orphan : Orphan}
    (member : orphan ∈ sheet.orphans) :
    ∃ comment, comment.span = orphan.span ∧
      (comment.style = .block → orphan.reason = .superseded) ∧
      ⟨comment, .orphaned orphan.reason⟩ ∈ Settlement.all source := by
  obtain ⟨⟨comment, fate⟩, isSettled, found⟩ :=
    List.mem_filterMap.mp ((keeps_of_read done).orphans member)
  cases fate with
  | documents start => cases found
  | orphaned reason =>
      rw [Settlement.orphan?] at found
      split at found
      · rename_i other
        cases other
      · rename_i reason' same
        obtain rfl := Fate.orphaned.inj same
        split at found
        · cases found
        · rename_i notPlain
          rw [← Option.some.inj found]
          refine ⟨comment, rfl, ?_, isSettled⟩
          intro plain
          by_contra other
          exact notPlain ⟨plain, other⟩

end Stylesheet

end StyleAudit
