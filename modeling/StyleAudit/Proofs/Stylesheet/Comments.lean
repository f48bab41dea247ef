import StyleAudit.Proofs.Outcome
import StyleAudit.Proofs.Stylesheet.Settlement

/-!
# What becomes of the comments

Reading a stylesheet settles the comments where an item can begin in the way
that the tokens tell, each once, and no others.  The induction is over the
outline: the stylesheet of some items accounts for what is settled on the way
over their tokens, with one comment waiting in front and perhaps another one
behind.
-/

namespace StyleAudit

/-! ## Accounts -/

namespace Stylesheet

open Token (gather)

/-- The comments still to be settled in front of the tokens: one that waits, and
those among the tokens. -/
def unsettled (pending : Option Comment) (tokens : List Token) :
    List Settlement :=
  (pending.map fun comment => ⟨comment, .before tokens⟩).toList ++
    gather Settlement.at? true tokens

/-- The stylesheet accounts for all that is settled on the way from the tokens,
with one comment waiting, to the last of the tokens, with another one
waiting. -/
structure Accounts (sheet : Stylesheet) (pending : Option Comment)
    (tokens : List Token) (next : Option Comment) (more : List Token) :
    Prop where
  declared : gather Token.declaredAt? true tokens =
    sheet.declared ++ gather Token.declaredAt? true more
  documented : (unsettled pending tokens).filterMap Settlement.doc? =
    sheet.documented ++ (unsettled next more).filterMap Settlement.doc?
  orphans : ((unsettled pending tokens).filterMap Settlement.orphan?).Perm
    (sheet.orphans ++ (unsettled next more).filterMap Settlement.orphan?)

theorem Accounts.append {left right : Stylesheet}
    {pending next last : Option Comment} {tokens middle more : List Token}
    (first : left.Accounts pending tokens next middle)
    (second : right.Accounts next middle last more) :
    (left.append right).Accounts pending tokens last more := by
  constructor
  · rw [first.declared, second.declared, declared_append, List.append_assoc]
  · rw [first.documented, second.documented, documented_append,
      List.append_assoc]
  · apply first.orphans.trans
    rw [Stylesheet.append, List.append_assoc]
    exact second.orphans.append_left left.orphans

theorem append_empty (sheet : Stylesheet) : sheet.append ⟨[], []⟩ = sheet := by
  rw [append, List.append_nil, List.append_nil]

/-- A comment that is orphaned is accounted for by its orphan. -/
theorem filterMap_orphaned (pending : Option Comment) (reason : OrphanReason) :
    let settled := (pending.map (Settlement.mk · (.orphaned reason))).toList
    settled.filterMap Settlement.doc? = [] ∧
      settled.filterMap Settlement.orphan? =
        Orphan.ofPending reason pending := by
  cases pending with
  | none => exact ⟨rfl, rfl⟩
  | some comment =>
      refine ⟨rfl, ?_⟩
      have opposite : (reason = .superseded ∨ comment.style ≠ .block) ↔
          ¬ (comment.style = .block ∧ reason ≠ .superseded) := by
        tauto
      by_cases plain : comment.style = .block ∧ reason ≠ .superseded
      · simp [Settlement.orphan?, Orphan.ofPending, plain]
      · simp [Settlement.orphan?, Orphan.ofPending, plain, opposite.mpr plain]

theorem accounts_comment (pending : Option Comment) {token : Token}
    {style : CommentStyle} {text : Text}
    (kind : token.kind = .comment style text) (more : List Token) :
    (Stylesheet.mk [] (Orphan.ofPending .superseded pending)).Accounts pending
      (token :: more) (some ⟨style, token.text, token.span⟩) more := by
  have isComment : token.kind.isComment = true := by rw [kind]; rfl
  have undeclared : Token.declaredAt? (token, more) = none := by
    obtain ⟨_, _, _, _⟩ := token
    cases kind
    rfl
  have here : Settlement.at? (token, more) =
      some ⟨⟨style, token.text, token.span⟩, .before more⟩ := by
    simp only [Settlement.at?, kind]
  have split : unsettled pending (token :: more) =
      (pending.map (Settlement.mk · (.orphaned .superseded))).toList ++
        unsettled (some ⟨style, token.text, token.span⟩) more := by
    rw [unsettled, Fate.before_of_comment kind,
      Token.gather_of_comment isComment, here]
    rfl
  obtain ⟨noDoc, orphan⟩ := filterMap_orphaned pending .superseded
  constructor
  · rw [Token.gather_of_comment isComment, undeclared]
    rfl
  · rw [split, List.filterMap_append, noDoc]
    rfl
  · rw [split, List.filterMap_append, orphan]

theorem quiet_declaredAt? : Token.Quiet Token.declaredAt? := by
  intro token back ending
  obtain ⟨kind, span, text, gap⟩ := token
  rcases ending with rfl | rfl | rfl <;> rfl

theorem quiet_at? : Token.Quiet Settlement.at? := by
  intro token back ending
  rcases ending with kind | kind | kind <;> simp only [Settlement.at?, kind]

theorem accounts_separator (pending : Option Comment) {token : Token}
    (kind : token.kind = .semicolon) (more : List Token) :
    (Stylesheet.mk [] []).Accounts pending (token :: more) pending more := by
  have same : unsettled pending (token :: more) = unsettled pending more := by
    rw [unsettled, Fate.before_of_semicolon kind,
      Token.gather_of_ending quiet_at? (.inl kind)]
    rfl
  constructor
  · rw [Token.gather_of_ending quiet_declaredAt? (.inl kind)]
    rfl
  · rw [same]
    rfl
  · rw [same]
    rfl

theorem accounts_trailing (pending : Option Comment) {token : Token}
    (ending : token.kind = .closeBrace ∨ token.kind = .endOfInput)
    (back : List Token) :
    (Stylesheet.mk [] (Orphan.ofPending .trailing pending)).Accounts pending
      (token :: back) none (token :: back) := by
  obtain ⟨noDoc, orphan⟩ := filterMap_orphaned pending .trailing
  have split : unsettled pending (token :: back) =
      (pending.map (Settlement.mk · (.orphaned .trailing))).toList ++
        unsettled none (token :: back) := by
    rw [unsettled, Fate.before_of_ending ending]
    rfl
  constructor
  · rfl
  · rw [split, List.filterMap_append, noDoc]
    rfl
  · rw [split, List.filterMap_append, orphan]

/-! ## Statements and blocks -/

/-- The stylesheet is that of one item around another stylesheet, where it
matters for comments whether the item is a rule or an at-rule. -/
structure Begins (sheet inner : Stylesheet) (pending : Option Comment)
    (declares : Bool) (start : Position) : Prop where
  declared : sheet.declared = (if declares then [start] else []) ++
    inner.declared
  documented : sheet.documented =
    (if declares then (pending.map (·, start)).toList else []) ++
      inner.documented
  orphans : sheet.orphans.Perm
    ((if declares then [] else Orphan.ofPending .notDeclarable pending) ++
      inner.orphans)

theorem declared_node {node : Node} {inner : Stylesheet}
    (walk : node.walk = node :: Node.walkList inner.nodes)
    (orphans : List Orphan) :
    (Stylesheet.mk [node] orphans).declared = node.declaredAt?.toList ++
      inner.declared := by
  rw [declared, Node.walkList_singleton, walk, List.filterMap_cons]
  cases node.declaredAt? <;> rfl

theorem documented_node {node : Node} {inner : Stylesheet}
    (walk : node.walk = node :: Node.walkList inner.nodes)
    (orphans : List Orphan) :
    (Stylesheet.mk [node] orphans).documented = node.documented?.toList ++
      inner.documented := by
  rw [documented, Node.walkList_singleton, walk, List.filterMap_cons]
  cases node.documented? <;> rfl

theorem begins_ofStatement (pending : Option Comment) (span : Span)
    (head : Head) :
    (ofStatement pending span head).Begins ⟨[], []⟩ pending
      (head.isDeclaration false) span.start := by
  have orphans : (Orphan.ofPending .notDeclarable pending).Perm
      (Orphan.ofPending .notDeclarable pending ++ []) := by
    rw [List.append_nil]
  cases head with
  | style selector => exact ⟨rfl, rfl, orphans⟩
  | atRule rule =>
      have walk : (Node.atRule rule pending none span).walk =
          .atRule rule pending none span :: Node.walkList [] := by
        rw [Node.walk, Node.walkList]
      exact ⟨@declared_node _ ⟨[], []⟩ walk _,
        @documented_node _ ⟨[], []⟩ walk _, .refl _⟩
  | importing kind targets =>
      have walk : (Node.importing kind targets span).walk =
          .importing kind targets span :: Node.walkList [] := by
        rw [Node.walk, Node.walkList]
      exact ⟨@declared_node _ ⟨[], []⟩ walk _,
        @documented_node _ ⟨[], []⟩ walk _, orphans⟩
  | including name arguments =>
      have walk : (Node.including name arguments none span).walk =
          .including name arguments none span :: Node.walkList [] := by
        rw [Node.walk, Node.walkList]
      exact ⟨@declared_node _ ⟨[], []⟩ walk _,
        @documented_node _ ⟨[], []⟩ walk _, orphans⟩

theorem begins_ofBlock (pending : Option Comment) (span : Span)
    (inner : Stylesheet) {head : Head} (noImport : head.isImport = false) :
    (ofBlock pending span inner head).Begins inner pending
      (head.isDeclaration true) span.start := by
  cases head with
  | style selector =>
      have walk : (Node.rule selector pending inner.nodes span).walk =
          .rule selector pending inner.nodes span ::
            Node.walkList inner.nodes := by
        rw [Node.walk]
      exact ⟨declared_node walk _, documented_node walk _, .refl _⟩
  | atRule rule =>
      have walk : (Node.atRule rule pending (some inner.nodes) span).walk =
          .atRule rule pending (some inner.nodes) span ::
            Node.walkList inner.nodes := by
        rw [Node.walk]
      exact ⟨declared_node walk _, documented_node walk _, .refl _⟩
  | importing kind targets => cases noImport
  | including name arguments =>
      have walk : (Node.including name arguments (some inner.nodes) span).walk =
          .including name arguments (some inner.nodes) span ::
            Node.walkList inner.nodes := by
        rw [Node.walk]
      exact ⟨declared_node walk _, documented_node walk _,
        List.perm_append_comm⟩

private theorem filterMap_documents (pending : Option Comment)
    (start : Position) :
    let settled := (pending.map (Settlement.mk · (.documents start))).toList
    settled.filterMap Settlement.doc? = (pending.map (·, start)).toList ∧
      settled.filterMap Settlement.orphan? = [] := by
  cases pending <;> exact ⟨rfl, rfl⟩

/-- An item is accounted for, if what it holds is. -/
theorem Begins.accounts {sheet inner : Stylesheet} {pending : Option Comment}
    {first : Token} {rest inside more : List Token}
    (begins : sheet.Begins inner pending
      (Token.startsDeclaration (first :: rest))
      first.span.start)
    (isStart : first.IsStart)
    (passes : ∀ {α : Type} {find : Token × List Token → Option α},
      Token.Quiet find →
      gather find true (first :: rest) = (find (first, rest)).toList ++
        gather find true inside)
    (accounts : inner.Accounts none inside none more) :
    sheet.Accounts pending (first :: rest) none more := by
  have noComment : Settlement.at? (first, rest) = none := by
    have notComment := isStart.notComment
    cases kind : first.kind <;> simp_all [Settlement.at?, Token.Kind.isComment]
  have split : unsettled pending (first :: rest) =
      (pending.map (Settlement.mk · (.before (first :: rest)))).toList ++
        unsettled none inside := by
    rw [unsettled, passes quiet_at?, noComment]
    rfl
  obtain ⟨declared, documented, orphans⟩ := begins
  rw [Fate.before_of_isStart isStart] at split
  cases declares : Token.startsDeclaration (first :: rest) with
  | true =>
      rw [declares] at split declared documented orphans
      obtain ⟨docs, noOrphans⟩ := filterMap_documents pending first.span.start
      constructor
      · rw [passes quiet_declaredAt?, accounts.declared, declared,
          Token.declaredAt?, declares]
        rfl
      · rw [split, List.filterMap_append, accounts.documented, documented,
          List.append_assoc]
        exact congrArg (· ++ _) docs
      · rw [split, List.filterMap_append]
        apply (accounts.orphans.append_left _).trans
        rw [if_pos rfl, noOrphans]
        exact orphans.symm.append_right _
  | false =>
      rw [declares] at split declared documented orphans
      obtain ⟨noDocs, orphaned⟩ := filterMap_orphaned pending .notDeclarable
      constructor
      · rw [passes quiet_declaredAt?, accounts.declared, declared,
          Token.declaredAt?, declares]
        rfl
      · rw [split, List.filterMap_append, accounts.documented, documented,
          List.append_assoc]
        exact congrArg (· ++ _) noDocs
      · rw [split, List.filterMap_append]
        apply (accounts.orphans.append_left _).trans
        rw [if_neg Bool.false_ne_true, orphaned, ← List.append_assoc]
        exact orphans.symm.append_right _

/-! ## Whole outlines -/

open Item (tokensOf)

theorem accounts_closing {token : Token} (kind : token.kind = .closeBrace)
    (more : List Token) :
    (Stylesheet.mk [] []).Accounts none (token :: more) none more := by
  have same : unsettled none (token :: more) = unsettled none more := by
    rw [unsettled, Token.gather_of_ending quiet_at? (.inr kind)]
    rfl
  constructor
  · rw [Token.gather_of_ending quiet_declaredAt? (.inr kind)]
    rfl
  · rw [same]
    rfl
  · rw [same]
    rfl

theorem accounts_statement (pending : Option Comment)
    {head back more : List Token} (isHead : Token.IsHead head)
    (ends : Token.opensBlock back = false) {span : Span}
    (start : ∀ first ∈ head.head?, span.start = first.span.start)
    (passes : ∀ {α : Type} {find : Token × List Token → Option α},
      Token.Quiet find →
      gather find false back = gather find true more) :
    (ofStatement pending span (Head.ofTokens head)).Accounts pending
      (head ++ back) none more := by
  have begins := begins_ofStatement pending span (Head.ofTokens head)
  rw [← ends, ← Head.startsDeclaration_append isHead] at begins
  obtain ⟨first, rest, rfl, notComment⟩ := isHead.begins
  rw [start first rfl] at begins
  have isStart : first.IsStart := by
    refine ⟨notComment, ?_⟩
    rw [isHead.inside first List.mem_cons_self]
    exact nofun
  apply begins.accounts isStart
  · intro α find quiet
    rw [← passes quiet]
    exact Token.gather_head isHead back
  · exact ⟨rfl, rfl, .refl _⟩

theorem start_runSpan {tokens : List Token} {first : Token}
    (begins : tokens.head? = some first) :
    (Token.runSpan tokens).start = first.span.start := by
  obtain ⟨rest, rfl⟩ := List.head?_eq_some_iff.mp begins
  rfl

theorem accounts_terminated (pending : Option Comment) {head : List Token}
    (isHead : Token.IsHead head) {semicolon : Token}
    (isSemicolon : semicolon.kind = .semicolon) (back : List Token) :
    (ofStatement pending (Token.runSpan (head ++ [semicolon]))
      (Head.ofTokens head)).Accounts pending (head ++ semicolon :: back)
        none back := by
  apply accounts_statement pending isHead
  · simp [Token.opensBlock, isSemicolon, Token.Kind.isBoundary]
  · intro first begins
    apply start_runSpan
    rw [List.head?_append, begins, Option.some_or]
  · exact fun _ => Token.gather_of_cut (by rw [isSemicolon]; rfl) _

/-- A statement may also end with its block. -/
theorem accounts_unterminated (pending : Option Comment) {head : List Token}
    (isHead : Token.IsHead head) {ending : Token}
    (kind : ending.kind = .closeBrace ∨ ending.kind = .endOfInput)
    (back : List Token) :
    (ofStatement pending (Token.runSpan head) (Head.ofTokens head)).Accounts
      pending (head ++ ending :: back) none (ending :: back) := by
  apply accounts_statement pending isHead
  · rcases kind with kind | kind <;>
      simp [Token.opensBlock, kind, Token.Kind.isBoundary]
  · intro first begins
    exact start_runSpan begins
  · intro α find quiet
    apply Token.gather_of_nothing
    · rcases kind with kind | kind <;> rw [kind] <;> rfl
    · exact quiet ending back (.inr kind)

/-- Where the import with a block at a place begins, if there is one. -/
def importBlockAt? (place : Token × List Token) : Option Position :=
  if Token.startsImportBlock (place.1 :: place.2) then some place.1.span.start
  else none

theorem quiet_importBlockAt? : Token.Quiet importBlockAt? := by
  intro token back ending
  obtain ⟨kind, span, text, gap⟩ := token
  rcases ending with rfl | rfl | rfl <;> rfl

/-- How the pass goes from the first token of an item into its block. -/
structure Enters (head : Head) (first : Token) (rest inside : List Token) :
    Prop where
  isStart : first.IsStart
  declares : Token.startsDeclaration (first :: rest) = head.isDeclaration true
  imports : Token.startsImportBlock (first :: rest) = head.isImport
  passes : ∀ {α : Type} {find : Token × List Token → Option α},
    gather find true (first :: rest) = (find (first, rest)).toList ++
      gather find true inside

theorem enters_block {head : List Token} {opening : Token}
    (before : head = [] ∨ Token.IsHead head) (kind : opening.kind = .openBrace)
    (inside : List Token) :
    ∃ first rest, head ++ opening :: inside = first :: rest ∧
      (head ++ [opening]).head? = some first ∧
      Enters (Head.ofTokens head) first rest inside := by
  have isCut : opening.kind.isCut = true := by rw [kind]; rfl
  have opens : Token.opensBlock (opening :: inside) = true := by
    simp [Token.opensBlock, kind, Token.Kind.isBoundary]
  rcases before with rfl | isHead
  · refine ⟨opening, inside, rfl, rfl, ?_, ?_, ?_, ?_⟩
    · exact ⟨by rw [kind]; rfl, fun _ => kind⟩
    · obtain ⟨_, _, _, _⟩ := opening
      cases kind
      exact opens
    · obtain ⟨_, _, _, _⟩ := opening
      cases kind
      rfl
    · intro α find
      rw [Token.gather, if_pos rfl, isCut, kind]
      rfl
  · have declares := Head.startsDeclaration_append isHead (opening :: inside)
    have imports := Head.startsImportBlock_append isHead (opening :: inside)
    rw [opens] at declares
    rw [opens, Bool.and_true] at imports
    obtain ⟨first, rest, rfl, notComment⟩ := isHead.begins
    refine ⟨first, rest ++ opening :: inside, rfl, rfl, ?_, declares,
      imports, ?_⟩
    · refine ⟨notComment, ?_⟩
      rw [isHead.inside first List.mem_cons_self]
      intro cut
      cases cut
    · intro α find
      rw [← Token.gather_of_cut isCut inside]
      exact Token.gather_head isHead (opening :: inside)

/-- The stylesheet of a block accounts for the comments in front of the token
that ends the block. -/
theorem accounts_ofItems {items : List Item} (shaped : Item.Shaped items)
    (pending : Option Comment) {ending : Token}
    (kind : ending.kind = .closeBrace ∨ ending.kind = .endOfInput)
    (back : List Token)
    (free : gather importBlockAt? true (tokensOf items ++ ending :: back) =
      []) :
    (ofItems pending items).Accounts pending (tokensOf items ++ ending :: back)
      none (ending :: back) := by
  induction shaped generalizing pending ending back with
  | nil =>
      rw [ofItems]
      exact accounts_trailing pending kind back
  | comment isComment _ ih =>
      rw [tokensOf, Item.tokens, List.singleton_append, List.cons_append]
        at free ⊢
      rw [ofItems, ofItem]
      apply (accounts_comment pending isComment _).append
      apply ih _ kind
      rw [Token.gather_of_comment (by rw [isComment]; rfl)] at free
      exact (List.append_eq_nil_iff.mp free).2
  | separator isSemicolon _ ih =>
      rw [tokensOf, Item.tokens, List.singleton_append, List.cons_append]
        at free ⊢
      rw [ofItems, ofItem]
      apply (accounts_separator pending isSemicolon _).append
      apply ih _ kind
      rwa [Token.gather_of_ending quiet_importBlockAt? (.inl isSemicolon)]
        at free
  | @statement head semicolon rest isHead isSemicolon _ ih =>
      have isCut : semicolon.kind.isCut = true := by rw [isSemicolon]; rfl
      rw [tokensOf, Item.tokens, Option.toList_some, List.append_assoc,
        List.append_assoc, List.singleton_append] at free ⊢
      rw [ofItems, ofItem]
      apply (accounts_terminated pending isHead isSemicolon _).append
      apply ih none kind
      obtain ⟨first, behind, rfl, _⟩ := isHead.begins
      rw [Token.gather_head isHead, Token.gather_of_cut isCut] at free
      exact (List.append_eq_nil_iff.mp free).2
  | @last head isHead =>
      rw [tokensOf, tokensOf, Item.tokens, ofItems, ofItem, ofItems,
        Option.toList_none, List.append_nil, List.append_nil]
      exact (accounts_unterminated pending isHead kind back).append
        (accounts_trailing none kind back)
  | @block head opening closing items rest before isOpening _ isClosing _
      ihItems ihRest =>
      have flat : tokensOf (.block head opening items closing :: rest) ++
          ending :: back =
          head ++ opening ::
            (tokensOf items ++ closing ::
              (tokensOf rest ++ ending :: back)) := by
        simp [tokensOf, Item.tokens]
      obtain ⟨first, behind, same, begins, enters⟩ :=
        enters_block before isOpening
          (tokensOf items ++ closing :: (tokensOf rest ++ ending :: back))
      rw [flat, same] at free ⊢
      rw [enters.passes] at free
      obtain ⟨notHere, freeInside⟩ := List.append_eq_nil_iff.mp free
      rw [ofItems, ofItem]
      apply Accounts.append
      · have noImport : (Head.ofTokens head).isImport = false := by
          rw [← enters.imports]
          by_contra isImport
          rw [importBlockAt?, if_pos (eq_true_of_ne_false isImport)] at notHere
          cases notHere
        have start : (Token.runSpan (head ++ [opening, closing])).start =
            first.span.start := by
          apply start_runSpan
          rw [List.append_cons, List.head?_append, begins, Option.some_or]
        have item :=
          begins_ofBlock pending (Token.runSpan (head ++ [opening, closing]))
            (ofItems none items) noImport
        rw [← enters.declares, start] at item
        have inner := (ihItems none (.inl isClosing) _ freeInside).append
          (accounts_closing isClosing _)
        rw [append_empty] at inner
        exact item.accounts enters.isStart (fun _ => enters.passes) inner
      · apply ihRest none kind
        obtain ⟨found, atItem, split⟩ :=
          Token.gather_append importBlockAt? true (tokensOf items)
            (closing :: (tokensOf rest ++ ending :: back))
        rw [split, Token.gather_of_ending quiet_importBlockAt? (.inr isClosing)]
          at freeInside
        exact (List.append_eq_nil_iff.mp freeInside).2

/-! ## No comment is settled twice -/

private theorem map_fst_itemPlaces (front tokens : List Token) :
    ((Token.itemPlaces front tokens).map Prod.fst).Sublist tokens := by
  induction tokens generalizing front with
  | nil => exact .slnil
  | cons token back ih =>
      rw [Token.itemPlaces, List.map_append]
      have later := ih (front ++ [token])
      split
      · exact later.cons_cons token
      · exact later.cons token

theorem filterMap_sublist_filter {α β γ : Type} {find : α → Option β}
    {key : α → γ} {keyOf : β → γ} {test : α → Bool}
    (found : ∀ a b, find a = some b → test a = true ∧ keyOf b = key a)
    (list : List α) :
    ((list.filterMap find).map keyOf).Sublist ((list.filter test).map key) := by
  induction list with
  | nil => exact .slnil
  | cons a rest ih =>
      cases here : find a with
      | none =>
          rw [List.filterMap_cons_none here]
          exact ih.trans (((List.sublist_cons_self a rest).filter test).map key)
      | some b =>
          obtain ⟨passes, same⟩ := found a b here
          rw [List.filterMap_cons_some here, List.filter_cons_of_pos passes,
            List.map_cons, List.map_cons, same]
          exact ih.cons_cons _

theorem nodup_settled (source : Text) :
    (((Token.itemPlaces [] (Token.scan source)).filterMap Settlement.at?).map
      (·.comment.span)).Nodup := by
  have inside := map_fst_itemPlaces [] (Token.scan source)
  have ordered := (Token.layout_scan source).ordered.sublist inside
  rw [List.pairwise_map] at ordered
  rw [List.Nodup, List.pairwise_map, List.pairwise_filterMap]
  apply ordered.imp_of_mem
  intro left right memberLeft _ apart first isFirst second isSecond same
  have taken : left.1 ∈ Token.scan source :=
    inside.subset (List.mem_map_of_mem memberLeft)
  have spans : ∀ {place : Token × List Token} {settled : Settlement},
      Settlement.at? place = some settled →
        place.1.kind ≠ .endOfInput ∧ settled.comment.span = place.1.span := by
    intro place settled found
    rw [Settlement.at?] at found
    split at found
    · rename_i kind
      rw [← Option.some.inj found]
      exact ⟨by rw [kind]; exact nofun, rfl⟩
    · cases found
  obtain ⟨notEnd, spanLeft⟩ := spans isFirst
  have filled := (Token.layout_scan source).filled taken notEnd
  rw [spanLeft, (spans isSecond).2] at same
  rw [same] at apart filled
  omega

/-- What documents something is no orphan. -/
theorem nodup_docs_append_orphans {settled : List Settlement}
    (distinct : (settled.map (·.comment.span)).Nodup) :
    ((settled.filterMap Settlement.doc?).map (·.1.span) ++
      (settled.filterMap Settlement.orphan?).map (·.span)).Nodup := by
  have isDoc : ∀ (settlement : Settlement) (doc : Comment × Position),
      settlement.doc? = some doc →
        settlement.doc?.isSome = true ∧
          doc.1.span = settlement.comment.span := by
    intro settlement doc found
    rw [found]
    rw [Settlement.doc?] at found
    split at found
    · rw [← Option.some.inj found]
      exact ⟨rfl, rfl⟩
    · cases found
  have isOrphan : ∀ (settlement : Settlement) (orphan : Orphan),
      settlement.orphan? = some orphan →
        (!settlement.doc?.isSome) = true ∧
          orphan.span = settlement.comment.span := by
    intro settlement orphan found
    rw [Settlement.orphan?] at found
    split at found
    · cases found
    · rename_i kind
      split at found
      · cases found
      · rw [← Option.some.inj found, Settlement.doc?, kind]
        exact ⟨rfl, rfl⟩
  have docs := filterMap_sublist_filter isDoc settled
  have orphans := filterMap_sublist_filter isOrphan settled
  apply (docs.append orphans).nodup
  rw [← List.map_append]
  exact ((List.filter_append_perm _ settled).map _).nodup_iff.mpr distinct

/-- What is read comes from an outline that holds the tokens in front of the
end. -/
theorem exists_outline_of_read {source : Text} {sheet : Stylesheet}
    (done : read source = .ok sheet) :
    ∃ items, Item.Shaped items ∧ sheet = ofItems none items ∧
      Token.scan source =
        tokensOf items ++ [Token.endAt (Position.first.advance source)] := by
  rcases Outline.ofTokens_cases (Token.scan source) with
    ⟨items, outline, -⟩ | ⟨flaw, token, stopped, -⟩
  · refine ⟨items, Outline.shaped_ofTokens outline, ?_, ?_⟩
    · rw [read, parse, outline] at done
      exact (Except.ok.inj done).symm
    · obtain ⟨others, split, marked⟩ := (Token.layout_scan source).ended
      have kept : others.filter (·.kind != .endOfInput) = others := by
        rw [List.filter_eq_self]
        intro token member
        exact bne_iff_ne.mpr (marked token member)
      have held : tokensOf items = others := by
        rw [Outline.tokensOf_ofTokens outline, split, List.filter_append, kept]
        exact List.append_nil others
      rw [held, split]
  · rw [read_of_ofTokens_error stopped] at done
    cases done

/-- Reading a stylesheet in which no import has a block settles the comments
where an item can begin, as the tokens behind them tell, and no others.  Rules
and at-rules begin where the tokens say; the comments that document one are
those in front of it, in order; the orphans are the other comments, each with
its reason; and no comment comes up twice. -/
theorem comments_settled {source : Text} {sheet : Stylesheet}
    (done : read source = .ok sheet)
    (free : ∀ place ∈ Token.itemPlaces [] (Token.scan source),
      Token.startsImportBlock (place.1 :: place.2) = false) :
    let places := Token.itemPlaces [] (Token.scan source)
    let settled := places.filterMap Settlement.at?
    sheet.declared = places.filterMap Token.declaredAt? ∧
      sheet.documented = settled.filterMap Settlement.doc? ∧
      sheet.orphans.Perm (settled.filterMap Settlement.orphan?) ∧
      (sheet.documented.map (·.1.span) ++
        sheet.orphans.map (·.span)).Nodup := by
  intro places settled
  have accounts : sheet.Accounts none (Token.scan source) none
      [Token.endAt (Position.first.advance source)] := by
    have noImport : gather importBlockAt? true (Token.scan source) = [] := by
      apply (Token.filterMap_itemPlaces importBlockAt? []
        (Token.scan source)).symm.trans
      rw [List.filterMap_eq_nil_iff]
      intro place member
      rw [importBlockAt?, free place member]
      rfl
    obtain ⟨items, shaped, rfl, split⟩ := exists_outline_of_read done
    rw [split] at noImport ⊢
    exact accounts_ofItems shaped none (.inr rfl) [] noImport
  have nothing : unsettled none [Token.endAt (Position.first.advance source)] =
      [] := rfl
  have all : unsettled none (Token.scan source) = settled :=
    (Token.filterMap_itemPlaces Settlement.at? [] (Token.scan source)).symm
  have declared : sheet.declared = places.filterMap Token.declaredAt? := by
    rw [Token.filterMap_itemPlaces]
    exact (accounts.declared.trans (List.append_nil _)).symm
  have documented : sheet.documented = settled.filterMap Settlement.doc? := by
    have found := accounts.documented
    rwa [all, nothing, List.filterMap_nil, List.append_nil, eq_comm] at found
  have orphans : sheet.orphans.Perm (settled.filterMap Settlement.orphan?) := by
    have found := accounts.orphans
    rw [all, nothing, List.filterMap_nil, List.append_nil] at found
    exact found.symm
  refine ⟨declared, documented, orphans, ?_⟩
  rw [documented, ((orphans.map _).append_left _).nodup_iff]
  exact nodup_docs_append_orphans (nodup_settled source)

/-- A comment that another one follows, one for a rule, one inside its head, one
in front of a property, a plain one at the end of a block, and one in front of
an include. -/
theorem comments_settled_card :
    let source :=
      "/*a*//**b*/.c/*x*/\x7b/**d*/e:f;/*g*/\x7d/**h*/@include i;".toList
    ∃ sheet, read source = .ok sheet ∧
      (∀ place ∈ Token.itemPlaces [] (Token.scan source),
        Token.startsImportBlock (place.1 :: place.2) = false) ∧
      sheet.declared = [⟨11, 1, 12⟩] ∧
      sheet.documented =
        [(⟨.doc, "/**b*/".toList, ⟨⟨5, 1, 6⟩, ⟨11, 1, 12⟩⟩⟩, ⟨11, 1, 12⟩)] ∧
      sheet.orphans.Perm
        [⟨⟨⟨0, 1, 1⟩, ⟨5, 1, 6⟩⟩, .superseded⟩,
          ⟨⟨⟨19, 1, 20⟩, ⟨25, 1, 26⟩⟩, .notDeclarable⟩,
          ⟨⟨⟨35, 1, 36⟩, ⟨41, 1, 42⟩⟩, .notDeclarable⟩] := by
  intro source
  obtain ⟨sheet, done⟩ : ∃ sheet, read source = .ok sheet :=
    exists_of_isOk (by decide +kernel)
  have free : ∀ place ∈ Token.itemPlaces [] (Token.scan source),
      Token.startsImportBlock (place.1 :: place.2) = false := by
    decide +kernel
  obtain ⟨declared, documented, orphans, -⟩ := comments_settled done free
  refine ⟨sheet, done, free, declared.trans ?_, documented.trans ?_, ?_⟩
  · decide +kernel
  · decide +kernel
  · apply orphans.trans
    apply List.Perm.of_eq
    decide +kernel

end Stylesheet

end StyleAudit
