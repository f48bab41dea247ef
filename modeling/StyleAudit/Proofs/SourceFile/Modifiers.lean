import StyleAudit.Proofs.Conformance.Members
import StyleAudit.Proofs.SourceFile.Credited
import StyleAudit.Proofs.Text.Doubles

/-!
# Modifiers that rules add

A rule for a modifier is a declaration inside of the one whose block it lies in,
with the name of that one in front of its own.  The modifier is what stands
behind the last double hyphen, whatever the name in front.  If the block is a
later one for a class, it is a part of the first declaration of this class, so
the modifier counts there as well.
-/

namespace StyleAudit

/-! ## Names -/

namespace Declaration

private theorem beforeHyphens?_cons {c : Char} {rest : Text}
    (single : ¬ (c = '-' ∧ ['-'] <+: rest)) :
    beforeHyphens? (c :: rest) = (beforeHyphens? rest).map (c :: ·) := by
  rw [beforeHyphens?.eq_def]
  split
  · rename_i behind same
    obtain ⟨rfl, rfl⟩ := List.cons.inj same
    exact (single ⟨rfl, List.cons_prefix_cons.mpr ⟨rfl, List.nil_prefix⟩⟩).elim
  · rename_i empty
    cases empty
  · rename_i other behind _ same
    obtain ⟨rfl, rfl⟩ := List.cons.inj same
    rfl

private theorem beforeHyphens?_append {front : Text}
    (undoubled : Text.Undoubled '-' (front ++ ['-'])) (back : Text) :
    beforeHyphens? (front ++ '-' :: '-' :: back) = some front := by
  induction front with
  | nil => rfl
  | cons c front ih =>
      rw [List.cons_append] at undoubled ⊢
      have single : ¬ (c = '-' ∧ ['-'] <+: front ++ '-' :: '-' :: back) := by
        rintro ⟨rfl, begins⟩
        refine undoubled
          (List.IsPrefix.isInfix (List.cons_prefix_cons.mpr ⟨rfl, ?_⟩))
        cases front with
        | nil => exact List.prefix_refl _
        | cons d front =>
            have same := (List.cons_prefix_cons.mp begins).1
            exact List.cons_prefix_cons.mpr ⟨same, List.nil_prefix⟩
      rw [beforeHyphens?_cons single,
        ih (undoubled.of_isInfix (List.suffix_cons c _).isInfix),
        Option.map_some]

/-- A modifier without hyphens that could be taken for a mark is found behind
any name. -/
theorem modifierPart?_append {modifier : Text}
    (undoubled : Text.Undoubled '-' modifier) (single : ¬ ['-'] <+: modifier)
    (outer : Text) :
    modifierPart? (outer ++ '-' :: '-' :: modifier) = some modifier := by
  have marked : Text.Undoubled '-' ([] ++ '-' :: modifier) :=
    undoubled.append_cons List.not_mem_nil single
  have backwards : Text.Undoubled '-' (modifier.reverse ++ ['-']) := by
    intro doubled
    rw [← List.reverse_cons] at doubled
    exact marked (List.reverse_infix.mp doubled)
  have reversed : (outer ++ '-' :: '-' :: modifier).reverse =
      modifier.reverse ++ '-' :: '-' :: outer.reverse := by
    simp
  rw [modifierPart?, reversed, beforeHyphens?_append backwards, Option.map_some,
    List.reverse_reverse]

end Declaration

theorem Selector.suffix?_of_modifier {rest : Text}
    (filled : Text.nameRun rest ≠ []) :
    suffix? ('&' :: '-' :: '-' :: rest) =
      some (.modifier (Text.nameRun rest)) := by
  have notElement : Text.dropFront? ['&', '_', '_']
      ('&' :: '-' :: '-' :: rest) = none := rfl
  have isModifier : Text.dropFront? ['&', '-', '-']
      ('&' :: '-' :: '-' :: rest) = some rest := rfl
  rw [suffix?, notElement, isModifier, Option.bind_some, partAt?,
    if_neg (by rw [List.isEmpty_iff]; exact filled)]
  rfl

/-! ## Rules in a block -/

namespace Node

/-- The node is directly in a block, or in an at-rule or an include that lies in
it. -/
inductive LiesIn (node : Node) : List Node → Prop
  | direct {block : List Node} (member : node ∈ block) : LiesIn node block
  | inside {block : List Node} {outer : Node} (member : outer ∈ block)
      (noRule : outer.isRule = false) (deeper : LiesIn node outer.children) :
        LiesIn node block

/-- The rule extends the name of the rule around it by a modifier, and no doc
comment gives it another name.  The modifier reaches as far as it can, and its
hyphens do not look like a mark. -/
structure AddsModifier (rule : Node) (modifier : Text) : Prop where
  unnamed : ∀ comment ∈ rule.doc, (Doc.extract comment.text).block.name = none
  selector : ∃ rest, rule.selector = '&' :: '-' :: '-' :: rest ∧
    Text.nameRun rest = modifier
  filled : modifier ≠ []
  undoubled : Text.Undoubled '-' modifier
  single : ¬ ['-'] <+: modifier

theorem AddsModifier.isRule {rule : Node} {modifier : Text}
    (adds : rule.AddsModifier modifier) :
    rule.isRule = true := by
  obtain ⟨rest, selector, -⟩ := adds.selector
  cases rule with
  | rule selector doc children span => rfl
  | atRule rule doc body span => cases selector
  | importing kind targets span => cases selector
  | including name arguments body span => cases selector

end Node

namespace SourceFile

variable {file : Text}

theorem children_blockContents (name : Text) (kind : DeclarationKind)
    (nodes : List Node) :
    (blockContents file name kind nodes).children =
      nodes.flatMap fun node =>
        (nodeContents file name kind node).children := by
  induction nodes with
  | nil => rw [blockContents, List.flatMap_nil]
  | cons node rest ih =>
      rw [blockContents, Contents.append, ih, List.flatMap_cons]

private theorem children_nodeContents (name : Text) (kind : DeclarationKind)
    {node : Node} (noRule : node.isRule = false) :
    (nodeContents file name kind node).children =
      (blockContents file name kind node.children).children := by
  cases node with
  | rule selector doc children span => cases noRule
  | atRule rule doc body span =>
      cases body with
      | none =>
          rw [nodeContents, Node.children, Option.getD_none, blockContents]
      | some body => rw [nodeContents, Node.children, Option.getD_some]
  | importing loads targets span =>
      rw [nodeContents, Node.children, blockContents]
  | including included arguments body span =>
      cases body with
      | none =>
          rw [nodeContents, Node.children, Option.getD_none, blockContents,
            Contents.ofInclude]
      | some body =>
          rw [nodeContents, Node.children, Option.getD_some, Contents.append,
            Contents.ofInclude, List.nil_append]

private theorem exists_child_of_isRule (name : Text) (kind : DeclarationKind)
    {rule : Node} (isRule : rule.isRule = true) :
    ∃ child ∈ (nodeContents file name kind rule).children,
      child.name = childName name rule.selector
          (rule.doc.map fun comment => (Doc.extract comment.text).block) ∧
        child.nesting = nestingOf rule.selector := by
  cases rule with
  | rule selector comment children span =>
      rw [nodeContents]
      exact ⟨_, List.mem_singleton_self _,
        congrArg (childName name selector) (readDoc_fst file comment), rfl⟩
  | atRule rule doc body span => cases isRule
  | importing loads targets span => cases isRule
  | including included arguments body span => cases isRule

/-- A rule in a block is declared directly inside the declaration of the
block. -/
theorem exists_child_of_liesIn (name : Text) (kind : DeclarationKind)
    {rule : Node} (isRule : rule.isRule = true) {block : List Node}
    (liesIn : rule.LiesIn block) :
    ∃ child ∈ (blockContents file name kind block).children,
      child.name = childName name rule.selector
          (rule.doc.map fun comment => (Doc.extract comment.text).block) ∧
        child.nesting = nestingOf rule.selector := by
  rw [children_blockContents]
  induction liesIn with
  | direct member =>
      obtain ⟨child, isChild, named⟩ := exists_child_of_isRule name kind isRule
      exact ⟨child, List.mem_flatMap.mpr ⟨rule, member, isChild⟩, named⟩
  | inside member noRule _ ih =>
      obtain ⟨child, isChild, named⟩ := ih
      refine ⟨child, List.mem_flatMap.mpr ⟨_, member, ?_⟩, named⟩
      rw [children_nodeContents name kind noRule, children_blockContents]
      exact isChild

theorem exists_child_of_addsModifier (name : Text) (kind : DeclarationKind)
    {rule : Node} {modifier : Text} (adds : rule.AddsModifier modifier)
    {block : List Node} (liesIn : rule.LiesIn block) :
    ∃ child ∈ (blockContents file name kind block).children,
      child.ownModifier? = some modifier := by
  obtain ⟨child, isChild, named, nesting⟩ :=
    exists_child_of_liesIn name kind adds.isRule liesIn
  obtain ⟨rest, selector, rfl⟩ := adds.selector
  have suffix := Selector.suffix?_of_modifier adds.filled
  have unnamed :
      (rule.doc.map fun comment => (Doc.extract comment.text).block).bind
        (·.name) =
      none := by
    cases documented : rule.doc with
    | none => rfl
    | some comment => exact adds.unnamed comment documented
  have isModifier : child.nesting = .modifier := by
    rw [nesting, selector, nestingOf, suffix]
  have joined : child.name = name ++ '-' :: '-' :: Text.nameRun rest := by
    rw [named, selector, childName, unnamed, suffix]
    rfl
  refine ⟨child, isChild, ?_⟩
  rw [Declaration.ownModifier?, if_pos isModifier, joined,
    Declaration.modifierPart?_append adds.undoubled adds.single]

/-! ## Later blocks -/

/-- The rule stands at the top and is a later block of a declaration: it has no
doc comment and is for the class that the declaration is the first rule to
declare. -/
structure Reopens (nodes : List Node) (declarations : List Declaration)
    (node : Node) (top : Declaration) : Prop where
  standing : node ∈ Node.standingList nodes
  named : node.plainClass? = some top.name
  first : declarations.find? (isReopenedBy top.name) = some top
  later : top.location.span.start.offset < node.span.start.offset

theorem find?_replaced {α : Type} {p : α → Bool} {front back : List α}
    {old new found : α} (same : p new = p old)
    (isFound : (front ++ new :: back).find? p = some found) :
    (front ++ old :: back).find? p = some found ∨
      found = new ∧ (front ++ old :: back).find? p = some old := by
  rw [List.find?_append, List.find?_cons] at isFound ⊢
  cases inFront : front.find? p with
  | some first =>
      rw [inFront] at isFound
      exact .inl isFound
  | none =>
      rw [inFront, Option.none_or, same] at isFound
      cases holds : p old with
      | true =>
          rw [holds] at isFound
          exact .inr ⟨(Option.some.inj isFound).symm, rfl⟩
      | false =>
          rw [holds] at isFound
          exact .inl isFound

/-- The declaration has the block of a node, or is declared by a later one. -/
def HasOrFollows (file : Text) (nodes : List Node) (node : Node)
    (declaration : Declaration) : Prop :=
  declaration.HasBlockOf file node ∨
    ∃ own, declaration.location = ⟨file, own.span⟩ ∧ [node, own].Sublist nodes

section Later

variable {nodes : List Node} {declarations : List Declaration} {node : Node}
  {declaration : Declaration}

theorem HasOrFollows.append (holds : HasOrFollows file nodes node declaration)
    (more : List Node) :
    HasOrFollows file (nodes ++ more) node declaration := by
  rcases holds with has | ⟨own, place, ordered⟩
  · exact .inl has
  · exact .inr ⟨own, place, ordered.trans (List.sublist_append_left nodes more)⟩

theorem HasOrFollows.reopenedBy
    (holds : HasOrFollows file nodes node declaration) (selector : Text)
    (block : List Node) (span : Span) :
    HasOrFollows file nodes node
      (declaration.reopenedBy file selector block span) := by
  rcases holds with (own | ⟨part, isPart, isBlock⟩) | follows
  · exact .inl (.inl own)
  · exact .inl (.inr ⟨part, List.mem_append_left _ isPart, isBlock⟩)
  · exact .inr follows

/-- The first rule that is declared for a class has all blocks for it without a
doc comment, apart from those in front of it. -/
theorem Made.hasOrFollows (made : Made file nodes declarations)
    (member : node ∈ nodes) {name : Text} (named : node.plainClass? = some name)
    (isFirst : declarations.find? (isReopenedBy name) = some declaration) :
    HasOrFollows file nodes node declaration := by
  induction made generalizing declaration with
  | nil => exact (List.not_mem_nil member).elim
  | @declare nodes declarations last new _ declares _ fresh ih =>
      have location : new.location = ⟨file, last.span⟩ :=
        congrArg Prod.fst declares.origin
      have isNew (unfound : declarations.find? (isReopenedBy name) = none) :
          declaration = new := by
        rw [List.find?_append, unfound, Option.none_or] at isFirst
        exact List.mem_singleton.mp (List.mem_of_find?_eq_some isFirst)
      rcases List.mem_append.mp member with old | isLast
      · cases found : declarations.find? (isReopenedBy name) with
        | none =>
            refine .inr ⟨last, isNew found ▸ location, ?_⟩
            exact (List.singleton_sublist.mpr old).append
              (List.Sublist.refl [last])
        | some other =>
            rw [List.find?_append, found, Option.some_or] at isFirst
            exact (ih old (found.trans isFirst)).append [last]
      · obtain rfl := List.mem_singleton.mp isLast
        obtain rfl := isNew (List.find?_eq_none.mpr fun earlier isEarlier =>
          ne_true_of_eq_false (fresh name named earlier isEarlier))
        refine .inl (.inl ⟨?_, location⟩)
        rw [declares.root]
        exact Nesting.noConfusion
  | @reopen nodes front back earlier selector block span _ isName isRule
      others ih =>
      have kept : isReopenedBy name
          (earlier.reopenedBy file selector block span) =
          isReopenedBy name earlier := rfl
      rcases List.mem_append.mp member with old | isLast
      · rcases find?_replaced kept isFirst with found | ⟨rfl, found⟩
        · exact (ih old found).append _
        · exact ((ih old found).append _).reopenedBy selector block span
      · obtain rfl := List.mem_singleton.mp isLast
        obtain rfl : earlier.name = name :=
          Option.some.inj (isName.symm.trans named)
        have unfound : front.find? (isReopenedBy earlier.name) = none :=
          List.find?_eq_none.mpr fun other inFront =>
            ne_true_of_eq_false (others other inFront)
        rw [List.find?_append, unfound, Option.none_or, List.find?_cons_of_pos
          (kept.trans (isReopenedBy_iff.mpr ⟨rfl, isRule⟩))] at isFirst
        obtain rfl := Option.some.inj isFirst
        exact .inl
          (.inr
            ⟨_, List.mem_append_right _ (List.mem_singleton_self _), rfl, rfl⟩)

/-- A declaration has the later blocks that reopen it. -/
theorem Reopens.hasBlockOf
    (reopens : Reopens nodes declarations node declaration)
    (made : Made file (Node.tops nodes) declarations)
    (ascend : (Node.walkList nodes).Pairwise fun left right =>
      left.span.start.offset < right.span.start.offset) :
    declaration.HasBlockOf file node := by
  have isTop : node ∈ Node.tops nodes :=
    List.mem_filter.mpr
      ⟨reopens.standing, Node.isDeclarable_of_plainClass? reopens.named⟩
  rcases made.hasOrFollows isTop reopens.named reopens.first with
    has | ⟨own, place, ordered⟩
  · exact has
  · have inOrder := ascend.sublist (ordered.trans (Node.tops_sublist nodes))
    have before := List.rel_of_pairwise_cons inOrder List.mem_cons_self
    have behind := reopens.later
    rw [place] at behind
    exact (Nat.lt_asymm before behind).elim

end Later

theorem MadeFrom.mem_blockChildren {own : Node} {later : List Node}
    {top : Declaration} (madeFrom : MadeFrom file own later top) {node : Node}
    (isBlock : node ∈ own :: later) {child : Declaration}
    (isChild : child ∈
      (blockContents file top.name top.kind node.children).children) :
    child ∈ top.blockChildren := by
  rw [Declaration.blockChildren, List.mem_append]
  rcases List.mem_cons.mp isBlock with rfl | isLater
  · rw [madeFrom.children]
    exact .inl (List.mem_append_left _ isChild)
  · refine .inr
      (List.mem_flatMap.mpr
        ⟨_, List.mem_filter.mpr ⟨madeFrom.part_mem isLater, ?_⟩,
      isChild⟩)
    exact decide_eq_true rfl

/-- What is declared in a block of a declaration at the top counts as directly
inside it. -/
theorem Made.mem_blockChildren {nodes : List Node}
    {declarations : List Declaration}
    (made : Made file (Node.tops nodes) declarations)
    (distinct : ((Node.walkList nodes).map Node.span).Nodup) {top : Declaration}
    (isTop : top ∈ declarations) {block : Node}
    (walked : block ∈ Node.walkList nodes) (has : top.HasBlockOf file block)
    {child : Declaration}
    (isChild : child ∈
      (blockContents file top.name top.kind block.children).children) :
    child ∈ top.blockChildren := by
  obtain ⟨own, later, ordered, madeFrom⟩ := made.exists_madeFrom isTop
  obtain ⟨other, isBlock, spans⟩ :=
    List.mem_map.mp ((madeFrom.gathers.hasBlockOf_iff block).mp has)
  have walkedOther := (ordered.trans (Node.tops_sublist nodes)).subset isBlock
  obtain rfl := List.inj_on_of_nodup_map distinct walkedOther walked spans
  exact madeFrom.mem_blockChildren isBlock isChild

/-! ## The whole file -/

/-- Let a rule for a modifier lie in the block of a declaration at the top of a
file, or in a later block that reopens the declaration, with at-rules and
includes in between or not.  Then the modifier is one of the declaration, and if
the declaration implements an interface, this modifier is never reported as
missing. -/
theorem structural_modifiers_count {id text : Text} {reading : Reading}
    (done : read id text = .ok reading) :
    ∃ sheet, Stylesheet.read text = .ok sheet ∧
      ∀ top ∈ reading.file.declarations, ∀ block ∈ Node.walkList sheet.nodes,
        (top.location = ⟨id, block.span⟩ ∨
          Reopens sheet.nodes reading.file.declarations block top) →
        ∀ (rule : Node) (modifier : Text), rule.LiesIn block.children →
          rule.AddsModifier modifier →
          modifier ∈ top.modifierNames ∧
            ∀ settings registry doc name interface interfaceDoc,
              Conformance.Implements registry top doc name interface
                interfaceDoc →
              Conformance.missingModifier top interface name modifier ∉
                Conformance.check settings registry top := by
  obtain ⟨sheet, parsed, rfl⟩ := exists_sheet_of_read done
  have made := made_ofStylesheet id text sheet
  refine ⟨sheet, parsed, ?_⟩
  intro top isTop block walked isBlock rule modifier liesIn adds
  have has : top.HasBlockOf id block := by
    rcases isBlock with place | reopens
    · obtain ⟨own, later, -, madeFrom⟩ := made.exists_madeFrom isTop
      refine .inl ⟨?_, place⟩
      rw [madeFrom.root]
      exact Nesting.noConfusion
    · exact reopens.hasBlockOf made (Stylesheet.starts_ascend_of_read parsed)
  obtain ⟨child, isChild, isModifier⟩ :=
    exists_child_of_addsModifier top.name top.kind adds liesIn
  have inBlock := made.mem_blockChildren (Stylesheet.nodup_spans_of_read parsed)
    isTop walked has isChild
  have present : modifier ∈ top.modifierNames :=
    Declaration.mem_modifierNames_iff.mpr
      (.inr (List.mem_filterMap.mpr ⟨child, inBlock, isModifier⟩))
  refine ⟨present, ?_⟩
  intro settings registry doc name interface interfaceDoc implements
  exact implements.missingModifier_not_mem_check present

/-- The modifier is added from an include, in a later block that is in a
conditional at-rule. -/
theorem structural_modifiers_count_reopened :
    let source :=
      (".c-a\x7b\x7d@media x\x7b.c-a:b\x7b@include m\x7b/** Less. */&--c-d:e" ++
      "\x7b\x7d\x7d\x7d\x7d").toList
    let rule : Node := .rule "&--c-d:e".toList
      (some ⟨.doc, "/** Less. */".toList, ⟨⟨33, 1, 34⟩, ⟨45, 1, 46⟩⟩⟩) []
      ⟨⟨45, 1, 46⟩, ⟨55, 1, 56⟩⟩
    let block : Node := .rule ".c-a:b".toList none
      [.including "m".toList none (some [rule]) ⟨⟨22, 1, 23⟩, ⟨56, 1, 57⟩⟩]
      ⟨⟨15, 1, 16⟩, ⟨57, 1, 58⟩⟩
    ∃ reading sheet top, read "a.scss".toList source = .ok reading ∧
      Stylesheet.read source = .ok sheet ∧ reading.file.declarations = [top] ∧
      Reopens sheet.nodes reading.file.declarations block top ∧
      rule.LiesIn block.children ∧ rule.AddsModifier "c-d".toList ∧
      "c-d".toList ∈ top.modifierNames := by
  intro source rule block
  have shown : (read "a.scss".toList source).map
      (fun reading => reading.file.declarations.map fun top =>
        (top.name, top.isAtRule, top.location.span.start.offset)) =
      .ok [("c-a".toList, false, 0)] := by
    decide +kernel
  obtain ⟨reading, done, views⟩ := exists_ok_of_map shown
  obtain ⟨top, only, view⟩ := List.map_eq_singleton_iff.mp views
  obtain ⟨named, isRule, place⟩ : top.name = "c-a".toList ∧
  top.isAtRule = false ∧
      top.location.span.start.offset = 0 := by
    simpa only [Prod.mk.injEq] using view
  obtain ⟨sheet, parsed, counts⟩ := structural_modifiers_count done
  have found : (Stylesheet.read source).map (fun sheet =>
      (decide (block ∈ Node.standingList sheet.nodes),
        decide (block ∈ Node.walkList sheet.nodes))) =
      .ok (true, true) := by
    decide +kernel
  rw [parsed] at found
  obtain ⟨standing, walked⟩ := Prod.mk.inj (Except.ok.inj found)
  have reopens : Reopens sheet.nodes reading.file.declarations block top := by
    refine ⟨of_decide_eq_true standing, ?_, ?_, ?_⟩
    · rw [named]
      decide +kernel
    · rw [only]
      exact List.find?_cons_of_pos (isReopenedBy_iff.mpr ⟨rfl, isRule⟩)
    · rw [place]
      decide
  have liesIn : rule.LiesIn block.children :=
    .inside List.mem_cons_self rfl (.direct (List.mem_singleton_self rule))
  have adds : rule.AddsModifier "c-d".toList := by
    refine ⟨?_,
      ⟨"c-d:e".toList, by decide +kernel, by decide +kernel⟩, by decide +kernel,
      ?_, ?_⟩
    · intro comment isComment
      obtain rfl := Option.some.inj isComment
      decide +kernel
    · rw [Text.Undoubled]
      decide +kernel
    · decide +kernel
  have isTop : top ∈ reading.file.declarations := by
    rw [only]
    exact List.mem_singleton_self top
  exact ⟨reading, sheet, top, done, parsed, only, reopens, liesIn, adds,
    (counts top isTop block (of_decide_eq_true walked) (.inr reopens) rule _
      liesIn adds).1⟩

end SourceFile

end StyleAudit
