import StyleAudit.Proofs.SourceFile.Included
import StyleAudit.Proofs.SourceFile.Owner
import StyleAudit.Proofs.SourceFile.Reopened

/-!
# Which declaration is credited with an include

The includes that a node owns are credited to its declaration, or, if the node
is a later rule for a declaration at the top, to that one.  So each include
inside of a declared node is credited once, and a declaration includes what is
credited to it, in the order of the text, and nothing else.
-/

namespace StyleAudit

open SourceFile

namespace Declaration

/-- The node is the one of the declaration, or a later rule that is a part of
it. -/
def HasBlockOf (file : Text) (node : Node) (declaration : Declaration) : Prop :=
  (declaration.nesting ≠ .reopened ∧ declaration.location = ⟨file, node.span⟩) ∨
    ∃ part ∈ declaration.children, part.nesting = .reopened ∧
      part.location = ⟨file, node.span⟩

/-- The include in a file of the given nodes is credited to the declaration. -/
def IsCredited (file : Text) (nodes : List Node) (inner : Node)
    (declaration : Declaration) : Prop :=
  ∃ owner, Node.Owns nodes owner inner ∧ declaration.HasBlockOf file owner

end Declaration

namespace SourceFile

open Declaration (walkList)

variable {file : Text}

/-! ## Blocks -/

mutual

private theorem includes_nodeContents (name : Text) (kind : DeclarationKind) :
    ∀ node : Node, (nodeContents file name kind node).includes =
      node.direct.filterMap Node.includes?
  | .rule selector comment children span => by
      rw [nodeContents, Node.direct]
      rfl
  | .including included arguments (some body) span => by
      rw [nodeContents, Node.direct, Contents.append, includes_blockContents]
      rfl
  | .including included arguments none span => by
      rw [nodeContents, Node.direct]
      rfl
  | .atRule rule comment (some body) span => by
      rw [nodeContents, Node.direct]
      exact includes_blockContents name kind body
  | .atRule rule comment none span => by
      rw [nodeContents, Node.direct]
      rfl
  | .importing loads targets span => by
      rw [nodeContents, Node.direct]
      rfl

/-- A block includes what is in it and in no rule. -/
theorem includes_blockContents (name : Text) (kind : DeclarationKind) :
    ∀ nodes : List Node, (blockContents file name kind nodes).includes =
      (Node.directList nodes).filterMap Node.includes?
  | [] => by
      rw [blockContents, Node.directList]
      rfl
  | node :: rest => by
      rw [blockContents, Contents.append, Node.directList,
        List.filterMap_append, includes_nodeContents, includes_blockContents]

end

theorem not_reopened_of_mem_blockContents {name : Text} {kind : DeclarationKind}
    {nodes : List Node} {child : Declaration}
    (member : child ∈ (blockContents file name kind nodes).children) :
    child.nesting ≠ .reopened := by
  obtain ⟨rule, -, ofRule⟩ :=
    exists_ofRule_of_mem_blockContents nodes (Declaration.mem_walkList member)
  exact ofRule.nesting_ne.2

/-! ## Declarations -/

/-- The declaration has the blocks of the nodes, and includes what is in them
and in no rule. -/
structure Gathers (file : Text) (blocks : List Node)
    (declaration : Declaration) : Prop where
  hasBlockOf_iff : ∀ node, declaration.HasBlockOf file node ↔
    node.span ∈ blocks.map Node.span
  includes : declaration.includes =
    (blocks.flatMap fun node => Node.directList node.children).filterMap
      Node.includes?

theorem OfRule.gathers {rule : Node} {declaration : Declaration}
    (ofRule : OfRule file rule declaration) :
    Gathers file [rule] declaration where
  hasBlockOf_iff := by
    intro node
    have noPart : ¬ ∃ part ∈ declaration.children, part.nesting = .reopened ∧
        part.location = ⟨file, node.span⟩ := by
      rintro ⟨part, member, reopened, -⟩
      rw [ofRule.children] at member
      exact not_reopened_of_mem_blockContents member reopened
    rw [Declaration.HasBlockOf, or_iff_left noPart, ofRule.location]
    simp [ofRule.nesting_ne.2, eq_comm]
  includes := by
    rw [ofRule.includes, includes_blockContents, List.flatMap_singleton]

private theorem gathers_part (whole : Declaration) (selector : Text)
    (block : List Node) (span : Span) :
    Gathers file [] (whole.part file selector block span) where
  hasBlockOf_iff := by
    intro node
    refine iff_of_false ?_ List.not_mem_nil
    rintro (⟨notReopened, -⟩ | ⟨part, member, reopened, -⟩)
    · exact notReopened rfl
    · exact not_reopened_of_mem_blockContents member reopened
  includes := rfl

theorem MadeFrom.gathers {own : Node} {later : List Node} {top : Declaration}
    (madeFrom : MadeFrom file own later top) :
    Gathers file (own :: later) top where
  hasBlockOf_iff := by
    intro node
    rw [List.map_cons, List.mem_cons, Declaration.HasBlockOf]
    refine or_congr ?_ ?_
    · rw [madeFrom.root, madeFrom.location]
      simp [eq_comm]
    · constructor
      · rintro ⟨part, member, reopened, location⟩
        rw [madeFrom.children] at member
        rcases List.mem_append.mp member with inOwn | isPart
        · exact (not_reopened_of_mem_blockContents inOwn reopened).elim
        · obtain ⟨other, isLater, rfl⟩ := List.mem_map.mp isPart
          exact (Location.mk.inj location).2 ▸ List.mem_map_of_mem isLater
      · intro member
        obtain ⟨other, isLater, spans⟩ := List.mem_map.mp member
        exact ⟨_, madeFrom.part_mem isLater, rfl,
          congrArg (Location.mk file) spans⟩
  includes := by
    rw [madeFrom.includes, List.filterMap_flatMap]
    simp only [includes_blockContents]

/-- Every declaration of a file has the blocks of some declared nodes, which
stand in the text in their order. -/
theorem Made.exists_gathers {nodes : List Node}
    {declarations : List Declaration} (made : Made file nodes declarations)
    {declaration : Declaration} (walked : declaration ∈ walkList declarations) :
    ∃ blocks, Gathers file blocks declaration ∧
    blocks ⊆ nodes.flatMap Node.withRules ∧
      (blocks.flatMap fun node => Node.directList node.children).Sublist
        (nodes.flatMap Node.walk) := by
  obtain ⟨top, -, own, later, sublist, madeFrom, cases⟩ :=
    made.walk_cases walked
  have inBlock (node : Node) : (Node.directList node.children).Sublist
      node.walk := by
    rw [Node.walk_eq]
    exact (Node.directList_sublist node.children).cons node
  rcases cases with rfl | ⟨node, isNode, rule, isRule, ofRule⟩ | ⟨node, -, rfl⟩
  · refine ⟨own :: later, madeFrom.gathers, ?_, ?_⟩
    · intro node member
      exact List.mem_flatMap.mpr
        ⟨node, sublist.subset member, List.mem_cons_self⟩
    · exact (List.Sublist.flatMap_right _ fun node _ => inBlock node).trans
        (sublist.flatMap Node.walk)
  · have isTop := sublist.subset isNode
    refine ⟨[rule], ofRule.gathers, ?_, ?_⟩
    · intro other isOther
      rw [List.mem_singleton.mp isOther]
      exact List.mem_flatMap.mpr ⟨node, isTop, List.mem_cons_of_mem _ isRule⟩
    · rw [List.flatMap_singleton]
      have inNode : rule ∈ Node.walkList [node] := by
        rw [Node.walkList_singleton]
        exact Node.mem_walk_of_inside (Node.mem_rulesIn_iff.mp isRule).1
      have walk := Node.walk_sublist inNode
      rw [Node.walkList_singleton] at walk
      exact ((inBlock rule).trans walk).trans
        (List.sublist_flatten_of_mem (List.mem_map_of_mem isTop))
  · exact ⟨[], gathers_part top _ _ _, List.nil_subset _, List.nil_sublist _⟩

/-! ## Each block in one declaration -/

section Blocks

variable {nodes : List Node} {declarations : List Declaration}

/-- It is only at the top that declarations have parts. -/
theorem Made.mem_of_part (made : Made file nodes declarations)
    {whole part : Declaration} (walked : whole ∈ walkList declarations)
    (isPart : part ∈ whole.children) (reopened : part.nesting = .reopened) :
    whole ∈ declarations := by
  obtain ⟨top, isTop, own, later, -, -,
    rfl | ⟨node, -, rule, -, ofRule⟩ | ⟨node, -, rfl⟩⟩ :=
    made.walk_cases walked
  · exact isTop
  · rw [ofRule.children] at isPart
    exact (not_reopened_of_mem_blockContents isPart reopened).elim
  · exact (not_reopened_of_mem_blockContents isPart reopened).elim

theorem Made.exists_hasBlockOf (made : Made file nodes declarations)
    {declaration : Declaration} (walked : declaration ∈ walkList declarations)
    {node : Node} (location : declaration.location = ⟨file, node.span⟩) :
    ∃ whole ∈ walkList declarations, whole.HasBlockOf file node := by
  by_cases reopened : declaration.nesting = .reopened
  · obtain ⟨top, isTop, own, later, -, madeFrom,
      rfl | ⟨other, -, rule, -, ofRule⟩ | ⟨other, isLater, rfl⟩⟩ :=
        made.walk_cases walked
    · rw [madeFrom.root] at reopened
      cases reopened
    · exact (ofRule.nesting_ne.2 reopened).elim
    · exact ⟨top, Declaration.mem_walkList isTop,
        .inr ⟨_, madeFrom.part_mem isLater, reopened, location⟩⟩
  · exact ⟨declaration, walked, .inl ⟨reopened, location⟩⟩

/-- Two declarations with a block in common are the same, if no two are at the
same place.  Two that have a part at one place have the same part, and so they
are the same at the top. -/
theorem Made.hasBlockOf_unique (made : Made file nodes declarations)
    (distinct : ((walkList declarations).map (·.location)).Nodup)
    {left right : Declaration} (isLeft : left ∈ walkList declarations)
    (isRight : right ∈ walkList declarations) {node : Node}
    (inLeft : left.HasBlockOf file node)
    (inRight : right.HasBlockOf file node) :
    left = right := by
  have same
      {first second : Declaration} (isFirst : first ∈ walkList declarations)
      (isSecond : second ∈ walkList declarations)
      (firstAt : first.location = ⟨file, node.span⟩)
      (secondAt : second.location = ⟨file, node.span⟩) : first = second :=
    List.inj_on_of_nodup_map distinct isFirst isSecond
      (firstAt.trans secondAt.symm)
  rcases inLeft with
    ⟨leftWhole, leftAt⟩ | ⟨leftPart, inLeft, leftReopened, leftAt⟩ <;>
    rcases inRight with
      ⟨rightWhole, rightAt⟩ | ⟨rightPart, inRight, rightReopened, rightAt⟩
  · exact same isLeft isRight leftAt rightAt
  · have walked := Declaration.mem_walkList_of_child isRight inRight
    rw [same isLeft walked leftAt rightAt] at leftWhole
    exact (leftWhole rightReopened).elim
  · have walked := Declaration.mem_walkList_of_child isLeft inLeft
    rw [same isRight walked rightAt leftAt] at rightWhole
    exact (rightWhole leftReopened).elim
  · obtain rfl := same (Declaration.mem_walkList_of_child isLeft inLeft)
      (Declaration.mem_walkList_of_child isRight inRight) leftAt rightAt
    have apart := List.Nodup.of_map _ distinct
    rw [Declaration.walkList_eq_flatMap] at apart
    have inside {whole : Declaration} (isPart : leftPart ∈ whole.children) :
        leftPart ∈ whole.walk := by
      rw [Declaration.walk_eq]
      exact List.mem_cons_of_mem _ (Declaration.mem_walkList isPart)
    exact eq_of_mem_flatMap apart (made.mem_of_part isLeft inLeft leftReopened)
      (made.mem_of_part isRight inRight leftReopened) (inside inLeft)
      (inside inRight)

end Blocks

/-! ## The whole file -/

/-- What a declaration includes are the includes that are credited to it, in
their order. -/
theorem exists_credited {id text : Text} {sheet : Stylesheet}
    (distinct : ((Node.walkList sheet.nodes).map Node.span).Nodup)
    {declaration : Declaration}
    (walked : declaration ∈
      walkList (ofStylesheet id text sheet).file.declarations) :
    ∃ credited : List Node, credited.Sublist (Node.walkList sheet.nodes) ∧
      (∀ inner, inner ∈ credited ↔
        inner.includes?.isSome = true ∧
        declaration.IsCredited id sheet.nodes inner) ∧
      declaration.includes = credited.filterMap Node.includes? := by
  have apart := List.Nodup.of_map _ distinct
  obtain ⟨blocks, gathers, declared, inOrder⟩ :=
    (made_ofStylesheet id text sheet).exists_gathers walked
  rw [← Node.declaredList_eq] at declared
  refine ⟨_, inOrder.trans (Node.walk_tops_sublist sheet.nodes), ?_,
    gathers.includes⟩
  intro inner
  rw [List.mem_flatMap]
  constructor
  · rintro ⟨block, isBlock, isDirect⟩
    have owns := Node.owns_of_mem_directList apart (declared isBlock) isDirect
    have hasBlock :=
      (gathers.hasBlockOf_iff block).mpr (List.mem_map_of_mem isBlock)
    exact ⟨Node.includes?_of_mem_directList isDirect, block, owns, hasBlock⟩
  · rintro ⟨includes, owner, owns, hasBlock⟩
    obtain ⟨block, isBlock, spans⟩ :=
      List.mem_map.mp ((gathers.hasBlockOf_iff owner).mp hasBlock)
    have blockWalked :=
      (Node.declaredList_sublist sheet.nodes).subset (declared isBlock)
    obtain rfl :=
      List.inj_on_of_nodup_map distinct blockWalked owns.isOwner.1 spans
    exact ⟨block, isBlock, owns.mem_directList apart includes⟩

/-- An include inside of a declared node is credited to one declaration. -/
theorem existsUnique_isCredited {id text : Text} {reading : Reading}
    {sheet : Stylesheet} (done : read id text = .ok reading)
    (parsed : Stylesheet.read text = .ok sheet) {outer inner : Node}
    (declared : outer ∈ Node.declaredList sheet.nodes)
    (inside : inner ∈ Node.walkList outer.children)
    (includes : inner.includes?.isSome = true) :
    ∃! declaration, declaration ∈ walkList reading.file.declarations ∧
      declaration.IsCredited id sheet.nodes inner := by
  have places := nodup_locations done
  have spans := Stylesheet.nodup_spans_of_read parsed
  have distinct := List.Nodup.of_map _ spans
  obtain ⟨other, otherParsed, rfl⟩ := exists_sheet_of_read done
  obtain rfl := Except.ok.inj (otherParsed.symm.trans parsed)
  have made := made_ofStylesheet id text other
  obtain ⟨owner, ownerDeclared, owns⟩ :=
    Node.exists_owns distinct declared inside includes
  obtain ⟨declaration, walked, location⟩ :=
    (@exists_location_iff id text other spans owner owns.isOwner.1).mpr
      ownerDeclared
  obtain ⟨whole, isWhole, hasBlock⟩ := made.exists_hasBlockOf walked location
  refine ⟨whole, ⟨isWhole, owner, owns, hasBlock⟩, ?_⟩
  rintro rival ⟨isRival, rivalOwner, rivalOwns, rivalHasBlock⟩
  rw [rivalOwns.unique distinct owns] at rivalHasBlock
  exact made.hasBlockOf_unique places isRival isWhole rivalHasBlock hasBlock

/-- A file records the includes of its tree, each with its name and its place,
in the order of the text.  An include inside of a declared node is credited to
one declaration.  And what a declaration includes are the includes credited to
it, in the order of the text. -/
theorem includes_recorded_and_credited {id text : Text} {reading : Reading}
    (done : read id text = .ok reading) :
    ∃ sheet, Stylesheet.read text = .ok sheet ∧
      reading.file.includes = Node.included id sheet.nodes ∧
      (reading.file.includes.Pairwise fun earlier later =>
        earlier.location.span.start.offset < later.location.span.start.offset) ∧
      (∀ outer ∈ Node.declaredList sheet.nodes,
        ∀ inner ∈ Node.walkList outer.children, inner.includes?.isSome = true →
          ∃! declaration, declaration ∈ walkList reading.file.declarations ∧
            declaration.IsCredited id sheet.nodes inner) ∧
      ∀ declaration ∈ walkList reading.file.declarations,
        ∃ credited : List Node, credited.Sublist (Node.walkList sheet.nodes) ∧
          (∀ inner, inner ∈ credited ↔
            inner.includes?.isSome = true ∧
            declaration.IsCredited id sheet.nodes inner) ∧
          declaration.includes = credited.filterMap Node.includes? := by
  obtain ⟨sheet, parsed, same⟩ := exists_sheet_of_read done
  have recorded : reading.file.includes = Node.included id sheet.nodes := by
    rw [same, includes_ofStylesheet]
  refine ⟨sheet, parsed, recorded, ?_, ?_, ?_⟩
  · rw [recorded]
    exact starts_ascend_included (Stylesheet.starts_ascend_of_read parsed)
  · intro outer declared inner inside includes
    exact existsUnique_isCredited done parsed declared inside includes
  · intro declaration walked
    rw [same] at walked
    exact exists_credited (Stylesheet.nodup_spans_of_read parsed) walked

/-- Includes at the top, in an undeclared rule, in the body of another include
and in a nested rule there, in a conditional at-rule, in a mixin, and in a later
rule for the first one. -/
theorem includes_recorded_and_credited_reopened :
    let source := ("@include i;p\x7b@include j;\x7d" ++
      ".c-a\x7b@include m\x7b.d\x7b@include n;\x7d@include k;\x7d@media x\x7b@include q;\x7d\x7d" ++
      "@mixin c-z\x7b@include w;\x7d@media y\x7b.c-a:hover\x7b@include r;\x7d\x7d").toList
    ∃ reading sheet, read "a.scss".toList source = .ok reading ∧
      Stylesheet.read source = .ok sheet ∧
      reading.file.includes = Node.included "a.scss".toList sheet.nodes ∧
      reading.file.includes.map (·.name) =
        ["i", "j", "m", "n", "k", "q", "w", "r"].map String.toList ∧
      ((Node.tops sheet.nodes).flatMap fun top =>
        Node.walkList top.children).filterMap Node.includes? =
          ["m", "n", "k", "q", "w", "r"].map String.toList ∧
      (walkList reading.file.declarations).map
        (fun inner => (inner.signature, inner.includes)) =
        [(".c-a".toList, ["m", "k", "q", "r"].map String.toList),
          (".d".toList, ["n".toList]), (".c-a:hover".toList, []),
          ("@mixin c-z".toList, ["w".toList])] ∧
      ∀ outer ∈ Node.declaredList sheet.nodes,
        ∀ inner ∈ Node.walkList outer.children, inner.includes?.isSome = true →
          ∃! declaration, declaration ∈ walkList reading.file.declarations ∧
            declaration.IsCredited "a.scss".toList sheet.nodes inner := by
  intro source
  have shown : (read "a.scss".toList source).map (fun reading =>
      (reading.file.includes.map (·.name),
        (walkList reading.file.declarations).map fun inner =>
          (inner.signature, inner.includes))) =
      .ok (["i", "j", "m", "n", "k", "q", "w", "r"].map String.toList,
        [(".c-a".toList, ["m", "k", "q", "r"].map String.toList),
          (".d".toList, ["n".toList]), (".c-a:hover".toList, []),
          ("@mixin c-z".toList, ["w".toList])]) := by
    decide +kernel
  obtain ⟨reading, done, views⟩ := exists_ok_of_map shown
  obtain ⟨names, credited⟩ := Prod.mk.inj views
  obtain ⟨sheet, parsed, recorded, -, unique, -⟩ :=
    includes_recorded_and_credited done
  have inside : (Stylesheet.read source).map (fun sheet =>
      ((Node.tops sheet.nodes).flatMap fun top =>
        Node.walkList top.children).filterMap Node.includes?) =
      .ok (["m", "n", "k", "q", "w", "r"].map String.toList) := by
    decide +kernel
  rw [parsed] at inside
  exact ⟨reading, sheet, done, parsed, recorded, names, Except.ok.inj inside,
    credited, unique⟩

end SourceFile

end StyleAudit
