import StyleAudit.Proofs.SourceFile.Declared

/-!
# Reopened declarations

A declaration at the top of a file is made from the node that declares it and
from later rules for its name, which become parts of it.  In the blocks of all
these nodes every rule is declared where it stands.  So it is only directly
inside of declarations at the top that there are parts, and no rule without a
doc comment stands at the top behind a rule of the same name.
-/

namespace StyleAudit

namespace SourceFile

open Declaration (walkList)

variable {file : Text}

/-! ## Inside of blocks -/

/-- The declaration is that of a rule in the block of another one. -/
structure OfRule (file : Text) (rule : Node) (declaration : Declaration) :
    Prop where
  location : declaration.location = ⟨file, rule.span⟩
  nesting : declaration.nesting = nestingOf declaration.signature
  children : declaration.children =
    (blockContents file declaration.name declaration.kind
      rule.children).children
  includes : declaration.includes =
    (blockContents file declaration.name declaration.kind
      rule.children).includes

theorem OfRule.nesting_ne {rule : Node} {declaration : Declaration}
    (ofRule : OfRule file rule declaration) :
    declaration.nesting ≠ .root ∧ declaration.nesting ≠ .reopened := by
  rw [ofRule.nesting, nestingOf]
  split <;> simp

mutual

private theorem exists_ofRule_of_mem_nodeContents {name : Text}
    {kind : DeclarationKind} {declaration : Declaration} : ∀ node : Node,
    declaration ∈ walkList (nodeContents file name kind node).children →
      ∃ rule ∈ Node.rulesIn [node], OfRule file rule declaration
  | .rule selector comment children span, member => by
      rw [nodeContents, walkList, Declaration.walk_eq, walkList,
        List.append_nil] at member
      rw [Node.rulesIn_singleton]
      rcases List.mem_cons.mp member with rfl | deeper
      · exact ⟨_, List.mem_append_left _ (List.mem_singleton_self _),
          ⟨rfl, rfl, rfl, rfl⟩⟩
      · obtain ⟨rule, inside, ofRule⟩ :=
          exists_ofRule_of_mem_blockContents children deeper
        exact ⟨rule, List.mem_append_right _ inside, ofRule⟩
  | .including included arguments (some body) span, member => by
      rw [nodeContents] at member
      rw [Node.rulesIn_singleton]
      exact exists_ofRule_of_mem_blockContents body member
  | .including included arguments none span, member => by
      rw [nodeContents, Contents.ofInclude, walkList] at member
      exact (List.not_mem_nil member).elim
  | .atRule rule comment (some body) span, member => by
      rw [nodeContents] at member
      rw [Node.rulesIn_singleton]
      exact exists_ofRule_of_mem_blockContents body member
  | .atRule rule comment none span, member => by
      rw [nodeContents, walkList] at member
      exact (List.not_mem_nil member).elim
  | .importing loads targets span, member => by
      rw [nodeContents, walkList] at member
      exact (List.not_mem_nil member).elim

/-- What is declared in a block, at any depth, are rules in it. -/
theorem exists_ofRule_of_mem_blockContents {name : Text}
    {kind : DeclarationKind} {declaration : Declaration} : ∀ nodes : List Node,
    declaration ∈ walkList (blockContents file name kind nodes).children →
      ∃ rule ∈ Node.rulesIn nodes, OfRule file rule declaration
  | [], member => by
      rw [blockContents, walkList] at member
      exact (List.not_mem_nil member).elim
  | node :: rest, member => by
      rw [blockContents, Contents.append, Declaration.walkList_append] at member
      rw [Node.rulesIn_cons, ← Node.rulesIn_singleton]
      rcases List.mem_append.mp member with here | later
      · obtain ⟨rule, inside, ofRule⟩ :=
          exists_ofRule_of_mem_nodeContents node here
        exact ⟨rule, List.mem_append_left _ inside, ofRule⟩
      · obtain ⟨rule, inside, ofRule⟩ :=
          exists_ofRule_of_mem_blockContents rest later
        exact ⟨rule, List.mem_append_right _ inside, ofRule⟩

end

/-! ## At the top -/

/-- The declaration is that of a node at the top, with the blocks of later rules
as parts. -/
structure MadeFrom (file : Text) (own : Node) (later : List Node)
    (declaration : Declaration) :
    Prop where
  root : declaration.nesting = .root
  location : declaration.location = ⟨file, own.span⟩
  children : declaration.children =
    (blockContents file declaration.name declaration.kind
      own.children).children ++
      later.map fun node =>
        declaration.part file node.selector node.children node.span
  includes : declaration.includes = (own :: later).flatMap fun node =>
    (blockContents file declaration.name declaration.kind
      node.children).includes

theorem Declares.madeFrom {node : Node} {declaration : Declaration}
    (declares : Declares file node declaration) :
    MadeFrom file node [] declaration where
  root := declares.root
  location := congrArg Prod.fst declares.origin
  children := by rw [declares.children, List.map_nil, List.append_nil]
  includes := by rw [declares.includes, List.flatMap_singleton]

theorem MadeFrom.reopenedBy {own : Node} {later : List Node}
    {declaration : Declaration} (madeFrom : MadeFrom file own later declaration)
    (selector : Text) (block : List Node) (span : Span) :
    MadeFrom file own (later ++ [.rule selector none block span])
      (declaration.reopenedBy file selector block span) where
  root := madeFrom.root
  location := madeFrom.location
  children := by
    rw [Declaration.reopenedBy, madeFrom.children, List.map_append,
      List.append_assoc]
    rfl
  includes := by
    rw [Declaration.reopenedBy, madeFrom.includes, ← List.cons_append,
      List.flatMap_append, List.flatMap_singleton]
    rfl

/-- Each declaration at the top is made from nodes at the top, in their
order. -/
theorem Made.exists_madeFrom {nodes : List Node}
    {declarations : List Declaration} (made : Made file nodes declarations)
    {declaration : Declaration} (member : declaration ∈ declarations) :
    ∃ own later, (own :: later).Sublist nodes ∧
      MadeFrom file own later declaration := by
  induction made generalizing declaration with
  | nil => exact (List.not_mem_nil member).elim
  | @declare nodes declarations node _ _ declares _ _ ih =>
      rcases List.mem_append.mp member with old | new
      · obtain ⟨own, later, sublist, madeFrom⟩ := ih old
        exact ⟨own, later, sublist.trans (List.sublist_append_left _ _),
          madeFrom⟩
      · rw [List.mem_singleton.mp new]
        exact ⟨node, [], List.sublist_append_right _ _, declares.madeFrom⟩
  | @reopen nodes front back earlier selector block span _ _ _ _ ih =>
      have kept : declaration ∈ front ++ back →
          ∃ own later,
            (own :: later).Sublist (nodes ++ [.rule selector none block span]) ∧
            MadeFrom file own later declaration := by
        intro other
        have member : declaration ∈ front ++ earlier :: back := by
          rcases List.mem_append.mp other with inFront | inBack
          · exact List.mem_append_left _ inFront
          · exact List.mem_append_right _ (List.mem_cons_of_mem _ inBack)
        obtain ⟨own, later, sublist, madeFrom⟩ := ih member
        exact ⟨own, later, sublist.trans (List.sublist_append_left _ _),
          madeFrom⟩
      rcases List.mem_append.mp member with inFront | others
      · exact kept (List.mem_append_left _ inFront)
      · rcases List.mem_cons.mp others with rfl | inBack
        · obtain ⟨own, later, sublist, madeFrom⟩ :=
            ih (List.mem_append_right front List.mem_cons_self)
          exact ⟨own, _, sublist.append (List.Sublist.refl _),
            madeFrom.reopenedBy selector block span⟩
        · exact kept (List.mem_append_right _ inBack)

/-- What is inside a declaration at the top: rules in the blocks of its nodes,
and parts. -/
theorem MadeFrom.inside_cases {own : Node} {later : List Node}
    {top : Declaration} (madeFrom : MadeFrom file own later top)
    {declaration : Declaration} (inside : declaration ∈ walkList top.children) :
    (∃ node ∈ own :: later, ∃ rule ∈ Node.rulesIn node.children,
        OfRule file rule declaration) ∨
      ∃ node ∈ later,
        declaration = top.part file node.selector node.children node.span := by
  rw [madeFrom.children, Declaration.walkList_append] at inside
  rcases List.mem_append.mp inside with inOwn | inParts
  · exact .inl ⟨own, List.mem_cons_self,
      exists_ofRule_of_mem_blockContents own.children inOwn⟩
  · rw [Declaration.walkList_eq_flatMap] at inParts
    obtain ⟨part, isPart, inPart⟩ := List.mem_flatMap.mp inParts
    obtain ⟨node, isLater, rfl⟩ := List.mem_map.mp isPart
    rw [Declaration.walk_eq] at inPart
    rcases List.mem_cons.mp inPart with rfl | deeper
    · exact .inr ⟨node, isLater, rfl⟩
    · exact .inl ⟨node, List.mem_cons_of_mem _ isLater,
        exists_ofRule_of_mem_blockContents node.children deeper⟩

theorem MadeFrom.part_mem {own : Node} {later : List Node} {top : Declaration}
    (madeFrom : MadeFrom file own later top) {node : Node}
    (isLater : node ∈ later) :
    top.part file node.selector node.children node.span ∈ top.children := by
  rw [madeFrom.children]
  exact List.mem_append_right _ (List.mem_map_of_mem isLater)

/-- Every declaration of a file is at the top, or that of a rule in a block of
one at the top, or a part of one at the top. -/
theorem Made.walk_cases {nodes : List Node} {declarations : List Declaration}
    (made : Made file nodes declarations) {declaration : Declaration}
    (walked : declaration ∈ walkList declarations) :
    ∃ top ∈ declarations, ∃ own later, (own :: later).Sublist nodes ∧
      MadeFrom file own later top ∧
      (declaration = top ∨
        (∃ node ∈ own :: later, ∃ rule ∈ Node.rulesIn node.children,
          OfRule file rule declaration) ∨
        ∃ node ∈ later, declaration =
          top.part file node.selector node.children node.span) := by
  rw [Declaration.walkList_eq_flatMap] at walked
  obtain ⟨top, isTop, inTop⟩ := List.mem_flatMap.mp walked
  obtain ⟨own, later, sublist, madeFrom⟩ := made.exists_madeFrom isTop
  rw [Declaration.walk_eq] at inTop
  refine ⟨top, isTop, own, later, sublist, madeFrom, ?_⟩
  rcases List.mem_cons.mp inTop with isTop | inside
  · exact .inl isTop
  · exact .inr (madeFrom.inside_cases inside)

/-- A rule that is added without a doc comment has no rule of its name in front
of it.  The declaration that is reopened keeps its name, its signature and its
doc block. -/
theorem Made.pairwise_apart {nodes : List Node}
    {declarations : List Declaration} (made : Made file nodes declarations) :
    declarations.Pairwise Declaration.Apart := by
  induction made with
  | nil => exact List.Pairwise.nil
  | declare _ _ apart _ ih =>
      refine List.pairwise_append.mpr ⟨ih, List.pairwise_singleton _ _, ?_⟩
      intro earlier member later isLater
      rw [List.mem_singleton.mp isLater]
      exact apart earlier member
  | reopen _ _ _ _ ih =>
      rw [List.pairwise_append, List.pairwise_cons] at ih ⊢
      obtain ⟨amongFront, behind, across⟩ := ih
      refine ⟨amongFront, behind, ?_⟩
      intro left inFront
      obtain ⟨first, others⟩ := List.forall_mem_cons.mp (across left inFront)
      exact List.forall_mem_cons.mpr ⟨first, others⟩

/-! ## The whole file -/

/-- At the top of a file, a rule without a doc comment never stands behind
another rule of its name.  What is at the top says so, and nothing else does.
And what says that it reopens something is directly inside of a declaration at
the top, of the same name and kind, and has neither a doc block nor includes of
its own. -/
theorem reopening_kept {id text : Text} {reading : Reading}
    (done : read id text = .ok reading) :
    (reading.file.declarations.Pairwise fun earlier later =>
      later.doc = none → later.isAtRule = false → earlier.isAtRule = false →
        earlier.name ≠ later.name) ∧
    (∀ top ∈ reading.file.declarations,
      top.nesting = .root ∧ ∀ inner ∈ walkList top.children,
        inner.nesting ≠ .root) ∧
    ∀ part ∈ walkList reading.file.declarations, part.nesting = .reopened →
      ∃ top ∈ reading.file.declarations,
        part ∈ top.children ∧ part.name = top.name ∧
        part.kind = top.kind ∧ part.doc = none ∧ part.includes = [] := by
  obtain ⟨sheet, parsed, rfl⟩ := exists_sheet_of_read done
  have made := made_ofStylesheet id text sheet
  refine ⟨made.pairwise_apart, ?_, ?_⟩
  · intro top isTop
    obtain ⟨own, later, -, madeFrom⟩ := made.exists_madeFrom isTop
    refine ⟨madeFrom.root, ?_⟩
    intro inner inside
    rcases madeFrom.inside_cases inside with
      ⟨node, -, rule, -, ofRule⟩ | ⟨node, -, rfl⟩
    · exact ofRule.nesting_ne.1
    · exact fun isRoot => Nesting.noConfusion isRoot
  · intro part walked reopened
    obtain ⟨top, isTop, own, later, -, madeFrom,
      rfl | ⟨node, -, rule, -, ofRule⟩ | ⟨node, isLater, rfl⟩⟩ :=
        made.walk_cases walked
    · rw [madeFrom.root] at reopened
      cases reopened
    · exact (ofRule.nesting_ne.2 reopened).elim
    · exact ⟨top, isTop, madeFrom.part_mem isLater, rfl, rfl, rfl, rfl⟩

/-- A rule is reopened twice, once from inside a conditional at-rule, while a
mixin of its name and a rule that a doc comment gives its name stand in
between. -/
theorem reopening_kept_twice :
    let source :=
      (".c-a\x7b\x7d@mixin c-a\x7b\x7d@media x\x7b.c-a:hover\x7b@include m;\x7d\x7d" ++
      "/** @name c-a */.q\x7b\x7d.c-a\x7b\x7d").toList
    ∃ reading, read "a.scss".toList source = .ok reading ∧
      (walkList reading.file.declarations).map
          (fun inner => (inner.signature, inner.nesting, inner.includes)) =
        [(".c-a".toList, .root, ["m".toList]),
          (".c-a:hover".toList, .reopened, []), (".c-a".toList, .reopened, []),
          ("@mixin c-a".toList, .root, []), (".q".toList, .root, [])] ∧
      (∀ inner ∈ walkList reading.file.declarations,
        inner.name = "c-a".toList) ∧
      ∀ part ∈ walkList reading.file.declarations, part.nesting = .reopened →
        ∃ top ∈ reading.file.declarations,
          part ∈ top.children ∧ part.name = top.name ∧
          part.kind = top.kind ∧ part.doc = none ∧ part.includes = [] := by
  intro source
  have shown : (read "a.scss".toList source).map (fun reading =>
      ((walkList reading.file.declarations).map
          (fun inner => (inner.signature, inner.nesting, inner.includes)),
        (walkList reading.file.declarations).map (·.name))) =
      .ok ([(".c-a".toList, .root, ["m".toList]),
        (".c-a:hover".toList, .reopened, []),
          (".c-a".toList, .reopened, []), ("@mixin c-a".toList, .root, []),
          (".q".toList, .root, [])],
        List.replicate 5 "c-a".toList) := by
    decide +kernel
  obtain ⟨reading, done, views⟩ := exists_ok_of_map shown
  obtain ⟨places, names⟩ := Prod.mk.inj views
  refine ⟨reading, done, places, ?_, (reopening_kept done).2.2⟩
  intro inner walked
  have named : inner.name ∈ List.replicate 5 "c-a".toList := by
    rw [← names]
    exact List.mem_map_of_mem walked
  exact List.eq_of_mem_replicate named

end SourceFile

end StyleAudit
