import StyleAudit.Proofs.SourceFile.Placement
import StyleAudit.Proofs.SourceFile.Tops
import StyleAudit.Proofs.Stylesheet.Nesting

/-!
# Declarations come from nodes

Which nodes become declarations can be read off the tree: at the top it depends
on the node, and inside of a declaration every rule becomes one.  A node at the
top either declares something or is a later block of what an earlier one
declared; `Made` tells this node by node.  So declarations and declared nodes
correspond one to one, and no two declarations of a file are in the same place.
-/

namespace StyleAudit

/-! ## Where declarations come from -/

/-- Where a declaration is, and what it says about itself. -/
def Declaration.origin (declaration : Declaration) :
    Location × Option Doc.Block :=
  (declaration.location, declaration.doc)

/-- Where the declaration of a node is, and what it says about itself. -/
def Node.origin (file : Text) (node : Node) : Location × Option Doc.Block :=
  (⟨file, node.span⟩,
    node.doc.map fun comment => (Doc.extract comment.text).block)

open SourceFile (blockContents)

/-- A later rule for the name of a declaration, as a part of it. -/
def Declaration.part (earlier : Declaration) (file selector : Text)
    (block : List Node) (span : Span) : Declaration :=
  { kind := earlier.kind, name := earlier.name, signature := selector,
    location := ⟨file, span⟩, doc := none,
    children := (blockContents file earlier.name earlier.kind block).children,
    nesting := .reopened, includes := [] }

/-- The declaration with a later rule for its name as a part of it. -/
def Declaration.reopenedBy (earlier : Declaration) (file selector : Text)
    (block : List Node) (span : Span) : Declaration :=
  { earlier with
    children := earlier.children ++ [earlier.part file selector block span],
    includes := earlier.includes ++
      (blockContents file earlier.name earlier.kind block).includes }

/-- The later declaration is documented, or one of the two is an at-rule, or
their names differ. -/
def Declaration.Apart (earlier later : Declaration) : Prop :=
  later.doc = none → later.isAtRule = false → earlier.isAtRule = false →
    earlier.name ≠ later.name

namespace SourceFile

open Declaration (walkList)

theorem readDoc_fst (file : Text) (comment : Option Comment) :
    (readDoc file comment).1 =
      comment.map fun comment => (Doc.extract comment.text).block := by
  cases comment <;> rfl

/-- The origins of declarations and all inside them. -/
def origins (declarations : List Declaration) :
    List (Location × Option Doc.Block) :=
  (walkList declarations).map Declaration.origin

theorem origins_nil : origins [] = [] := by
  rw [origins, walkList, List.map_nil]

theorem origins_append (left right : List Declaration) :
    origins (left ++ right) = origins left ++ origins right := by
  rw [origins, Declaration.walkList_append, List.map_append]
  rfl

theorem origins_cons (declaration : Declaration) (rest : List Declaration) :
    origins (declaration :: rest) =
      declaration.origin :: origins declaration.children ++ origins rest := by
  rw [origins, walkList, Declaration.walk_eq, List.map_append]
  rfl

theorem origins_singleton (declaration : Declaration) :
    origins [declaration] = declaration.origin ::
      origins declaration.children := by
  rw [origins_cons, origins_nil, List.append_nil]

section Blocks

variable {file : Text}

mutual

/-- In the block of a declaration every rule is declared. -/
theorem origins_nodeContents (name : Text) (kind : DeclarationKind) :
    ∀ node : Node, origins (nodeContents file name kind node).children =
      (Node.rulesIn [node]).map (Node.origin file)
  | .rule selector comment children span => by
      rw [nodeContents, origins_singleton, origins_blockContents,
        Node.rulesIn_singleton, readDoc_fst]
      rfl
  | .including included arguments (some body) span => by
      rw [nodeContents, Contents.append, Node.rulesIn_singleton]
      exact origins_blockContents name kind body
  | .including included arguments none span => by
      rw [nodeContents, Node.rulesIn_singleton]
      rfl
  | .atRule rule comment (some body) span => by
      rw [nodeContents, Node.rulesIn_singleton]
      exact origins_blockContents name kind body
  | .atRule rule comment none span => by
      rw [nodeContents, Node.rulesIn_singleton]
      rfl
  | .importing loads targets span => by
      rw [nodeContents, Node.rulesIn_singleton]
      rfl

theorem origins_blockContents (name : Text) (kind : DeclarationKind) :
    ∀ nodes : List Node, origins (blockContents file name kind nodes).children =
      (Node.rulesIn nodes).map (Node.origin file)
  | [] => by
      rw [blockContents, Node.rulesIn_nil]
      rfl
  | node :: rest => by
      have first := origins_nodeContents name kind node
      have others := origins_blockContents name kind rest
      rw [Node.rulesIn_singleton] at first
      rw [blockContents, Contents.append, origins_append, first, others,
        ← List.map_append, Node.rulesIn_cons]

end

/-! ## The top of a file -/

theorem updateFirst_of_find? {α : Type} {found : α → Bool}
    {list : List α} {a : α} (present : list.find? found = some a)
    (change : α → α) :
    ∃ front back, list = front ++ a :: back ∧
    (∀ other ∈ front, found other = false) ∧
      updateFirst found change list = front ++ change a :: back := by
  induction list with
  | nil => cases present
  | cons first rest ih =>
      rw [updateFirst]
      cases here : found first with
      | true =>
          rw [List.find?_cons_of_pos here] at present
          rw [Option.some.inj present]
          exact ⟨[], rest, rfl, List.forall_mem_nil _, rfl⟩
      | false =>
          rw [List.find?_cons_of_neg (ne_true_of_eq_false here)] at present
          obtain ⟨front, back, rfl, others, changed⟩ := ih present
          rw [changed]
          exact ⟨first :: front, back, rfl,
            List.forall_mem_cons.mpr ⟨here, others⟩, rfl⟩

theorem isReopenedBy_iff {name : Text} {declaration : Declaration} :
    isReopenedBy name declaration = true ↔
      declaration.name = name ∧ declaration.isAtRule = false := by
  simp [isReopenedBy]

end Blocks

/-! ## How declarations come about -/

/-- The declaration is what the node at the top declares. -/
structure Declares (file : Text) (node : Node) (declaration : Declaration) :
    Prop where
  origin : declaration.origin = node.origin file
  root : declaration.nesting = .root
  children : declaration.children =
    (blockContents file declaration.name declaration.kind
      node.children).children
  includes : declaration.includes =
    (blockContents file declaration.name declaration.kind
      node.children).includes

/-- The declarations at the top of a file are made by nodes, one after the
other: each node declares something, or is a later block of what an earlier one
declared. -/
inductive Made (file : Text) : List Node → List Declaration → Prop
  | nil : Made file [] []
  | declare {nodes : List Node} {declarations : List Declaration} {node : Node}
      {declaration : Declaration} (made : Made file nodes declarations)
      (declares : Declares file node declaration)
      (apart : ∀ earlier ∈ declarations, earlier.Apart declaration)
      (fresh : ∀ name ∈ node.plainClass?, ∀ earlier ∈ declarations,
        isReopenedBy name earlier = false) :
      Made file (nodes ++ [node]) (declarations ++ [declaration])
  | reopen {nodes : List Node} {front back : List Declaration}
    {earlier : Declaration}
      {selector : Text} {block : List Node} {span : Span}
      (made : Made file nodes (front ++ earlier :: back))
      (named : Selector.firstClass? selector = some earlier.name)
      (isRule : earlier.isAtRule = false)
      (first : ∀ other ∈ front, isReopenedBy earlier.name other = false) :
      Made file (nodes ++ [.rule selector none block span])
        (front ++ earlier.reopenedBy file selector block span :: back)

section Tops

variable {file : Text}

namespace Draft

theorem fresh_of_unfound {selector : Text} {doc : Option Doc.Block}
    {declarations : List Declaration}
    (unfound : ∀ earlier, doc = none →
      ((Selector.firstClass? selector).bind fun name =>
        declarations.find? (isReopenedBy name)) = some earlier → False)
    (undocumented : doc = none) {name : Text}
    (isName : Selector.firstClass? selector = some name) :
    ∀ earlier ∈ declarations, isReopenedBy name earlier = false := by
  rw [isName] at unfound
  intro earlier member
  refine eq_false_of_ne_true fun found => ?_
  obtain ⟨first, isFirst⟩ :=
    Option.isSome_iff_exists.mp (List.find?_isSome.mpr ⟨earlier, member, found⟩)
  exact unfound first undocumented isFirst

private theorem apart_of_unfound {selector : Text} {doc : Option Doc.Block}
    {declarations : List Declaration}
    (unfound : ∀ earlier, doc = none →
      ((Selector.firstClass? selector).bind fun name =>
        declarations.find? (isReopenedBy name)) = some earlier → False)
    (declarable : (doc.isSome || (Selector.firstClass? selector).isSome) = true)
    {declaration : Declaration} (documented : declaration.doc = doc)
    (named : declaration.name =
      ((doc.bind (·.name)).or (Selector.firstClass? selector)).getD selector) :
    ∀ earlier ∈ declarations, earlier.Apart declaration := by
  intro earlier member undocumented _ isRule same
  rw [documented] at undocumented
  subst undocumented
  obtain ⟨name, isName⟩ := Option.isSome_iff_exists.mp declarable
  have isOther := fresh_of_unfound unfound rfl isName earlier member
  rw [isName] at named
  have found : isReopenedBy name earlier = true :=
    isReopenedBy_iff.mpr ⟨same.trans named, isRule⟩
  rw [found] at isOther
  cases isOther

private theorem made_addRule {draft : Draft} {before : List Node}
    (made : Made file before draft.declarations) (selector : Text)
    (comment : Option Comment) (children : List Node) (span : Span) :
    Made file (before ++ Node.tops [.rule selector comment children span])
      (draft.addRule file selector comment children span).declarations := by
  simp only [addRule]
  split
  · rename_i earlier undocumented found
    rw [readDoc_fst, Option.map_eq_none_iff] at undocumented
    obtain ⟨name, isName, present⟩ := Option.bind_eq_some_iff.mp found
    obtain ⟨rfl, isRule⟩ := isReopenedBy_iff.mp (List.find?_some present)
    rw [undocumented, Node.tops_rule, isName, reopen]
    obtain ⟨front, back, split, others, changed⟩ :=
      updateFirst_of_find? present _
    rw [changed]
    rw [split] at made
    exact made.reopen isName isRule others
  · rename_i unfound
    have documented : comment.isSome = (readDoc file comment).1.isSome := by
      rw [readDoc_fst, Option.isSome_map]
    rw [Node.tops_rule, documented]
    split
    · rename_i declarable
      refine made.declare ⟨congrArg (Prod.mk _) (readDoc_fst file comment),
        rfl, rfl, rfl⟩ (apart_of_unfound unfound declarable rfl rfl) ?_
      intro name isName
      cases comment with
      | none => exact fresh_of_unfound unfound rfl isName
      | some comment => cases isName
    · rw [List.append_nil]
      exact made

theorem made_declareAtRule {draft : Draft} {before : List Node}
    (made : Made file before draft.declarations) (rule : AtRule)
    (comment : Option Comment) (body : Option (List Node)) (span : Span) :
    Made file (before ++ [.atRule rule comment body span])
      (draft.declareAtRule file rule comment (body.getD [])
        span).declarations := by
  refine made.declare ⟨congrArg (Prod.mk _) (readDoc_fst file comment), rfl,
    rfl, rfl⟩ ?_ ?_
  · intro earlier _ _ isRule
    rw [Declaration.isAtRule, List.cons_append,
      Text.trimEnd_cons_of_filled (by decide)] at isRule
    cases isRule
  · intro name isName
    cases isName

mutual

private theorem made_addNode {draft : Draft} {before : List Node}
    (made : Made file before draft.declarations) :
    ∀ node,
      Made file (before ++ Node.tops [node])
        (addNode file draft node).declarations
  | .rule selector comment children span => by
      rw [addNode]
      exact made_addRule made selector comment children span
  | .atRule rule comment none span => by
      rw [addNode, Node.tops_atRule]
      split
      · exact made_declareAtRule made rule comment none span
      · rw [Option.getD_none, Node.tops_nil, ite_self, List.append_nil]
        exact made
  | .atRule rule comment (some body) span => by
      rw [addNode, Node.tops_atRule]
      split
      · exact made_declareAtRule made rule comment (some body) span
      · split
        · exact @made_addNodes (draft.noteIdleDoc file rule comment)
            before made body
        · rw [List.append_nil]
          exact made
  | .importing kind targets span => by
      have none : Node.tops [.importing kind targets span] = [] := rfl
      rw [addNode, none, List.append_nil]
      exact made
  | .including name arguments body span => by
      have none : Node.tops [.including name arguments body span] = [] := rfl
      rw [addNode, none, List.append_nil]
      exact made

/-- The declarations at the top of a file are made by the nodes at the top that
are declared. -/
theorem made_addNodes {draft : Draft} {before : List Node}
    (made : Made file before draft.declarations) :
    ∀ nodes,
      Made file (before ++ Node.tops nodes)
        (addNodes file draft nodes).declarations
  | [] => by
      rw [addNodes, Node.tops_nil, List.append_nil]
      exact made
  | node :: rest => by
      rw [addNodes, Node.tops_cons, ← List.append_assoc]
      exact made_addNodes (made_addNode made node) rest

end

end Draft

theorem made_ofStylesheet (id text : Text) (sheet : Stylesheet) :
    Made id (Node.tops sheet.nodes)
      (ofStylesheet id text sheet).file.declarations :=
  @Draft.made_addNodes id
    { diagnostics := sheet.orphans.map (orphanDiagnostic id) } []
    Made.nil sheet.nodes

/-- The declarations and all inside them come from the nodes that made them and
the rules inside those. -/
theorem Made.origins_perm {nodes : List Node} {declarations : List Declaration}
    (made : Made file nodes declarations) :
    (origins declarations).Perm
      ((nodes.flatMap Node.withRules).map (Node.origin file)) := by
  induction made with
  | nil =>
      rw [origins_nil]
      exact List.Perm.refl _
  | @declare nodes declarations node declaration _ declares _ _ ih =>
      rw [origins_append, origins_singleton, declares.origin, declares.children,
        origins_blockContents, List.flatMap_append, List.flatMap_singleton,
        List.map_append]
      exact ih.append_right _
  | @reopen nodes front back earlier selector block span _ _ _ _ ih =>
      have inside : origins [earlier.part file selector block span] =
          (Node.withRules (.rule selector none block span)).map
            (Node.origin file) := by
        rw [origins_singleton, Declaration.part, origins_blockContents]
        rfl
      rw [List.flatMap_append, List.flatMap_singleton,
        List.map_append, ← inside]
      refine List.Perm.trans ?_ (ih.append_right _)
      rw [origins_append, origins_append, origins_cons, origins_cons,
        Declaration.reopenedBy, origins_append]
      simp only [List.append_assoc, List.cons_append, Declaration.origin]
      apply List.Perm.append_left
      apply List.Perm.cons
      apply List.Perm.append_left
      exact List.perm_append_comm

end Tops

/-- The declarations at the top of a file were made by reading blocks, one
declaration after the other: each was declared with a block, or was given a
later block as a part. -/
inductive Built (file : Text) : List Declaration → Prop
  | nil : Built file []
  | declare {declarations : List Declaration} {declaration : Declaration}
    {block : List Node}
      (built : Built file declarations) (root : declaration.nesting = .root)
      (children : declaration.children =
        (blockContents file declaration.name declaration.kind block).children) :
      Built file (declarations ++ [declaration])
  | reopen {front back : List Declaration} {earlier part : Declaration}
    {block : List Node}
      (built : Built file (front ++ earlier :: back))
      (reopened : part.nesting = .reopened) (name : part.name = earlier.name)
      (children : part.children =
        (blockContents file earlier.name earlier.kind block).children)
      (includes : List Text) :
      Built file (front ++
        { earlier with
          children := earlier.children ++ [part],
          includes := includes } :: back)

theorem Made.built {file : Text} {nodes : List Node}
    {declarations : List Declaration} (made : Made file nodes declarations) :
    Built file declarations := by
  induction made with
  | nil => exact .nil
  | declare _ declares _ _ ih =>
      exact ih.declare declares.root declares.children
  | @reopen _ front back earlier selector block span _ _ _ _ ih =>
      exact @Built.reopen file front back earlier
        (earlier.part file selector block span) block ih rfl rfl rfl _

/-! ## The whole file -/

/-- What is read was made of a stylesheet. -/
theorem exists_sheet_of_read {id text : Text} {reading : Reading}
    (done : read id text = .ok reading) :
    ∃ sheet, Stylesheet.read text = .ok sheet ∧
      reading = ofStylesheet id text sheet := by
  rw [read] at done
  split at done
  · rename_i sheet parsed
    exact ⟨sheet, parsed, (Except.ok.inj done).symm⟩
  · cases done

/-- The declarations of a file and all inside them come from the declared
nodes. -/
theorem origins_ofStylesheet (id text : Text) (sheet : Stylesheet) :
    (origins (ofStylesheet id text sheet).file.declarations).Perm
      ((Node.declaredList sheet.nodes).map (Node.origin id)) := by
  rw [Node.declaredList_eq]
  exact (made_ofStylesheet id text sheet).origins_perm

theorem built_of_read {id text : Text} {reading : Reading}
    (done : read id text = .ok reading) :
    Built id reading.file.declarations := by
  obtain ⟨sheet, parsed, rfl⟩ := exists_sheet_of_read done
  exact (made_ofStylesheet id text sheet).built

theorem locations_ofStylesheet (id text : Text) (sheet : Stylesheet) :
    ((walkList (ofStylesheet id text sheet).file.declarations).map
      (·.location)).Perm
        ((Node.declaredList sheet.nodes).map fun node => ⟨id, node.span⟩) := by
  have same := (origins_ofStylesheet id text sheet).map Prod.fst
  rw [origins, List.map_map, List.map_map] at same
  exact same

/-- There is a declaration where a node is just if the node is declared. -/
theorem exists_location_iff {id text : Text} {sheet : Stylesheet}
    (distinct : ((Node.walkList sheet.nodes).map Node.span).Nodup) {node : Node}
    (member : node ∈ Node.walkList sheet.nodes) :
    (∃ declaration ∈ walkList (ofStylesheet id text sheet).file.declarations,
      declaration.location = ⟨id, node.span⟩) ↔
        node ∈ Node.declaredList sheet.nodes := by
  have same := locations_ofStylesheet id text sheet
  constructor
  · rintro ⟨declaration, walked, location⟩
    obtain ⟨other, isDeclared, place⟩ :=
      List.mem_map.mp (same.subset (List.mem_map_of_mem walked))
    have spans : other.span = node.span :=
      (Location.mk.inj (place.trans location)).2
    have isNode := List.inj_on_of_nodup_map distinct
      ((Node.declaredList_sublist sheet.nodes).subset isDeclared) member spans
    exact isNode ▸ isDeclared
  · intro isDeclared
    obtain ⟨declaration, walked, place⟩ :=
      List.mem_map.mp (same.symm.subset (List.mem_map_of_mem isDeclared))
    exact ⟨declaration, walked, place⟩

/-- No two declarations of a file, at any depth, are in the same place. -/
theorem nodup_locations {id text : Text} {reading : Reading}
    (done : read id text = .ok reading) :
    ((walkList reading.file.declarations).map (·.location)).Nodup := by
  obtain ⟨sheet, parsed, rfl⟩ := exists_sheet_of_read done
  have spans := ((Node.declaredList_sublist sheet.nodes).map Node.span).nodup
    (Stylesheet.nodup_spans_of_read parsed)
  rw [(locations_ofStylesheet id text sheet).nodup_iff]
  rw [List.Nodup, List.pairwise_map] at spans ⊢
  exact spans.imp fun apart same => apart (Location.mk.inj same).2

/-- The declarations of a file and all inside them correspond one to one, by
their places, to the nodes that are declared at the top, inside of conditional
at-rules too, and all rules inside of these.  No two declarations are in the
same place, and where a node is that is not one of these, there is no
declaration. -/
theorem declarations_mirror_rules {id text : Text} {reading : Reading}
    (done : read id text = .ok reading) :
    ∃ sheet, Stylesheet.read text = .ok sheet ∧
      ((walkList reading.file.declarations).map (·.location)).Perm
        (((Node.tops sheet.nodes).flatMap Node.withRules).map fun node =>
          ⟨id, node.span⟩) ∧
      ((walkList reading.file.declarations).map (·.location.span)).Nodup ∧
      ∀ node ∈ Node.walkList sheet.nodes,
        (∃ declaration ∈ walkList reading.file.declarations,
          declaration.location = ⟨id, node.span⟩) ↔
        node ∈ (Node.tops sheet.nodes).flatMap Node.withRules := by
  have distinct := nodup_locations done
  obtain ⟨sheet, parsed, rfl⟩ := exists_sheet_of_read done
  have same := locations_ofStylesheet id text sheet
  refine ⟨sheet, parsed, ?_, ?_, ?_⟩
  · rwa [Node.declaredList_eq] at same
  · rw [List.Nodup, List.pairwise_map] at distinct ⊢
    refine distinct.imp_of_mem ?_
    intro left right isLeft isRight apart spans
    obtain ⟨leftNode, -, leftPlace⟩ :=
      List.mem_map.mp (same.subset (List.mem_map_of_mem isLeft))
    obtain ⟨rightNode, -, rightPlace⟩ :=
      List.mem_map.mp (same.subset (List.mem_map_of_mem isRight))
    rw [← leftPlace, ← rightPlace] at apart spans
    exact apart (congrArg (Location.mk id) spans)
  · intro node member
    rw [exists_location_iff (Stylesheet.nodup_spans_of_read parsed) member,
      Node.declaredList_eq]

/-- A rule in a conditional at-rule is reopened behind another rule, with a rule
inside an include; an interface is conditional; and a rule that is not declared
has a rule inside. -/
theorem declarations_mirror_rules_reopened :
    let source := ("@media x\x7b.c-a\x7b&__b\x7b\x7d\x7d\x7d.c-g\x7b\x7d" ++
      ".c-a:hover\x7b@include m\x7b.d\x7b\x7d\x7d\x7d" ++
      "/** @type interface */@supports y\x7b.e\x7b\x7d\x7dp\x7b.f\x7b\x7d\x7d").toList
    ∃ reading sheet, read "a.scss".toList source = .ok reading ∧
      Stylesheet.read source = .ok sheet ∧
      (walkList reading.file.declarations).map (·.location.span.start.offset) =
        [9, 14, 28, 50, 22, 78, 90] ∧
      (Node.walkList sheet.nodes).map (·.span.start.offset) =
        [0, 9, 14, 22, 28, 39, 50, 78, 90, 95, 97] ∧
      ((walkList reading.file.declarations).map (·.location)).Perm
        (((Node.tops sheet.nodes).flatMap Node.withRules).map fun node =>
          ⟨"a.scss".toList, node.span⟩) := by
  intro source
  have shown : (read "a.scss".toList source).map (fun reading =>
      (walkList reading.file.declarations).map (·.location.span.start.offset)) =
      .ok [9, 14, 28, 50, 22, 78, 90] := by
    decide +kernel
  obtain ⟨reading, done, places⟩ := exists_ok_of_map shown
  obtain ⟨sheet, parsed, same, -⟩ := declarations_mirror_rules done
  have nodes : (Stylesheet.read source).map (fun sheet =>
      (Node.walkList sheet.nodes).map (·.span.start.offset)) =
      .ok [0, 9, 14, 22, 28, 39, 50, 78, 90, 95, 97] := by
    decide +kernel
  rw [parsed] at nodes
  exact ⟨reading, sheet, done, parsed, places, Except.ok.inj nodes, same⟩

end SourceFile

end StyleAudit
