import StyleAudit.Proofs.SourceFile.Declared

/-!
# Includes and names of a file come from its nodes

Whatever an include stands in, the file records it, in the order of the tree.  A
declaration keeps its name when a later block is added to it, so the names of a
file only grow while it is read.
-/

namespace StyleAudit

namespace Node

/-- The include that a node is, in its file. -/
def reference? (file : Text) : Node → Option IncludeReference
  | .including name _ _ span => some ⟨name, ⟨file, span⟩⟩
  | .rule _ _ _ _ | .atRule _ _ _ _ | .importing _ _ _ => none

theorem location_of_reference? {file : Text} {node : Node}
    {reference : IncludeReference}
    (isReference : node.reference? file = some reference) :
    reference.location = ⟨file, node.span⟩ := by
  cases node with
  | including name arguments body span =>
      rw [← Option.some.inj isReference]
      rfl
  | rule selector comment children span => cases isReference
  | atRule rule comment body span => cases isReference
  | importing kind targets span => cases isReference

/-- The includes among the nodes and all inside them. -/
def included (file : Text) (nodes : List Node) : List IncludeReference :=
  (walkList nodes).filterMap (reference? file)

theorem included_nil (file : Text) : included file [] = [] := by
  rw [included, walkList, List.filterMap_nil]

theorem included_cons (file : Text) (node : Node) (rest : List Node) :
    included file (node :: rest) =
      (node.reference? file).toList ++ included file node.children ++
        included file rest := by
  rw [included, walkList, walk_eq, List.filterMap_append, List.filterMap_cons]
  cases node.reference? file <;> rfl

theorem included_singleton (file : Text) (node : Node) :
    included file [node] = (node.reference? file).toList ++
      included file node.children := by
  rw [included_cons, included_nil, List.append_nil]

/-- A recorded include has the name and the place of its node. -/
theorem mem_included_iff {file : Text} {nodes : List Node}
    {reference : IncludeReference} :
    reference ∈ included file nodes ↔
      ∃ arguments body span, .including reference.name arguments body span ∈
        walkList nodes ∧
        reference.location = ⟨file, span⟩ := by
  constructor
  · intro member
    obtain ⟨node, inside, isReference⟩ := List.mem_filterMap.mp member
    cases node with
    | including name arguments body span =>
        rw [← Option.some.inj isReference]
        exact ⟨arguments, body, span, inside, rfl⟩
    | rule selector comment children span => cases isReference
    | atRule rule comment body span => cases isReference
    | importing kind targets span => cases isReference
  · rintro ⟨arguments, body, span, inside, place⟩
    refine List.mem_filterMap.mpr ⟨_, inside, ?_⟩
    rw [reference?, ← place]

end Node

namespace SourceFile

open Node (included included_nil included_cons included_singleton)

section Includes

variable {file : Text}

/-! ## Blocks -/

mutual

theorem nodeReferences_eq :
    ∀ node : Node, nodeReferences file node = included file [node]
  | .rule selector comment children span => by
      rw [nodeReferences, included_singleton]
      exact blockReferences_eq children
  | .including name arguments (some body) span => by
      rw [nodeReferences, included_singleton, blockReferences_eq body]
      rfl
  | .including name arguments none span => by
      rw [nodeReferences, included_singleton]
      exact congrArg (List.cons _) (included_nil file).symm
  | .atRule rule comment (some body) span => by
      rw [nodeReferences, included_singleton]
      exact blockReferences_eq body
  | .atRule rule comment none span => by
      rw [nodeReferences, included_singleton]
      exact (included_nil file).symm
  | .importing kind targets span => by
      rw [nodeReferences, included_singleton]
      exact (included_nil file).symm

theorem blockReferences_eq :
    ∀ nodes : List Node, blockReferences file nodes = included file nodes
  | [] => by
      rw [blockReferences, included_nil]
  | node :: rest => by
      rw [blockReferences, nodeReferences_eq node, blockReferences_eq rest,
        included_singleton, included_cons]

end

mutual

private theorem references_nodeContents (name : Text) (kind : DeclarationKind) :
    ∀ node : Node, (nodeContents file name kind node).references =
      included file [node]
  | .rule selector comment children span => by
      rw [nodeContents, included_singleton]
      exact references_blockContents _ _ children
  | .including included arguments (some body) span => by
      rw [nodeContents, included_singleton, Contents.append,
        references_blockContents _ _ body]
      rfl
  | .including included arguments none span => by
      rw [nodeContents, included_singleton]
      exact congrArg (List.cons _) (included_nil file).symm
  | .atRule rule comment (some body) span => by
      rw [nodeContents, included_singleton]
      exact references_blockContents _ _ body
  | .atRule rule comment none span => by
      rw [nodeContents, included_singleton]
      exact (included_nil file).symm
  | .importing loads targets span => by
      rw [nodeContents, included_singleton]
      exact (included_nil file).symm

theorem references_blockContents (name : Text) (kind : DeclarationKind) :
    ∀ nodes : List Node, (blockContents file name kind nodes).references =
      included file nodes
  | [] => by
      rw [blockContents, included_nil]
  | node :: rest => by
      rw [blockContents, Contents.append,
        references_nodeContents name kind node, references_blockContents name
          kind rest, included_singleton, included_cons]

end

/-! ## The top of a file -/

namespace Draft

private theorem includes_addRule (draft : Draft) (selector : Text)
    (comment : Option Comment) (children : List Node) (span : Span) :
    (draft.addRule file selector comment children span).includes =
      draft.includes ++ included file children := by
  simp only [addRule]
  split
  · rw [reopen, references_blockContents]
  · split
    · rw [declareRule, declare, references_blockContents]
    · rw [blockReferences_eq]

theorem includes_declareAtRule (draft : Draft) (rule : AtRule)
    (comment : Option Comment) (body : List Node) (span : Span) :
    (draft.declareAtRule file rule comment body span).includes =
      draft.includes ++ included file body := by
  simp only [declareAtRule, declare, references_blockContents]

mutual

private theorem includes_addNode (draft : Draft) : ∀ node : Node,
    (addNode file draft node).includes = draft.includes ++ included file [node]
  | .rule selector comment children span => by
      rw [addNode, included_singleton]
      exact includes_addRule draft selector comment children span
  | .atRule rule comment none span => by
      rw [addNode, included_singleton]
      split
      · exact includes_declareAtRule draft rule comment [] span
      · rw [Node.children, Option.getD_none, included_nil]
        exact (List.append_nil _).symm
  | .atRule rule comment (some body) span => by
      rw [addNode, included_singleton]
      split
      · exact includes_declareAtRule draft rule comment body span
      · split
        · exact includes_addNodes (draft.noteIdleDoc file rule comment) body
        · rw [blockReferences_eq]
          rfl
  | .importing kind targets span => by
      rw [addNode, included_singleton, Node.children, included_nil]
      exact (List.append_nil _).symm
  | .including name arguments body span => by
      rw [addNode, nodeReferences_eq]

theorem includes_addNodes (draft : Draft) : ∀ nodes : List Node,
    (addNodes file draft nodes).includes = draft.includes ++ included file nodes
  | [] => by
      rw [addNodes, included_nil, List.append_nil]
  | node :: rest => by
      rw [addNodes, includes_addNodes (addNode file draft node) rest,
        includes_addNode draft node, included_singleton, included_cons,
        List.append_assoc]

end

end Draft

end Includes

/-- The includes of a file are those of its tree, in order. -/
theorem includes_ofStylesheet (id text : Text) (sheet : Stylesheet) :
    (ofStylesheet id text sheet).file.includes = included id sheet.nodes :=
  Draft.includes_addNodes
    { diagnostics := sheet.orphans.map (orphanDiagnostic id) } sheet.nodes

/-- The includes of nodes that begin one behind another do so too. -/
theorem starts_ascend_included {file : Text} {nodes : List Node}
    (ascend : (Node.walkList nodes).Pairwise fun left right =>
      left.span.start.offset < right.span.start.offset) :
    (included file nodes).Pairwise fun left right =>
      left.location.span.start.offset < right.location.span.start.offset := by
  rw [included, List.pairwise_filterMap]
  apply ascend.imp
  intro left right before first isFirst second isSecond
  rw [Node.location_of_reference? isFirst, Node.location_of_reference? isSecond]
  exact before

/-! ## Names -/

/-- The names of the declarations at the top. -/
def Draft.names (draft : Draft) : List Text :=
  draft.declarations.map (·.name)

private theorem map_updateFirst {α β : Type} {found : α → Bool} {change : α → α}
    {key : α → β} (keeps : ∀ a, key (change a) = key a) (list : List α) :
    (updateFirst found change list).map key = list.map key := by
  induction list with
  | nil => rfl
  | cons a rest ih =>
      rw [updateFirst]
      split
      · rw [List.map_cons, List.map_cons, keeps]
      · rw [List.map_cons, List.map_cons, ih]

namespace Draft

variable {file : Text}

theorem names_declare (draft : Draft) (declaration : Declaration)
    (contents : Contents) :
    (draft.declare declaration contents).names =
      draft.names ++ [declaration.name] := by
  rw [names, declare, List.map_append]
  rfl

private theorem names_reopen (draft : Draft) (selector : Text)
    (earlier : Declaration) (children : List Node) (span : Span) :
    (draft.reopen file selector earlier children span).names = draft.names := by
  apply map_updateFirst
  intro declaration
  rfl

theorem names_addRule (draft : Draft) (selector : Text)
    (comment : Option Comment) (children : List Node) (span : Span) :
    draft.names <+:
      (draft.addRule file selector comment children span).names := by
  simp only [addRule]
  split
  · rw [names_reopen]
    exact List.prefix_refl _
  · split
    · rw [declareRule, names_declare]
      exact List.prefix_append _ _
    · exact List.prefix_refl _

/-- The name under which an at-rule is declared. -/
def atRuleName (rule : AtRule) (comment : Option Comment) : Text :=
  ((comment.bind fun comment => (Doc.extract comment.text).block.name).or
    rule.name).getD rule.prelude

theorem names_declareAtRule (draft : Draft) (rule : AtRule)
    (comment : Option Comment) (body : List Node) (span : Span) :
    (draft.declareAtRule file rule comment body span).names =
      draft.names ++ [atRuleName rule comment] := by
  rw [declareAtRule, names_declare, readDoc_fst, atRuleName, Option.bind_map]
  rfl

mutual

private theorem names_addNode (draft : Draft) : ∀ node : Node,
    draft.names <+: (addNode file draft node).names
  | .rule selector comment children span => by
      rw [addNode]
      exact names_addRule draft selector comment children span
  | .atRule rule comment none span => by
      rw [addNode]
      split
      · rw [names_declareAtRule]
        exact List.prefix_append _ _
      · exact List.prefix_refl _
  | .atRule rule comment (some body) span => by
      rw [addNode]
      split
      · rw [names_declareAtRule]
        exact List.prefix_append _ _
      · split
        · exact names_addNodes (draft.noteIdleDoc file rule comment) body
        · exact List.prefix_refl _
  | .importing kind targets span => by
      rw [addNode]
      exact List.prefix_refl _
  | .including name arguments body span => by
      rw [addNode]
      exact List.prefix_refl _

theorem names_addNodes (draft : Draft) : ∀ nodes : List Node,
    draft.names <+: (addNodes file draft nodes).names
  | [] => by
      unfold addNodes
      exact List.prefix_refl _
  | node :: rest => by
      rw [addNodes]
      exact (names_addNode draft node).trans
        (names_addNodes (addNode file draft node) rest)

end

private theorem names_addNode_of_isDeclared (draft : Draft) {rule : AtRule}
    {comment : Option Comment} (declared : isDeclared rule comment = true)
    (body : Option (List Node)) (span : Span) :
    (addNode file draft (.atRule rule comment body span)).names =
      draft.names ++ [atRuleName rule comment] := by
  cases body <;> rw [addNode, if_pos declared, names_declareAtRule]

private theorem mem_names_addNodes {draft : Draft} {nodes : List Node}
    {rule : AtRule} {comment : Option Comment} {body : Option (List Node)}
    {span : Span} (member : .atRule rule comment body span ∈ nodes)
    (declared : isDeclared rule comment = true) :
    atRuleName rule comment ∈ (addNodes file draft nodes).names := by
  induction nodes generalizing draft with
  | nil => exact (List.not_mem_nil member).elim
  | cons node rest ih =>
      rw [addNodes]
      rcases List.mem_cons.mp member with rfl | later
      · apply (names_addNodes _ rest).subset
        rw [names_addNode_of_isDeclared draft declared]
        exact List.mem_append_right _ List.mem_cons_self
      · exact ih later

end Draft

/-- An at-rule at the top that is declared gives its file a declaration of its
name. -/
theorem exists_declaration_of_isDeclared {id text : Text} {sheet : Stylesheet}
    {rule : AtRule} {comment : Option Comment} {body : Option (List Node)}
    {span : Span} (member : .atRule rule comment body span ∈ sheet.nodes)
    (declared : Draft.isDeclared rule comment = true) :
    ∃ declaration ∈ (ofStylesheet id text sheet).file.declarations,
      declaration.name = Draft.atRuleName rule comment :=
  List.mem_map.mp (Draft.mem_names_addNodes member declared)

end SourceFile

end StyleAudit
