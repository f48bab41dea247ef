import StyleAudit.Proofs.Doc.Issues
import StyleAudit.Proofs.Stylesheet.Placement
import StyleAudit.SourceFile.Build

/-!
# Everything in a file is where it says

What is known of a file once it has been read takes its places from the nodes
and comments of the stylesheet.  So declarations, imports and includes are
placed in the text of the file, and what is remarked on while reading, which is
about comments only, is placed there too.  A file that is not well formed cannot
be read at all, and the failure tells where.
-/

namespace StyleAudit

/-- The location is in the file, and was found by walking over its text. -/
structure Location.IsExact (file source : Text) (location : Location) :
    Prop where
  file : location.file = file
  span : Span.IsExact source location.span

namespace Declaration

theorem walk_eq (declaration : Declaration) :
    declaration.walk = declaration :: walkList declaration.children := by
  cases declaration
  rw [walk]

theorem walkList_eq_flatMap (declarations : List Declaration) :
    walkList declarations = declarations.flatMap walk := by
  induction declarations with
  | nil => rw [walkList, List.flatMap_nil]
  | cons declaration rest ih => rw [walkList, List.flatMap_cons, ih]

theorem walkList_append (left right : List Declaration) :
    walkList (left ++ right) = walkList left ++ walkList right := by
  simp only [walkList_eq_flatMap, List.flatMap_append]

theorem mem_walk_self (declaration : Declaration) :
    declaration ∈ declaration.walk := by
  rw [walk_eq]
  exact List.mem_cons_self

theorem mem_walkList {declaration : Declaration}
    {declarations : List Declaration} (member : declaration ∈ declarations) :
    declaration ∈ walkList declarations := by
  rw [walkList_eq_flatMap]
  exact List.mem_flatMap.mpr ⟨declaration, member, mem_walk_self declaration⟩

mutual

theorem motive_children {motive : List Declaration → Prop} (nil : motive [])
    (cons : ∀ declaration rest, motive declaration.children → motive rest →
      motive (declaration :: rest)) :
    ∀ declaration : Declaration, motive declaration.children
  | ⟨_, _, _, _, _, children, _, _⟩ => forest_induction nil cons children

/-- What holds of no declarations, and of some declarations if it holds of what
is inside the first of them and of the others, holds of all declarations. -/
theorem forest_induction {motive : List Declaration → Prop} (nil : motive [])
    (cons : ∀ declaration rest, motive declaration.children → motive rest →
      motive (declaration :: rest)) :
    ∀ declarations : List Declaration, motive declarations
  | [] => nil
  | declaration :: rest =>
      cons declaration rest (motive_children nil cons declaration)
        (forest_induction nil cons rest)

end

/-- What is directly inside a declaration at any depth is at some depth too. -/
theorem mem_walkList_of_child {declarations : List Declaration}
    {outer inner : Declaration} (member : outer ∈ walkList declarations)
    (child : inner ∈ outer.children) :
    inner ∈ walkList declarations := by
  induction declarations using forest_induction with
  | nil =>
      rw [walkList] at member
      exact (List.not_mem_nil member).elim
  | cons declaration rest ihInside ihRest =>
      rw [walkList, walk_eq] at member ⊢
      rcases List.mem_append.mp member with inFirst | inRest
      · apply List.mem_append_left
        rcases List.mem_cons.mp inFirst with rfl | deeper
        · exact List.mem_cons_of_mem _ (mem_walkList child)
        · exact List.mem_cons_of_mem _ (ihInside deeper)
      · exact List.mem_append_right _ (ihRest inRest)

/-- The declarations and all inside them are placed in the file. -/
def AllPlaced (file source : Text) (declarations : List Declaration) : Prop :=
  ∀ declaration ∈ walkList declarations,
    declaration.location.IsExact file source

section Placed

variable {file source : Text}

theorem allPlaced_nil : AllPlaced file source [] := by
  intro declaration member
  rw [walkList] at member
  exact (List.not_mem_nil member).elim

theorem AllPlaced.append {left right : List Declaration}
    (first : AllPlaced file source left)
    (second : AllPlaced file source right) :
    AllPlaced file source (left ++ right) := by
  intro declaration member
  rw [walkList_append] at member
  rcases List.mem_append.mp member with inLeft | inRight
  · exact first declaration inLeft
  · exact second declaration inRight

theorem allPlaced_cons_iff {declaration : Declaration}
    {rest : List Declaration} :
    AllPlaced file source (declaration :: rest) ↔
      declaration.location.IsExact file source ∧
        AllPlaced file source declaration.children ∧
          AllPlaced file source rest := by
  simp only [AllPlaced, walkList, walk_eq, List.cons_append, List.mem_cons,
    List.mem_append, or_imp, forall_and, forall_eq]

theorem allPlaced_singleton {declaration : Declaration}
    (own : declaration.location.IsExact file source)
    (inside : AllPlaced file source declaration.children) :
    AllPlaced file source [declaration] :=
  allPlaced_cons_iff.mpr ⟨own, inside, allPlaced_nil⟩

/-- A change that moves nothing and adds what is placed keeps everything
placed. -/
theorem AllPlaced.updateFirst {declarations : List Declaration}
    (placed : AllPlaced file source declarations) (found : Declaration → Bool)
    {change : Declaration → Declaration}
    (changed : ∀ declaration, declaration.location.IsExact file source →
      AllPlaced file source declaration.children →
      AllPlaced file source [change declaration]) :
    AllPlaced file source
      (SourceFile.updateFirst found change declarations) := by
  induction declarations with
  | nil => exact placed
  | cons declaration rest ih =>
      obtain ⟨own, inside, others⟩ := allPlaced_cons_iff.mp placed
      rw [SourceFile.updateFirst]
      split
      · exact (changed declaration own inside).append others
      · exact allPlaced_cons_iff.mpr ⟨own, inside, ih others⟩

end Placed

end Declaration

open Declaration (AllPlaced allPlaced_nil allPlaced_singleton)

namespace SourceFile

/-- A finding about a comment: the comment documents nothing, or something is
wrong with one of its lines. -/
structure Remark (file source : Text) (diagnostic : Diagnostic) : Prop where
  file : diagnostic.location.file = file
  about : (diagnostic.code = .orphanComment ∧
      Span.IsExact source diagnostic.location.span) ∨
    ((diagnostic.code = .malformedTag ∨ diagnostic.code = .duplicateTag) ∧
      Span.IsReckoned source diagnostic.location.span)
  related : diagnostic.related = []

/-- All findings are placed in the file. -/
def Remarks (file source : Text) (diagnostics : List Diagnostic) : Prop :=
  ∀ diagnostic ∈ diagnostics, Remark file source diagnostic

/-- All includes are placed in the file. -/
def References (file source : Text) (references : List IncludeReference) :
    Prop :=
  ∀ reference ∈ references, reference.location.IsExact file source

section Reading

variable {file source : Text}

theorem Remarks.append {left right : List Diagnostic}
    (first : Remarks file source left) (second : Remarks file source right) :
    Remarks file source (left ++ right) := by
  intro diagnostic member
  rcases List.mem_append.mp member with inLeft | inRight
  · exact first diagnostic inLeft
  · exact second diagnostic inRight

theorem References.append {left right : List IncludeReference}
    (first : References file source left)
    (second : References file source right) :
    References file source (left ++ right) := by
  intro reference member
  rcases List.mem_append.mp member with inLeft | inRight
  · exact first reference inLeft
  · exact second reference inRight

theorem references_singleton (name : Text) {span : Span}
    (isExact : Span.IsExact source span) :
    References file source [⟨name, ⟨file, span⟩⟩] := by
  intro reference member
  rw [List.mem_singleton.mp member]
  exact ⟨rfl, isExact⟩

theorem remarks_readDoc {comment : Option Comment}
    (placed : ∀ documenting ∈ comment, documenting.Placed source) :
    Remarks file source (readDoc file comment).2 := by
  cases comment with
  | none => exact nofun
  | some comment =>
      intro diagnostic member
      obtain ⟨issue, inIssues, rfl⟩ := List.mem_map.mp member
      refine ⟨rfl,
        .inr ⟨?_, issue.isReckoned_locate (placed comment rfl) inIssues⟩, rfl⟩
      cases issue.cause.isRepeated with
      | true => exact .inr rfl
      | false => exact .inl rfl

/-! ## Blocks -/

/-- All nodes and all inside them are placed in the source. -/
def Nodes (source : Text) (nodes : List Node) : Prop :=
  ∀ node ∈ Node.walkList nodes, node.Placed source

theorem nodes_nil : Nodes source [] := by
  intro node member
  rw [Node.walkList] at member
  exact (List.not_mem_nil member).elim

theorem nodes_cons_iff {node : Node} {rest : List Node} :
    Nodes source (node :: rest) ↔ Nodes source [node] ∧ Nodes source rest := by
  simp only [Nodes, Node.walkList, List.append_nil, List.mem_append,
    or_imp, forall_and]

theorem nodes_rule_iff {selector : Text} {comment : Option Comment}
    {children : List Node} {span : Span} :
    Nodes source [.rule selector comment children span] ↔
      (Node.rule selector comment children span).Placed source ∧
        Nodes source children := by
  simp only [Nodes, Node.walkList, Node.walk, List.append_nil, List.mem_cons,
    or_imp, forall_and, forall_eq]

theorem nodes_atRule_iff {rule : AtRule} {comment : Option Comment}
    {body : List Node} {span : Span} :
    Nodes source [.atRule rule comment (some body) span] ↔
      (Node.atRule rule comment (some body) span).Placed source ∧
        Nodes source body := by
  simp only [Nodes, Node.walkList, Node.walk, List.append_nil, List.mem_cons,
    or_imp, forall_and, forall_eq]

theorem nodes_including_iff {name : Text} {arguments : Option Text}
    {body : List Node} {span : Span} :
    Nodes source [.including name arguments (some body) span] ↔
      (Node.including name arguments (some body) span).Placed source ∧
        Nodes source body := by
  simp only [Nodes, Node.walkList, Node.walk, List.append_nil, List.mem_cons,
    or_imp, forall_and, forall_eq]

theorem Nodes.own {node : Node} (placed : Nodes source [node]) :
    node.Placed source := by
  apply placed
  rw [Node.walkList_singleton]
  cases node with
  | rule selector comment children span =>
      rw [Node.walk]
      exact List.mem_cons_self
  | atRule rule comment body span =>
      cases body <;> rw [Node.walk] <;> exact List.mem_cons_self
  | importing kind targets span =>
      rw [Node.walk]
      exact List.mem_cons_self
  | including name arguments body span =>
      cases body <;> rw [Node.walk] <;> exact List.mem_cons_self

/-- What a block adds is placed in the file. -/
structure Contents.Placed (file source : Text) (contents : Contents) :
    Prop where
  children : AllPlaced file source contents.children
  references : References file source contents.references
  diagnostics : Remarks file source contents.diagnostics

theorem placed_empty : Contents.Placed file source {} :=
  ⟨allPlaced_nil, nofun, nofun⟩

theorem Contents.Placed.append {left right : Contents}
    (first : left.Placed file source) (second : right.Placed file source) :
    (left.append right).Placed file source :=
  ⟨first.children.append second.children,
    first.references.append second.references,
    first.diagnostics.append second.diagnostics⟩

theorem placed_ofInclude (name : Text) {span : Span}
    (isExact : Span.IsExact source span) :
    (Contents.ofInclude file name span).Placed file source :=
  ⟨allPlaced_nil, references_singleton name isExact, nofun⟩

mutual

private theorem placed_nodeContents (name : Text) (kind : DeclarationKind) :
    ∀ node, Nodes source [node] →
      (nodeContents file name kind node).Placed file source
  | .rule selector comment children span, placed => by
      obtain ⟨own, inside⟩ := nodes_rule_iff.mp placed
      have inner :=
        placed_blockContents (childName name selector (readDoc file comment).1)
          (childKind kind (readDoc file comment).1) children inside
      rw [nodeContents]
      exact ⟨allPlaced_singleton ⟨rfl, own.span⟩ inner.children,
        inner.references, (remarks_readDoc own.doc).append inner.diagnostics⟩
  | .including included arguments (some body) span, placed => by
      obtain ⟨own, inside⟩ := nodes_including_iff.mp placed
      rw [nodeContents]
      exact (placed_ofInclude included own.span).append
        (placed_blockContents name kind body inside)
  | .including included arguments none span, placed => by
      rw [nodeContents]
      exact placed_ofInclude included placed.own.span
  | .atRule rule comment (some body) span, placed => by
      rw [nodeContents]
      exact placed_blockContents name kind body (nodes_atRule_iff.mp placed).2
  | .atRule _ _ none _, _ => by
      rw [nodeContents]
      exact placed_empty
  | .importing _ _ _, _ => by
      rw [nodeContents]
      exact placed_empty

theorem placed_blockContents (name : Text) (kind : DeclarationKind) :
    ∀ nodes, Nodes source nodes →
      (blockContents file name kind nodes).Placed file source
  | [], _ => by
      rw [blockContents]
      exact placed_empty
  | node :: rest, placed => by
      obtain ⟨here, later⟩ := nodes_cons_iff.mp placed
      rw [blockContents]
      exact (placed_nodeContents name kind node here).append
        (placed_blockContents name kind rest later)

end

mutual

theorem placed_nodeReferences :
    ∀ node, Nodes source [node] →
      References file source (nodeReferences file node)
  | .rule selector comment children span, placed => by
      rw [nodeReferences]
      exact placed_blockReferences children (nodes_rule_iff.mp placed).2
  | .including name arguments (some body) span, placed => by
      obtain ⟨own, inside⟩ := nodes_including_iff.mp placed
      rw [nodeReferences]
      exact (references_singleton name own.span).append
        (placed_blockReferences body inside)
  | .including name arguments none span, placed => by
      rw [nodeReferences]
      exact references_singleton name placed.own.span
  | .atRule rule comment (some body) span, placed => by
      rw [nodeReferences]
      exact placed_blockReferences body (nodes_atRule_iff.mp placed).2
  | .atRule _ _ none _, _ => by
      rw [nodeReferences]
      exact nofun
  | .importing _ _ _, _ => by
      rw [nodeReferences]
      exact nofun

theorem placed_blockReferences :
    ∀ nodes, Nodes source nodes →
      References file source (blockReferences file nodes)
  | [], _ => by
      rw [blockReferences]
      exact nofun
  | node :: rest, placed => by
      obtain ⟨here, later⟩ := nodes_cons_iff.mp placed
      rw [blockReferences]
      exact (placed_nodeReferences node here).append
        (placed_blockReferences rest later)

end

/-! ## The top of the file -/

namespace Draft

/-- What is known so far is placed in the file. -/
structure Placed (file source : Text) (draft : Draft) : Prop where
  declarations : AllPlaced file source draft.declarations
  imports : ∀ reference ∈ draft.imports, reference.location.IsExact file source
  includes : References file source draft.includes
  diagnostics : Remarks file source draft.diagnostics

theorem Placed.note {draft : Draft} (placed : draft.Placed file source)
    {diagnostics : List Diagnostic}
    (remarks : Remarks file source diagnostics) :
    Placed file source
      { draft with diagnostics := draft.diagnostics ++ diagnostics } :=
  ⟨placed.declarations, placed.imports, placed.includes,
    placed.diagnostics.append remarks⟩

theorem Placed.refer {draft : Draft} (placed : draft.Placed file source)
    {references : List IncludeReference}
    (included : References file source references) :
    Placed file source
      { draft with includes := draft.includes ++ references } :=
  ⟨placed.declarations, placed.imports, placed.includes.append included,
    placed.diagnostics⟩

theorem Placed.declare {draft : Draft} (placed : draft.Placed file source)
    {declaration : Declaration} (own : declaration.location.IsExact file source)
    {contents : Contents} (inside : contents.Placed file source) :
    (draft.declare declaration contents).Placed file source :=
  ⟨placed.declarations.append (allPlaced_singleton own inside.children),
    placed.imports, placed.includes.append inside.references,
    placed.diagnostics.append inside.diagnostics⟩

theorem Placed.reopen {draft : Draft} (placed : draft.Placed file source)
    (selector : Text) (earlier : Declaration) {children : List Node}
    (inside : Nodes source children) {span : Span}
    (isExact : Span.IsExact source span) :
    (draft.reopen file selector earlier children span).Placed file source := by
  have contents : (blockContents file earlier.name earlier.kind children).Placed
      file source :=
    placed_blockContents earlier.name earlier.kind children inside
  refine ⟨?_, placed.imports, placed.includes.append contents.references,
    placed.diagnostics.append contents.diagnostics⟩
  apply placed.declarations.updateFirst
  intro declaration own inner
  exact allPlaced_singleton own
    (inner.append (allPlaced_singleton ⟨rfl, isExact⟩ contents.children))

theorem Placed.addRule {draft : Draft} (placed : draft.Placed file source)
    (selector : Text) {comment : Option Comment} {children : List Node}
    {span : Span}
    (own : (Node.rule selector comment children span).Placed source)
    (inside : Nodes source children) :
    (draft.addRule file selector comment children span).Placed file source := by
  have noted := placed.note (remarks_readDoc own.doc)
  simp only [Draft.addRule]
  split
  · exact noted.reopen selector _ inside own.span
  · split
    · exact noted.declare ⟨rfl, own.span⟩
        (placed_blockContents _ _ children inside)
    · exact noted.refer (placed_blockReferences children inside)

theorem Placed.declareAtRule {draft : Draft} (placed : draft.Placed file source)
    (rule : AtRule) {comment : Option Comment}
    (documented : ∀ documenting ∈ comment, documenting.Placed source)
    {body : List Node} (inside : Nodes source body) {span : Span}
    (isExact : Span.IsExact source span) :
    (draft.declareAtRule file rule comment body span).Placed file source :=
  (placed.note (remarks_readDoc documented)).declare ⟨rfl, isExact⟩
    (placed_blockContents _ _ body inside)

theorem Placed.noteIdleDoc {draft : Draft} (placed : draft.Placed file source)
    (rule : AtRule) {comment : Option Comment}
    (documented : ∀ documenting ∈ comment, documenting.Placed source) :
    (draft.noteIdleDoc file rule comment).Placed file source := by
  apply placed.note
  intro diagnostic member
  obtain ⟨idle, isComment, rfl⟩ := List.mem_map.mp member
  exact ⟨rfl,
    .inl ⟨rfl, idle.text, documented idle (Option.mem_toList.mp isComment)⟩,
    rfl⟩

mutual

private theorem placed_addNode {draft : Draft}
    (before : draft.Placed file source) :
    ∀ node, Nodes source [node] → (addNode file draft node).Placed file source
  | .rule selector comment children span, placed => by
      obtain ⟨own, inside⟩ := nodes_rule_iff.mp placed
      rw [addNode]
      exact before.addRule selector own inside
  | .atRule rule comment none span, placed => by
      rw [addNode]
      split
      · exact before.declareAtRule rule placed.own.doc nodes_nil placed.own.span
      · exact before.noteIdleDoc rule placed.own.doc
  | .atRule rule comment (some body) span, placed => by
      obtain ⟨own, inside⟩ := nodes_atRule_iff.mp placed
      have noted := before.noteIdleDoc rule own.doc
      rw [addNode]
      split
      · exact before.declareAtRule rule own.doc inside own.span
      · split
        · exact placed_addNodes noted body inside
        · exact noted.refer (placed_blockReferences body inside)
  | .importing kind targets span, placed => by
      rw [addNode]
      refine ⟨before.declarations, ?_, before.includes, before.diagnostics⟩
      intro reference member
      rcases List.mem_append.mp member with old | new
      · exact before.imports reference old
      · obtain ⟨target, inTargets, rfl⟩ := List.mem_map.mp new
        exact ⟨rfl, placed.own.targets target inTargets⟩
  | .including name arguments body span, placed => by
      rw [addNode]
      exact before.refer (placed_nodeReferences _ placed)

theorem placed_addNodes {draft : Draft} (before : draft.Placed file source) :
    ∀ nodes, Nodes source nodes → (addNodes file draft nodes).Placed file source
  | [], _ => by
      rw [addNodes]
      exact before
  | node :: rest, placed => by
      obtain ⟨here, later⟩ := nodes_cons_iff.mp placed
      rw [addNodes]
      exact placed_addNodes (placed_addNode before node here) rest later

end

end Draft

end Reading

/-! ## The whole file -/

/-- What a reading holds is placed in the text that was read. -/
structure Reading.Placed (id text : Text) (reading : Reading) : Prop where
  declarations : AllPlaced id text reading.file.declarations
  imports : ∀ reference ∈ reading.file.imports,
    reference.location.IsExact id text
  includes : References id text reading.file.includes
  diagnostics : Remarks id text reading.diagnostics

theorem placed_of_read {id text : Text} {reading : Reading}
    (done : read id text = .ok reading) :
    reading.Placed id text := by
  rw [read] at done
  split at done
  · rename_i sheet parsed
    have placed := Stylesheet.placed_of_read parsed
    have begun : Draft.Placed id text
        { diagnostics := sheet.orphans.map (orphanDiagnostic id) } := by
      refine ⟨allPlaced_nil, nofun, nofun, ?_⟩
      intro diagnostic member
      obtain ⟨orphan, inSheet, rfl⟩ := List.mem_map.mp member
      exact ⟨rfl, .inl ⟨rfl, placed.orphans orphan inSheet⟩, rfl⟩
    have added := Draft.placed_addNodes begun sheet.nodes placed.nodes
    rw [← Except.ok.inj done]
    exact ⟨added.declarations, added.imports, added.includes, added.diagnostics⟩
  · cases done

theorem id_of_read {id text : Text} {reading : Reading}
    (done : read id text = .ok reading) :
    reading.file.id = id := by
  rw [read] at done
  split at done
  · rw [← Except.ok.inj done]
    rfl
  · cases done

/-- All findings are about comments. -/
def AboutComments (diagnostics : List Diagnostic) : Prop :=
  ∀ diagnostic ∈ diagnostics,
    diagnostic.code ∈ [Code.orphanComment, Code.malformedTag, Code.duplicateTag]

theorem aboutComments_of_read {id text : Text} {reading : Reading}
    (done : read id text = .ok reading) :
    AboutComments reading.diagnostics := by
  intro diagnostic member
  rcases ((placed_of_read done).diagnostics diagnostic member).about with
    ⟨code, -⟩ | ⟨code | code, -⟩ <;> simp [code]

/-- A file that cannot be read is malformed, and the failure tells where. -/
theorem failure_of_read {id text : Text} {failure : Failure}
    (failed : read id text = .error failure) :
    ∃ front, front <+: text ∧ ∃ detail sourceLine,
      failure.cause = .malformed detail (Position.first.advance front).line
        (Position.first.advance front).column sourceLine := by
  rw [read] at failed
  split at failed
  · cases failed
  · rename_i inner stopped
    have cause := Stylesheet.failure_of_read stopped
    rwa [← Except.error.inj failed]

end SourceFile

end StyleAudit
