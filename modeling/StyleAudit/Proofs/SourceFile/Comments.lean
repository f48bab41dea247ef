import StyleAudit.Proofs.SourceFile.Declared
import StyleAudit.Proofs.Stylesheet.Attached

/-!
# What a file does with the comments on its nodes

The comment on a declared node is the doc of its declaration.  The comment on an
at-rule that stands at the top and is not declared is reported, whatever its
style.  All other comments on nodes are passed over: those on at-rules inside of
declarations, and those on anything inside of a rule, at-rule or include that is
not declared.
-/

namespace StyleAudit

namespace Node

open SourceFile.Draft (isDeclared isConditional)

mutual

/-- The at-rules that are looked at and not declared, of a node at the top of a
file. -/
def idle : Node → List Node
  | .atRule head comment none span =>
    if isDeclared head comment then [] else [.atRule head comment none span]
  | .atRule head comment (some body) span =>
    if isDeclared head comment then []
    else .atRule head comment (some body) span :: if isConditional head then
      idleList body else []
  | .rule _ _ _ _ => []
  | .importing _ _ _ => []
  | .including _ _ _ _ => []

/-- The at-rules that are looked at and not declared, of the nodes at the top of
a file. -/
def idleList : List Node → List Node
  | [] => []
  | node :: rest => idle node ++ idleList rest

end

mutual

private theorem idle_sublist : ∀ node : Node, (idle node).Sublist node.walk
  | .atRule head comment none span => by
      rw [idle, walk]
      split
      · exact List.nil_sublist _
      · exact List.Sublist.refl _
  | .atRule head comment (some body) span => by
      rw [idle, walk]
      split
      · exact List.nil_sublist _
      · apply List.Sublist.cons_cons
        split
        · exact idleList_sublist body
        · exact List.nil_sublist _
  | .rule selector comment children span => by
      rw [idle]
      exact List.nil_sublist _
  | .importing kind targets span => by
      rw [idle]
      exact List.nil_sublist _
  | .including name arguments body span => by
      rw [idle]
      exact List.nil_sublist _

theorem idleList_sublist :
    ∀ nodes : List Node, (idleList nodes).Sublist (walkList nodes)
  | [] => by
      rw [idleList]
      exact List.nil_sublist _
  | node :: rest => by
      rw [idleList, walkList]
      exact (idle_sublist node).append (idleList_sublist rest)

end

end Node

namespace SourceFile

/-! ## Which comments are reported -/

/-- Where comments are reported that document nothing. -/
def orphanPlaces (diagnostics : List Diagnostic) : List Location :=
  (diagnostics.filter (·.code = .orphanComment)).map (·.location)

theorem orphanPlaces_append (left right : List Diagnostic) :
    orphanPlaces (left ++ right) = orphanPlaces left ++ orphanPlaces right := by
  rw [orphanPlaces, List.filter_append, List.map_append]
  rfl

theorem orphanPlaces_readDoc (file : Text) (comment : Option Comment) :
    orphanPlaces (readDoc file comment).2 = [] := by
  cases comment with
  | none => rfl
  | some comment =>
      rw [orphanPlaces, List.map_eq_nil_iff, List.filter_eq_nil_iff]
      intro diagnostic member
      obtain ⟨issue, -, rfl⟩ := List.mem_map.mp member
      cases issue.cause.isRepeated <;> simp

mutual

private theorem orphanPlaces_nodeContents (file name : Text)
    (kind : DeclarationKind) : ∀ node : Node,
    orphanPlaces (nodeContents file name kind node).diagnostics = []
  | .rule selector comment children span => by
      rw [nodeContents, orphanPlaces_append, orphanPlaces_readDoc,
        orphanPlaces_blockContents]
      rfl
  | .including included arguments (some body) span => by
      rw [nodeContents]
      exact orphanPlaces_blockContents file name kind body
  | .including included arguments none span => by
      rw [nodeContents]
      rfl
  | .atRule rule comment (some body) span => by
      rw [nodeContents]
      exact orphanPlaces_blockContents file name kind body
  | .atRule rule comment none span => by
      rw [nodeContents]
      rfl
  | .importing loads targets span => by
      rw [nodeContents]
      rfl

theorem orphanPlaces_blockContents (file name : Text) (kind : DeclarationKind) :
    ∀ nodes : List Node,
      orphanPlaces (blockContents file name kind nodes).diagnostics = []
  | [] => by
      rw [blockContents]
      rfl
  | node :: rest => by
      rw [blockContents, Contents.append, orphanPlaces_append,
        orphanPlaces_nodeContents, orphanPlaces_blockContents]
      rfl

end

/-- Where the comments on the nodes are. -/
def docPlaces (file : Text) (nodes : List Node) : List Location :=
  nodes.filterMap fun node => node.doc.map fun comment => ⟨file, comment.span⟩

theorem docPlaces_append (file : Text) (left right : List Node) :
    docPlaces file (left ++ right) = docPlaces file left ++
      docPlaces file right :=
  List.filterMap_append

namespace Draft

variable {file : Text}

theorem orphanPlaces_declare (draft : Draft) (declaration : Declaration)
    {contents : Contents} (silent : orphanPlaces contents.diagnostics = []) :
    orphanPlaces (draft.declare declaration contents).diagnostics =
      orphanPlaces draft.diagnostics := by
  rw [declare, orphanPlaces_append, silent, List.append_nil]

theorem orphanPlaces_addRule (draft : Draft) (selector : Text)
    (comment : Option Comment) (children : List Node) (span : Span) :
    orphanPlaces
      (draft.addRule file selector comment children span).diagnostics =
      orphanPlaces draft.diagnostics := by
  have noted : orphanPlaces (draft.diagnostics ++ (readDoc file comment).2) =
      orphanPlaces draft.diagnostics := by
    rw [orphanPlaces_append, orphanPlaces_readDoc, List.append_nil]
  simp only [addRule]
  split
  · rw [reopen, orphanPlaces_append, orphanPlaces_blockContents,
      List.append_nil]
    exact noted
  · split
    · exact (orphanPlaces_declare _ _
        (orphanPlaces_blockContents file _ _ children)).trans noted
    · exact noted

theorem orphanPlaces_declareAtRule (draft : Draft) (rule : AtRule)
    (comment : Option Comment) (body : List Node) (span : Span) :
    orphanPlaces (draft.declareAtRule file rule comment body span).diagnostics =
      orphanPlaces draft.diagnostics := by
  rw [declareAtRule,
    orphanPlaces_declare _ _ (orphanPlaces_blockContents file _ _ body),
    orphanPlaces_append, orphanPlaces_readDoc, List.append_nil]

/-- A comment on an at-rule that is not declared is reported, whatever its
style. -/
theorem orphanPlaces_noteIdleDoc (draft : Draft) (rule : AtRule)
    (comment : Option Comment) (body : Option (List Node)) (span : Span) :
    orphanPlaces (draft.noteIdleDoc file rule comment).diagnostics =
      orphanPlaces draft.diagnostics ++
        docPlaces file [.atRule rule comment body span] := by
  rw [noteIdleDoc, orphanPlaces_append]
  cases comment <;> rfl

mutual

private theorem orphanPlaces_addNode (draft : Draft) : ∀ node : Node,
    orphanPlaces (addNode file draft node).diagnostics =
      orphanPlaces draft.diagnostics ++ docPlaces file node.idle
  | .rule selector comment children span => by
      rw [addNode, Node.idle, orphanPlaces_addRule]
      exact (List.append_nil _).symm
  | .atRule rule comment none span => by
      rw [addNode, Node.idle]
      split
      · rw [orphanPlaces_declareAtRule]
        exact (List.append_nil _).symm
      · exact orphanPlaces_noteIdleDoc draft rule comment none span
  | .atRule rule comment (some body) span => by
      rw [addNode, Node.idle]
      split
      · rw [orphanPlaces_declareAtRule]
        exact (List.append_nil _).symm
      · have noted :=
          @orphanPlaces_noteIdleDoc file draft rule comment (some body) span
        rw [← List.singleton_append, docPlaces_append,
          ← List.append_assoc, ← noted]
        split
        · exact orphanPlaces_addNodes (draft.noteIdleDoc file rule comment) body
        · exact (List.append_nil _).symm
  | .importing kind targets span => by
      rw [addNode, Node.idle]
      exact (List.append_nil _).symm
  | .including name arguments body span => by
      rw [addNode, Node.idle]
      exact (List.append_nil _).symm

theorem orphanPlaces_addNodes (draft : Draft) : ∀ nodes : List Node,
    orphanPlaces (addNodes file draft nodes).diagnostics =
      orphanPlaces draft.diagnostics ++ docPlaces file (Node.idleList nodes)
  | [] => by
      rw [addNodes, Node.idleList]
      exact (List.append_nil _).symm
  | node :: rest => by
      rw [addNodes, Node.idleList, orphanPlaces_addNodes, orphanPlaces_addNode,
        docPlaces_append, List.append_assoc]

end

end Draft

/-- The orphans of the stylesheet are reported, and the comments on idle
at-rules. -/
theorem orphanPlaces_ofStylesheet (id text : Text) (sheet : Stylesheet) :
    orphanPlaces (ofStylesheet id text sheet).diagnostics =
      sheet.orphans.map (fun orphan => ⟨id, orphan.span⟩) ++
        docPlaces id (Node.idleList sheet.nodes) := by
  have added := @Draft.orphanPlaces_addNodes id
    { diagnostics := sheet.orphans.map (orphanDiagnostic id) } sheet.nodes
  have begun : orphanPlaces (sheet.orphans.map (orphanDiagnostic id)) =
      sheet.orphans.map fun orphan => ⟨id, orphan.span⟩ := by
    rw [orphanPlaces, List.filter_eq_self.mpr, List.map_map]
    · rfl
    · intro diagnostic member
      obtain ⟨orphan, -, rfl⟩ := List.mem_map.mp member
      rfl
  rw [begun] at added
  exact added

/-! ## Which comments are settled -/

/-- The comment on a node is the doc of the declaration of the node. -/
def Reading.Documents (reading : Reading) (node : Node) (comment : Comment) :
    Prop :=
  ∃ declaration ∈ Declaration.walkList reading.file.declarations,
    declaration.location = ⟨reading.file.id, node.span⟩ ∧
      declaration.doc = some (Doc.extract comment.text).block

/-- A comment at the place is reported to document nothing. -/
def Reading.Reports (reading : Reading) (span : Span) : Prop :=
  ∃ diagnostic ∈ reading.diagnostics,
    diagnostic.code = .orphanComment ∧ diagnostic.location =
      ⟨reading.file.id, span⟩

section Sheet

variable {id text : Text} {sheet : Stylesheet}

theorem reports_iff {span : Span} :
    (ofStylesheet id text sheet).Reports span ↔
      (∃ orphan ∈ sheet.orphans, orphan.span = span) ∨
        ∃ node ∈ Node.idleList sheet.nodes,
          ∃ comment ∈ node.doc, comment.span = span := by
  have places : (ofStylesheet id text sheet).Reports span ↔
      ⟨id, span⟩ ∈ orphanPlaces (ofStylesheet id text sheet).diagnostics := by
    simp only [Reading.Reports, orphanPlaces, List.mem_map, List.mem_filter,
      decide_eq_true_eq, and_assoc]
    rfl
  rw [places, orphanPlaces_ofStylesheet, List.mem_append]
  simp [docPlaces]

theorem documents_iff
    (distinct : ((Node.walkList sheet.nodes).map Node.span).Nodup) {node : Node}
    (member : node ∈ Node.walkList sheet.nodes) {comment : Comment}
    (documents : comment ∈ node.doc) :
    (ofStylesheet id text sheet).Documents node comment ↔
      node ∈ Node.declaredList sheet.nodes := by
  constructor
  · rintro ⟨declaration, walked, location, -⟩
    exact (exists_location_iff distinct member).mp
      ⟨declaration, walked, location⟩
  · intro isDeclared
    obtain ⟨declaration, walked, origin⟩ := List.mem_map.mp
      ((origins_ofStylesheet id text sheet).symm.subset
        (List.mem_map_of_mem isDeclared))
    refine ⟨declaration, walked, congrArg Prod.fst origin, ?_⟩
    rw [show declaration.doc = _ from congrArg Prod.snd origin, Node.origin,
      Option.mem_def.mp documents]
    rfl

/-- A comment that documents a node is reported just if the node is an idle
at-rule. -/
theorem reports_doc_iff (parsed : Stylesheet.read text = .ok sheet)
    {node : Node} (member : node ∈ Node.walkList sheet.nodes)
    {comment : Comment} (documents : comment ∈ node.doc) :
    (ofStylesheet id text sheet).Reports comment.span ↔
      node ∈ Node.idleList sheet.nodes := by
  have settled := Stylesheet.mem_settled_of_doc parsed member documents
  rw [reports_iff]
  constructor
  · rintro (⟨orphan, isOrphan, span⟩ | ⟨other, isIdle, shared, onOther, span⟩)
    · obtain ⟨lost, lostSpan, -, orphaned⟩ :=
        Stylesheet.exists_settled_of_orphan parsed isOrphan
      have same :=
        Stylesheet.eq_of_mem_settled orphaned settled (lostSpan.trans span)
      cases (Settlement.mk.inj same).2
    · have walked := (Node.idleList_sublist sheet.nodes).subset isIdle
      have same := Stylesheet.eq_of_mem_settled
        (Stylesheet.mem_settled_of_doc parsed walked onOther) settled span
      have starts : other.span.start = node.span.start :=
        Fate.documents.inj (Settlement.mk.inj same).2
      have isNode :=
        List.inj_on_of_nodup_map (Stylesheet.nodup_starts_of_read parsed) walked
          member starts
      exact isNode ▸ isIdle
  · intro isIdle
    exact .inr ⟨node, isIdle, comment, documents, rfl⟩

/-- A plain comment that no other comment displaces is reported just if it is on
an idle at-rule. -/
theorem reports_plain_iff (parsed : Stylesheet.read text = .ok sheet)
    {front back : List Token} {token : Token} {content : Text}
    (split : Token.scan text = front ++ token :: back)
    (plain : token.kind = .comment .block content)
    (staying : Fate.before back ≠ .orphaned .superseded) :
    (ofStylesheet id text sheet).Reports token.span ↔
      ∃ node ∈ Node.idleList sheet.nodes,
        ∃ comment ∈ node.doc, comment.span = token.span := by
  rw [reports_iff]
  refine or_iff_right ?_
  rintro ⟨orphan, isOrphan, span⟩
  obtain ⟨comment, commentSpan, displaced, settled⟩ :=
    Stylesheet.exists_settled_of_orphan parsed isOrphan
  obtain ⟨front', token', back', content', split', kind', span', fate⟩ :=
    Stylesheet.exists_token_of_mem_settled settled
  have notEnd : token.kind ≠ .endOfInput := by
    rw [plain]
    exact nofun
  obtain ⟨rfl, rfl⟩ := Stylesheet.eq_of_scan_split split split' notEnd
    (span.symm.trans (commentSpan.symm.trans span'.symm))
  have style : comment.style = .block :=
    (Token.Kind.comment.inj (kind'.symm.trans plain)).1
  rw [← fate, displaced style] at staying
  exact staying rfl

end Sheet

/-- The comment on a node is the doc of a declaration, or a doc comment that is
reported, just if the node is declared, or is an idle at-rule with a doc
comment; all others are lost.  And a plain comment that no other comment
displaces is kept from being reported just if it is not on an idle at-rule. -/
theorem comments_on_nodes {id text : Text} {reading : Reading}
    (done : read id text = .ok reading) :
    ∃ sheet, Stylesheet.read text = .ok sheet ∧
      (∀ node ∈ Node.walkList sheet.nodes, ∀ comment ∈ node.doc,
        (reading.Documents node comment ∨
            comment.style ≠ .block ∧ reading.Reports comment.span) ↔
          (node ∈ Node.declaredList sheet.nodes ∨
            comment.style ≠ .block ∧ node ∈ Node.idleList sheet.nodes)) ∧
      ∀ front token back content, Token.scan text = front ++ token :: back →
        token.kind = .comment .block content →
        Fate.before back ≠ .orphaned .superseded →
          (¬ reading.Reports token.span ↔
            ∀ node ∈ Node.idleList sheet.nodes, ∀ comment ∈ node.doc,
              comment.span ≠ token.span) := by
  obtain ⟨sheet, parsed, rfl⟩ := exists_sheet_of_read done
  refine ⟨sheet, parsed, ?_, ?_⟩
  · intro node member comment documents
    have distinct := Stylesheet.nodup_spans_of_read parsed
    rw [documents_iff distinct member documents,
      reports_doc_iff parsed member documents]
  · intro front token back content split plain staying
    rw [reports_plain_iff parsed split plain staying]
    simp only [not_exists, not_and, ne_eq]

/-- A doc comment on a rule, one on an idle at-rule, and a plain comment on a
rule. -/
theorem comments_on_nodes_kept :
    let source :=
      "/** a */.c-a\x7b\x7d/** b */@media x\x7b\x7d/* c */.c-c\x7b\x7d".toList
    ∃ reading sheet, read "a.scss".toList source = .ok reading ∧
      Stylesheet.read source = .ok sheet ∧
      (Node.walkList sheet.nodes).map (·.doc.map (·.style)) =
        [some .doc, some .doc, some .block] ∧
      (∀ node ∈ Node.walkList sheet.nodes, ∀ comment ∈ node.doc,
        reading.Documents node comment ∨
          comment.style ≠ .block ∧ reading.Reports comment.span) ∧
      ¬ reading.Reports ⟨⟨32, 1, 33⟩, ⟨39, 1, 40⟩⟩ := by
  intro source
  obtain ⟨reading, done⟩ : ∃ reading,
    read "a.scss".toList source = .ok reading :=
    exists_of_isOk (by decide +kernel)
  obtain ⟨sheet, parsed, onNodes, plain⟩ := comments_on_nodes done
  have styles : (Stylesheet.read source).map (fun sheet =>
      (Node.walkList sheet.nodes).map (·.doc.map (·.style))) =
      .ok [some .doc, some .doc, some .block] := by
    decide +kernel
  have used : (Stylesheet.read source).map (fun sheet : Stylesheet => decide
      (∀ node ∈ Node.walkList sheet.nodes, ∀ comment ∈ node.doc,
        node ∈ Node.declaredList sheet.nodes ∨
          comment.style ≠ .block ∧ node ∈ Node.idleList sheet.nodes)) =
            .ok true := by
    decide +kernel
  have unblamed : (Stylesheet.read source).map (fun sheet : Stylesheet => decide
      (∀ node ∈ Node.idleList sheet.nodes, ∀ comment ∈ node.doc,
        comment.span ≠ ⟨⟨32, 1, 33⟩, ⟨39, 1, 40⟩⟩)) = .ok true := by
    decide +kernel
  rw [parsed] at styles used unblamed
  have split : Token.scan source = (Token.scan source).take 10 ++
      ⟨.comment .block "/* c */".toList, ⟨⟨32, 1, 33⟩, ⟨39, 1, 40⟩⟩,
        "/* c */".toList, []⟩ ::
        (Token.scan source).drop 11 := by
    decide +kernel
  refine ⟨reading, sheet, done, parsed, Except.ok.inj styles, ?_, ?_⟩
  · intro node member comment documents
    exact (onNodes node member comment documents).mpr
      (of_decide_eq_true (Except.ok.inj used) node member comment documents)
  · apply (plain _ _ _ _ split rfl (by decide +kernel)).mpr
    exact of_decide_eq_true (Except.ok.inj unblamed)

/-- The doc comment of an at-rule inside a rule is lost, and the plain comment
on an at-rule at the top is reported. -/
theorem comments_on_nodes_lost :
    let source :=
      ".c-a\x7b/** b */@media x\x7b\x7d\x7d/* c */@media y\x7b\x7d".toList
    ∃ reading sheet, read "a.scss".toList source = .ok reading ∧
      Stylesheet.read source = .ok sheet ∧ sheet.orphans = [] ∧
      (Node.walkList sheet.nodes).map Node.doc =
        [none, some ⟨.doc, "/** b */".toList, ⟨⟨5, 1, 6⟩, ⟨13, 1, 14⟩⟩⟩,
          some ⟨.block, "/* c */".toList, ⟨⟨24, 1, 25⟩, ⟨31, 1, 32⟩⟩⟩] ∧
      (Declaration.walkList reading.file.declarations).map (·.doc) = [none] ∧
      ¬ reading.Reports ⟨⟨5, 1, 6⟩, ⟨13, 1, 14⟩⟩ ∧
      reading.Reports ⟨⟨24, 1, 25⟩, ⟨31, 1, 32⟩⟩ := by
  intro source
  obtain ⟨reading, done⟩ : ∃ reading,
    read "a.scss".toList source = .ok reading :=
    exists_of_isOk (by decide +kernel)
  obtain ⟨sheet, parsed, rfl⟩ := exists_sheet_of_read done
  have comments : (Stylesheet.read source).map (fun sheet =>
      (sheet.orphans, (Node.walkList sheet.nodes).map Node.doc,
        (Node.idleList sheet.nodes).map Node.doc)) =
      .ok ([], [none, some ⟨.doc, "/** b */".toList, ⟨⟨5, 1, 6⟩, ⟨13, 1, 14⟩⟩⟩,
          some ⟨.block, "/* c */".toList, ⟨⟨24, 1, 25⟩, ⟨31, 1, 32⟩⟩⟩],
        [some ⟨.block, "/* c */".toList, ⟨⟨24, 1, 25⟩, ⟨31, 1, 32⟩⟩⟩]) := by
    decide +kernel
  have docs : (read "a.scss".toList source).map (fun reading =>
      (Declaration.walkList reading.file.declarations).map (·.doc)) =
        .ok [none] := by
    decide +kernel
  rw [parsed] at comments
  rw [done] at docs
  obtain ⟨orphans, rest⟩ := Prod.mk.inj (Except.ok.inj comments)
  obtain ⟨attached, idle⟩ := Prod.mk.inj rest
  obtain ⟨only, isOnly, onOnly⟩ := List.map_eq_singleton_iff.mp idle
  refine ⟨_, sheet, done, parsed, orphans, attached, Except.ok.inj docs, ?_, ?_⟩
  · rw [reports_iff, orphans, isOnly]
    simp [onOnly]
  · rw [reports_iff, orphans, isOnly]
    simp [onOnly]

end SourceFile

end StyleAudit
