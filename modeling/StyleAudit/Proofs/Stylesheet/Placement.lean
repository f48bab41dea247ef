import StyleAudit.Proofs.Outline.Flatten
import StyleAudit.Proofs.Position
import StyleAudit.Proofs.Token.Tiling

/-!
# Everything in a stylesheet is where it says

A node, a comment or the path of an import takes its span from tokens that stand
in the source in this order.  The tokens show their own text, so the spans do
begin and end in the source where they say.
-/

namespace StyleAudit

/-! ## Tokens -/

namespace Token

/-- The tokens stand in the source, in this order. -/
structure InOrder (source : Text) (tokens : List Token) : Prop where
  shown : ∀ token ∈ tokens, Span.Shows source token.text token.span
  ordered : tokens.Pairwise fun left right => left.span.stop.offset ≤
    right.span.start.offset

theorem inOrder_scan (source : Text) : InOrder source (scan source) := by
  have laid := layout_scan source
  refine ⟨?_, laid.ordered⟩
  intro token member
  rcases laid.mem_cases member with ⟨before, c, rest, -, rfl, rfl⟩ | rfl
  · exact ⟨before, readAt_isPrefix before c rest, rfl⟩
  · refine ⟨source, ?_, ?_⟩
    · exact (List.append_nil source).symm ▸ List.prefix_refl source
    · rw [endAt, Span.point, List.append_nil]

namespace InOrder

variable {source : Text} {tokens : List Token}

theorem sublist (inOrder : InOrder source tokens) {some : List Token}
    (inside : some.Sublist tokens) : InOrder source some where
  shown := fun token member => inOrder.shown token (inside.subset member)
  ordered := inOrder.ordered.sublist inside

theorem isExact (inOrder : InOrder source tokens) {token : Token}
    (member : token ∈ tokens) :
    Span.IsExact source token.span :=
  ⟨token.text, inOrder.shown token member⟩

theorem isExact_joined {first last : Token} {rest : List Token}
    (inOrder : InOrder source (first :: rest)) (member : last ∈ first :: rest) :
    Span.IsExact source (first.span.joined last.span) := by
  have firstExact :=
    inOrder.isExact (List.mem_cons_self : first ∈ first :: rest)
  have lastExact := inOrder.isExact member
  apply firstExact.joined lastExact
  have firstOrdered := firstExact.real.ordered
  have lastOrdered := lastExact.real.ordered
  rcases List.mem_cons.mp member with rfl | later
  · exact firstOrdered
  · have between := (List.pairwise_cons.mp inOrder.ordered).1 last later
    omega

theorem isExact_runSpan (inOrder : InOrder source tokens) :
    Span.IsExact source (runSpan tokens) := by
  cases tokens with
  | nil => exact Span.isExact_point List.nil_prefix
  | cons token rest =>
      exact inOrder.isExact_joined List.getLastD_mem_cons

end InOrder

end Token

/-! ## Heads -/

namespace Head

/-- The stylesheets that a head names. -/
def importTargets : Head → List ImportTarget
  | .importing _ targets => targets
  | .style _ | .atRule _ | .including _ _ => []

private theorem isExact_of_mem_targets {source : Text} {tokens : List Token}
    (inOrder : Token.InOrder source tokens) {target : ImportTarget}
    (member : target ∈ targets tokens) : Span.IsExact source target.span := by
  fun_induction targets tokens with
  | case1 => exact (List.not_mem_nil member).elim
  | case2 span text gap inner last _ _ rest ih =>
      rcases List.mem_cons.mp member with rfl | later
      · exact inOrder.isExact_joined (List.mem_cons_of_mem _ List.mem_cons_self)
      · exact ih (inOrder.sublist (List.sublist_append_right [_, _] rest)) later
  | case3 name span text gap inner last _ _ rest _ ih =>
      exact ih (inOrder.sublist (List.sublist_append_right [_, _] rest)) member
  | case4 path span text gap rest ih =>
      rcases List.mem_cons.mp member with rfl | later
      · exact inOrder.isExact List.mem_cons_self
      · exact ih (inOrder.sublist (List.sublist_cons_self _ rest)) later
  | case5 token rest _ _ ih =>
      exact ih (inOrder.sublist (List.sublist_cons_self _ rest)) member

theorem isExact_of_mem_importTargets {source : Text} {tokens : List Token}
    (inOrder : Token.InOrder source tokens) {target : ImportTarget}
    (member : target ∈ (ofTokens tokens).importTargets) :
    Span.IsExact source target.span := by
  unfold ofTokens at member
  split at member
  · split at member
    · exact isExact_of_mem_targets
        (inOrder.sublist (List.sublist_cons_self _ _)) member
    · split at member
      · rename_i rest _ _ _
        have none : (includingOf rest).importTargets = [] := by
          unfold includingOf
          split <;> rfl
        rw [none] at member
        exact (List.not_mem_nil member).elim
      · exact (List.not_mem_nil member).elim
  · exact (List.not_mem_nil member).elim

end Head

/-! ## Nodes -/

/-- The comment stands in the source where its span says. -/
def Comment.Placed (source : Text) (comment : Comment) : Prop :=
  Span.Shows source comment.text comment.span

namespace Node

/-- The stylesheets that an import names. -/
def importTargets : Node → List ImportTarget
  | .importing _ targets _ => targets
  | .rule _ _ _ _ | .atRule _ _ _ _ | .including _ _ _ _ => []

mutual

/-- The node and all inside it, each in front of what it holds. -/
def walk : Node → List Node
  | .rule selector doc children span =>
    .rule selector doc children span :: walkList children
  | .atRule head doc none span => [.atRule head doc none span]
  | .atRule head doc (some body) span =>
    .atRule head doc (some body) span :: walkList body
  | .importing kind targets span => [.importing kind targets span]
  | .including name arguments none span => [.including name arguments none span]
  | .including name arguments (some body) span =>
    .including name arguments (some body) span :: walkList body

/-- The nodes of a list and all inside them. -/
def walkList : List Node → List Node
  | [] => []
  | node :: rest => walk node ++ walkList rest

end

theorem walkList_append (left right : List Node) :
    walkList (left ++ right) = walkList left ++ walkList right := by
  induction left with
  | nil => rw [walkList, List.nil_append, List.nil_append]
  | cons node rest ih =>
      rw [List.cons_append, walkList, walkList, ih, List.append_assoc]

theorem walkList_singleton (node : Node) : walkList [node] = node.walk := by
  rw [walkList, walkList, List.append_nil]

theorem walk_eq (node : Node) : node.walk = node :: walkList node.children := by
  cases node with
  | rule selector doc children span => rw [walk, Node.children]
  | atRule rule doc body span =>
      cases body <;> simp [walk, Node.children, walkList]
  | importing kind targets span => rw [walk, Node.children, walkList]
  | including name arguments body span =>
      cases body <;> simp [walk, Node.children, walkList]

mutual

theorem motive_children {motive : List Node → Prop} (nil : motive [])
    (cons : ∀ node rest, motive node.children → motive rest →
      motive (node :: rest)) :
    ∀ node : Node, motive node.children
  | .rule _ _ children _ => forest_induction nil cons children
  | .atRule _ _ none _ => nil
  | .atRule _ _ (some body) _ => forest_induction nil cons body
  | .importing _ _ _ => nil
  | .including _ _ none _ => nil
  | .including _ _ (some body) _ => forest_induction nil cons body

/-- What holds of no nodes, and of some nodes if it holds of what is inside the
first of them and of the others, holds of all nodes. -/
theorem forest_induction {motive : List Node → Prop} (nil : motive [])
    (cons : ∀ node rest, motive node.children → motive rest →
      motive (node :: rest)) :
    ∀ nodes : List Node, motive nodes
  | [] => nil
  | node :: rest =>
      cons node rest (motive_children nil cons node)
        (forest_induction nil cons rest)

end

/-- The node, its comment and what it imports stand in the source where they
say. -/
structure Placed (source : Text) (node : Node) : Prop where
  span : Span.IsExact source node.span
  doc : ∀ comment ∈ node.doc, comment.Placed source
  targets : ∀ target ∈ node.importTargets, Span.IsExact source target.span

end Node

namespace Stylesheet

/-- Everything in the stylesheet stands in the source where it says. -/
structure Placed (source : Text) (sheet : Stylesheet) : Prop where
  nodes : ∀ node ∈ Node.walkList sheet.nodes, node.Placed source
  orphans : ∀ orphan ∈ sheet.orphans, Span.IsExact source orphan.span

section Items

variable {source : Text} {pending : Option Comment}

theorem Placed.append {left right : Stylesheet} (first : left.Placed source)
    (second : right.Placed source) : (left.append right).Placed source := by
  constructor
  · intro node member
    rw [Stylesheet.append, Node.walkList_append] at member
    rcases List.mem_append.mp member with inLeft | inRight
    · exact first.nodes node inLeft
    · exact second.nodes node inRight
  · intro orphan member
    rcases List.mem_append.mp member with inLeft | inRight
    · exact first.orphans orphan inLeft
    · exact second.orphans orphan inRight

theorem isExact_of_mem_ofPending
    (waiting : ∀ comment ∈ pending, comment.Placed source)
    {reason : OrphanReason} {orphan : Orphan}
    (member : orphan ∈ Orphan.ofPending reason pending) :
    Span.IsExact source orphan.span := by
  cases pending with
  | none => exact (List.not_mem_nil member).elim
  | some comment =>
      rw [Orphan.ofPending] at member
      split at member
      · rw [List.mem_singleton.mp member]
        exact ⟨comment.text, waiting comment rfl⟩
      · exact (List.not_mem_nil member).elim

theorem placed_orphans (waiting : ∀ comment ∈ pending, comment.Placed source)
    (reason : OrphanReason) :
    (Stylesheet.mk [] (Orphan.ofPending reason pending)).Placed source := by
  refine ⟨?_, fun orphan member => isExact_of_mem_ofPending waiting member⟩
  intro node member
  rw [Node.walkList] at member
  exact (List.not_mem_nil member).elim

theorem placed_node {node : Node} {inner : List Node} {orphans : List Orphan}
    (walk : node.walk = node :: inner) (own : node.Placed source)
    (inside : ∀ other ∈ inner, other.Placed source)
    (exactOrphans : ∀ orphan ∈ orphans, Span.IsExact source orphan.span) :
    (Stylesheet.mk [node] orphans).Placed source := by
  refine ⟨?_, exactOrphans⟩
  intro other member
  rw [Node.walkList_singleton, walk] at member
  rcases List.mem_cons.mp member with rfl | inInner
  · exact own
  · exact inside other inInner

theorem placed_leaf {node : Node} {orphans : List Orphan}
    (walk : node.walk = [node]) (own : node.Placed source)
    (exactOrphans : ∀ orphan ∈ orphans, Span.IsExact source orphan.span) :
    (Stylesheet.mk [node] orphans).Placed source :=
  placed_node walk own nofun exactOrphans

private theorem placed_ofStatement
    (waiting : ∀ comment ∈ pending, comment.Placed source) {span : Span}
    (isExact : Span.IsExact source span) {head : Head}
    (targets : ∀ target ∈ head.importTargets, Span.IsExact source target.span) :
    (ofStatement pending span head).Placed source := by
  have orphans : ∀ orphan ∈ Orphan.ofPending .notDeclarable pending,
      Span.IsExact source orphan.span :=
    fun orphan member => isExact_of_mem_ofPending waiting member
  cases head with
  | style selector => exact placed_orphans waiting .notDeclarable
  | atRule rule =>
      exact placed_leaf (by rw [Node.walk]) ⟨isExact, waiting, nofun⟩ nofun
  | importing kind names =>
      exact placed_leaf (by rw [Node.walk]) ⟨isExact, nofun, targets⟩ orphans
  | including name arguments =>
      exact placed_leaf (by rw [Node.walk]) ⟨isExact, nofun, nofun⟩ orphans

private theorem placed_ofBlock
    (waiting : ∀ comment ∈ pending, comment.Placed source) {span : Span}
    (isExact : Span.IsExact source span) {inner : Stylesheet}
    (inside : inner.Placed source) {head : Head}
    (targets : ∀ target ∈ head.importTargets, Span.IsExact source target.span) :
    (ofBlock pending span inner head).Placed source := by
  have orphans :
      ∀ orphan ∈ inner.orphans ++ Orphan.ofPending .notDeclarable pending,
        Span.IsExact source orphan.span := by
    intro orphan member
    rcases List.mem_append.mp member with inInner | inPending
    · exact inside.orphans orphan inInner
    · exact isExact_of_mem_ofPending waiting inPending
  cases head with
  | style selector =>
      exact placed_node (by rw [Node.walk]) ⟨isExact, waiting, nofun⟩
        inside.nodes inside.orphans
  | atRule rule =>
      exact placed_node (by rw [Node.walk]) ⟨isExact, waiting, nofun⟩
        inside.nodes inside.orphans
  | importing kind names =>
      exact placed_leaf (by rw [Node.walk]) ⟨isExact, nofun, targets⟩ orphans
  | including name arguments =>
      exact placed_node (by rw [Node.walk]) ⟨isExact, nofun, nofun⟩
        inside.nodes orphans

end Items

mutual

private theorem placed_ofItem {source : Text} {pending : Option Comment}
    (waiting : ∀ comment ∈ pending, comment.Placed source) :
    ∀ item : Item, Token.InOrder source item.tokens →
      (ofItem pending item).1.Placed source ∧
        ∀ comment ∈ (ofItem pending item).2, comment.Placed source
  | .comment style token, inOrder => by
      rw [Item.tokens] at inOrder
      rw [ofItem]
      refine ⟨placed_orphans waiting .superseded, ?_⟩
      intro comment member
      obtain rfl := Option.some.inj (Option.mem_def.mp member)
      exact inOrder.shown token List.mem_cons_self
  | .separator token, _ => by
      rw [ofItem]
      exact ⟨@placed_orphans source none nofun .superseded, waiting⟩
  | .statement head semicolon, inOrder => by
      rw [Item.tokens] at inOrder
      rw [ofItem]
      refine ⟨placed_ofStatement waiting inOrder.isExact_runSpan ?_, nofun⟩
      intro target member
      exact Head.isExact_of_mem_importTargets
        (inOrder.sublist (List.sublist_append_left head _)) member
  | .block head opening items closing, inOrder => by
      rw [Item.tokens] at inOrder
      have inside : (Item.tokensOf items).Sublist
          (head ++ [opening] ++ Item.tokensOf items ++ [closing]) :=
        (List.sublist_append_right _ _).trans (List.sublist_append_left _ _)
      have around : (head ++ [opening, closing]).Sublist
          (head ++ [opening] ++ Item.tokensOf items ++ [closing]) := by
        rw [List.append_cons]
        exact (List.sublist_append_left _ _).append
          (List.Sublist.refl [closing])
      rw [ofItem]
      refine ⟨placed_ofBlock waiting (inOrder.sublist around).isExact_runSpan
        ?_ ?_, nofun⟩
      · exact @placed_ofItems source none nofun items (inOrder.sublist inside)
      · intro target member
        exact Head.isExact_of_mem_importTargets
          ((inOrder.sublist around).sublist (List.sublist_append_left head _))
          member

theorem placed_ofItems {source : Text} {pending : Option Comment}
    (waiting : ∀ comment ∈ pending, comment.Placed source) :
    ∀ items : List Item, Token.InOrder source (Item.tokensOf items) →
      (ofItems pending items).Placed source
  | [], _ => by
      rw [ofItems]
      exact placed_orphans waiting .trailing
  | item :: rest, inOrder => by
      rw [Item.tokensOf] at inOrder
      obtain ⟨here, next⟩ := placed_ofItem waiting item
        (inOrder.sublist (List.sublist_append_left _ _))
      rw [ofItems]
      exact here.append
        (placed_ofItems next rest
          (inOrder.sublist (List.sublist_append_right _ _)))

end

/-- A stylesheet that can be read is placed in its source. -/
theorem placed_of_read {source : Text} {sheet : Stylesheet}
    (done : read source = .ok sheet) :
    sheet.Placed source := by
  rcases Outline.ofTokens_cases (Token.scan source) with
    ⟨items, outline, -⟩ | ⟨flaw, token, stopped, -⟩
  · have whole : read source = .ok (ofItems none items) := by
      rw [read, parse, outline]
      rfl
    rw [whole] at done
    rw [← Except.ok.inj done]
    apply @placed_ofItems source none nofun
    rw [Outline.tokensOf_ofTokens outline]
    exact (Token.inOrder_scan source).sublist List.filter_sublist
  · rw [read_of_ofTokens_error stopped] at done
    cases done

/-- A failure to read a stylesheet is at a place of its source. -/
theorem failure_of_read {source : Text} {failure : Failure}
    (failed : read source = .error failure) :
    ∃ front, front <+: source ∧ ∃ detail sourceLine,
      failure.cause = .malformed detail (Position.first.advance front).line
        (Position.first.advance front).column sourceLine := by
  rcases Outline.ofTokens_cases (Token.scan source) with
    ⟨items, outline, -⟩ | ⟨flaw, token, stopped, faulty⟩
  · obtain ⟨sheet, done⟩ := read_of_ofTokens_ok outline
    rw [failed] at done
    cases done
  · obtain ⟨front, begins, span⟩ :=
      (Token.inOrder_scan source).shown token faulty.mem
    rw [read_of_ofTokens_error stopped] at failed
    refine ⟨front, (List.prefix_append front _).trans begins, ?_⟩
    rw [← Except.error.inj failed, failureAt, span]
    exact ⟨_, _, rfl⟩

end Stylesheet

end StyleAudit
