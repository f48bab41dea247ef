import Mathlib.Data.List.Flatten
import StyleAudit.Proofs.Stylesheet.Around
import StyleAudit.SourceFile.Build

/-!
# Which nodes are declared

A node that counts as standing at the top of a file is declared if it is a rule
that is documented or names a class, or an at-rule that is declared.  What is
inside an at-rule that is conditional, and not declared itself, counts as
standing beside it.  Inside of a declared node every rule is declared, and
nothing else.
-/

namespace StyleAudit

namespace Node

/-- Is the node a rule? -/
def isRule : Node → Bool
  | .rule _ _ _ _ => true
  | .atRule _ _ _ _ | .importing _ _ _ | .including _ _ _ _ => false

/-- The selector of a rule. -/
def selector : Node → Text
  | .rule selector _ _ _ => selector
  | .atRule _ _ _ _ | .importing _ _ _ | .including _ _ _ _ => []

/-- The class that a rule without a doc comment is for. -/
def plainClass? : Node → Option Text
  | .rule selector none _ _ => Selector.firstClass? selector
  | .rule _ (some _) _ _ | .atRule _ _ _ _ | .importing _ _ _ | .including _
    _ _ _ => none

/-- The rules among the nodes and all inside them. -/
def rulesIn (nodes : List Node) : List Node :=
  (walkList nodes).filter isRule

open SourceFile.Draft (isDeclared isConditional)

mutual

/-- The nodes that become declarations, of a node at the top of a file. -/
def declared : Node → List Node
  | .rule selector comment children span =>
    if comment.isSome || (Selector.firstClass? selector).isSome then
      .rule selector comment children span :: rulesIn children
    else []
  | .atRule head comment none span =>
    if isDeclared head comment then [.atRule head comment none span] else []
  | .atRule head comment (some body) span =>
    if isDeclared head comment then
      .atRule head comment (some body) span :: rulesIn body
    else if isConditional head then declaredList body else []
  | .importing _ _ _ => []
  | .including _ _ _ _ => []

/-- The nodes that become declarations, of the nodes at the top of a file. -/
def declaredList : List Node → List Node
  | [] => []
  | node :: rest => declared node ++ declaredList rest

end

/-- Is the node declared where it counts as standing at the top of a file? -/
def isDeclarable : Node → Bool
  | .rule selector comment _ _ =>
    comment.isSome || (Selector.firstClass? selector).isSome
  | .atRule head comment _ _ => isDeclared head comment
  | .importing _ _ _ => false
  | .including _ _ _ _ => false

theorem isDeclarable_of_plainClass? {node : Node} {name : Text}
    (named : node.plainClass? = some name) : node.isDeclarable = true := by
  cases node with
  | rule selector comment children span =>
      cases comment with
      | none => exact Option.isSome_iff_exists.mpr ⟨name, named⟩
      | some comment => rfl
  | atRule head comment body span => cases named
  | importing kind targets span => cases named
  | including included arguments body span => cases named

mutual

/-- The node, and what is inside it and counts as standing beside it: what is in
the block of a conditional at-rule that is not declared. -/
def standing : Node → List Node
  | .atRule head comment (some body) span =>
    .atRule head comment (some body) span ::
      if !isDeclared head comment && isConditional head then standingList body
      else []
  | .atRule head comment none span => [.atRule head comment none span]
  | .rule selector comment children span =>
    [.rule selector comment children span]
  | .importing kind targets span => [.importing kind targets span]
  | .including name arguments body span => [.including name arguments body span]

/-- The nodes that count as standing at the top of a file with the given
nodes. -/
def standingList : List Node → List Node
  | [] => []
  | node :: rest => standing node ++ standingList rest

end

/-- The nodes that are declared of those that count as standing at the top of a
file. -/
def tops (nodes : List Node) : List Node :=
  (standingList nodes).filter isDeclarable

theorem tops_nil : tops [] = [] := by
  rw [tops, standingList, List.filter_nil]

theorem tops_cons (node : Node) (rest : List Node) :
    tops (node :: rest) = tops [node] ++ tops rest := by
  rw [tops, tops, tops, standingList, standingList, standingList,
    List.append_nil, List.filter_append]

theorem tops_rule (selector : Text) (comment : Option Comment)
    (children : List Node) (span : Span) :
    tops [.rule selector comment children span] =
      if comment.isSome || (Selector.firstClass? selector).isSome then
        [.rule selector comment children span]
      else [] := by
  rw [tops, standingList, standingList, standing, List.append_nil,
    List.filter_cons, List.filter_nil, isDeclarable]

theorem tops_atRule (head : AtRule) (comment : Option Comment)
    (body : Option (List Node)) (span : Span) :
    tops [.atRule head comment body span] =
      if isDeclared head comment then [.atRule head comment body span]
      else if isConditional head then tops (body.getD []) else [] := by
  cases body with
  | none =>
      rw [tops, standingList, standingList, standing, List.append_nil,
        List.filter_cons, List.filter_nil, isDeclarable, Option.getD_none,
        tops_nil, ite_self]
  | some body =>
      rw [tops, standingList, standingList, standing, List.append_nil,
        List.filter_cons, isDeclarable]
      cases isDeclared head comment <;> cases isConditional head <;> rfl

/-- The node and the rules inside it. -/
def withRules (node : Node) : List Node :=
  node :: rulesIn node.children

theorem rulesIn_nil : rulesIn [] = [] := by
  rw [rulesIn, walkList, List.filter_nil]

theorem rulesIn_cons (node : Node) (rest : List Node) :
    rulesIn (node :: rest) =
      (if node.isRule then [node] else []) ++ rulesIn node.children ++
        rulesIn rest := by
  rw [rulesIn, walkList, walk_eq, List.filter_append, List.filter_cons]
  split <;> rfl

theorem rulesIn_singleton (node : Node) :
    rulesIn [node] = (if node.isRule then [node] else []) ++
      rulesIn node.children := by
  rw [rulesIn_cons, rulesIn_nil, List.append_nil]

theorem rulesIn_sublist (nodes : List Node) :
    (rulesIn nodes).Sublist (walkList nodes) :=
  List.filter_sublist

mutual

private theorem walk_tops_sublist_walk :
    ∀ node : Node, ((tops [node]).flatMap walk).Sublist node.walk
  | .rule selector comment children span => by
      rw [tops_rule]
      split
      · rw [List.flatMap_singleton]
      · exact List.nil_sublist _
  | .atRule head comment none span => by
      rw [tops_atRule]
      split
      · rw [List.flatMap_singleton]
      · rw [Option.getD_none, tops_nil, ite_self]
        exact List.nil_sublist _
  | .atRule head comment (some body) span => by
      rw [tops_atRule]
      split
      · rw [List.flatMap_singleton]
      · split
        · rw [walk]
          exact (walk_tops_sublist body).cons _
        · exact List.nil_sublist _
  | .importing kind targets span => List.nil_sublist _
  | .including name arguments body span => List.nil_sublist _

/-- The nodes that are declared at the top stand side by side: none of them is
inside another. -/
theorem walk_tops_sublist : ∀ nodes : List Node,
    ((tops nodes).flatMap walk).Sublist (walkList nodes)
  | [] => by
      rw [tops_nil]
      exact List.nil_sublist _
  | node :: rest => by
      rw [tops_cons, List.flatMap_append, walkList]
      exact (walk_tops_sublist_walk node).append (walk_tops_sublist rest)

end

theorem tops_sublist (nodes : List Node) :
    (tops nodes).Sublist (walkList nodes) := by
  have within : ((tops nodes).flatMap fun node => [node]).Sublist
      ((tops nodes).flatMap walk) := by
    refine List.Sublist.flatMap_right _ fun node _ => ?_
    exact List.singleton_sublist.mpr (mem_walk_self node)
  rw [List.flatMap_singleton'] at within
  exact within.trans (walk_tops_sublist nodes)

mutual

private theorem declared_eq :
    ∀ node : Node, declared node = (tops [node]).flatMap withRules
  | .rule selector comment children span => by
      rw [declared, tops_rule]
      split
      · rw [List.flatMap_singleton, withRules, Node.children]
      · rfl
  | .atRule head comment none span => by
      rw [declared, tops_atRule]
      split
      · rw [List.flatMap_singleton, withRules, Node.children, Option.getD_none,
          rulesIn_nil]
      · rw [Option.getD_none, tops_nil, ite_self, List.flatMap_nil]
  | .atRule head comment (some body) span => by
      rw [declared, tops_atRule]
      split
      · rw [List.flatMap_singleton, withRules, Node.children, Option.getD_some]
      · split
        · exact declaredList_eq body
        · rfl
  | .importing kind targets span => by
      rw [declared]
      rfl
  | .including name arguments body span => by
      rw [declared]
      rfl

/-- What is declared are the nodes at the top that are, and the rules inside
them. -/
theorem declaredList_eq :
    ∀ nodes : List Node, declaredList nodes = (tops nodes).flatMap withRules
  | [] => by
      rw [declaredList, tops_nil, List.flatMap_nil]
  | node :: rest => by
      rw [declaredList, declared_eq node, declaredList_eq rest,
        tops_cons node rest, List.flatMap_append]

end

theorem withRules_sublist (node : Node) :
    (withRules node).Sublist node.walk := by
  rw [withRules, walk_eq]
  exact (rulesIn_sublist node.children).cons_cons _

theorem declaredList_sublist (nodes : List Node) :
    (declaredList nodes).Sublist (walkList nodes) := by
  rw [declaredList_eq]
  exact (List.Sublist.flatMap_right _ fun node _ =>
    withRules_sublist node).trans (walk_tops_sublist nodes)

theorem mem_rulesIn_iff {nodes : List Node} {node : Node} :
    node ∈ rulesIn nodes ↔ node ∈ walkList nodes ∧ node.isRule = true :=
  List.mem_filter

/-- The rules inside a declared node are declared. -/
theorem rulesIn_subset_declaredList {nodes : List Node} {outer : Node}
    (declared : outer ∈ declaredList nodes) :
    rulesIn outer.children ⊆ declaredList nodes := by
  intro rule inside
  rw [declaredList_eq] at declared ⊢
  obtain ⟨top, isTop, member⟩ := List.mem_flatMap.mp declared
  refine List.mem_flatMap.mpr ⟨top, isTop, List.mem_cons_of_mem _ ?_⟩
  rcases List.mem_cons.mp member with rfl | isRule
  · exact inside
  · obtain ⟨walked, rule⟩ := mem_rulesIn_iff.mp inside
    exact mem_rulesIn_iff.mpr
      ⟨inside_trans (mem_rulesIn_iff.mp isRule).1 walked, rule⟩

/-- Of what is inside a declared node only rules are declared.  A node at the
top that is inside another one would come twice. -/
theorem isRule_of_declared_inside {nodes : List Node}
    (distinct : (walkList nodes).Nodup) {outer inner : Node}
    (outerDeclared : outer ∈ declaredList nodes)
    (innerDeclared : inner ∈ declaredList nodes)
    (inside : inner ∈ walkList outer.children) :
    inner.isRule = true := by
  rw [declaredList_eq] at outerDeclared innerDeclared
  obtain ⟨top, isTop, outerMember⟩ := List.mem_flatMap.mp outerDeclared
  obtain ⟨own, isOwn, innerMember⟩ := List.mem_flatMap.mp innerDeclared
  rcases List.mem_cons.mp innerMember with rfl | isRule
  · have walked : inner ∈ top.walk :=
      mem_walk_trans ((withRules_sublist top).subset outerMember)
        (mem_walk_of_inside inside)
    obtain rfl :=
      eq_of_mem_flatMap ((walk_tops_sublist nodes).nodup distinct) isOwn isTop
        (mem_walk_self inner) walked
    have member : inner ∈ walkList nodes :=
      (walk_tops_sublist nodes).subset
        (List.mem_flatMap.mpr ⟨inner, isOwn, mem_walk_self inner⟩)
    refine (not_inside_self distinct member ?_).elim
    rcases List.mem_cons.mp outerMember with rfl | isRule
    · exact inside
    · exact inside_trans (mem_rulesIn_iff.mp isRule).1 inside
  · exact (mem_rulesIn_iff.mp isRule).2

end Node

end StyleAudit
