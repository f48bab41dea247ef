import StyleAudit.Proofs.SourceFile.Tops

/-!
# Which node an include belongs to

An include that is inside of a declared node belongs to the innermost rule or
declared at-rule around it.  Seen from there, what belongs to a node are the
includes in its block that are in no rule.  Both views agree, since the nodes of
a stylesheet are distinct.
-/

namespace StyleAudit

namespace Node

/-- The name that a node includes. -/
def includes? : Node → Option Text
  | .including name _ _ _ => some name
  | .rule _ _ _ _ | .atRule _ _ _ _ | .importing _ _ _ => none

/-! ## Includes in no rule -/

mutual

/-- The includes in a node, itself among them, that are in no rule. -/
def direct : Node → List Node
  | .including name arguments (some body) span =>
    .including name arguments (some body) span :: directList body
  | .including name arguments none span => [.including name arguments none span]
  | .atRule _ _ (some body) _ => directList body
  | .atRule _ _ none _ => []
  | .rule _ _ _ _ => []
  | .importing _ _ _ => []

/-- The includes among some nodes and inside of them that are in no rule. -/
def directList : List Node → List Node
  | [] => []
  | node :: rest => direct node ++ directList rest

end

theorem direct_eq (node : Node) :
    node.direct =
      if node.isRule then []
      else (if node.includes?.isSome then [node] else []) ++
        directList node.children := by
  cases node with
  | rule selector doc children span => rw [direct, isRule, if_pos rfl]
  | atRule rule doc body span =>
      cases body with
      | none =>
          rw [direct, Node.children, Option.getD_none, directList]
          rfl
      | some body =>
          rw [direct]
          rfl
  | importing kind targets span =>
      rw [direct, Node.children, directList]
      rfl
  | including name arguments body span =>
      cases body with
      | none =>
          rw [direct, Node.children, Option.getD_none, directList]
          rfl
      | some body =>
          rw [direct]
          rfl

theorem mem_direct_iff {node inner : Node} :
    inner ∈ node.direct ↔
      node.isRule = false ∧
        (inner = node ∧ inner.includes?.isSome = true ∨
          inner ∈ directList node.children) := by
  rw [direct_eq]
  cases node.isRule with
  | true => simp
  | false =>
      cases found : node.includes?.isSome with
      | true =>
          simp only [Bool.false_eq_true, if_false, if_true,
            List.singleton_append, List.mem_cons, true_and]
          refine or_congr_left ?_
          constructor
          · rintro rfl
            exact ⟨rfl, found⟩
          · exact And.left
      | false =>
          simp only [Bool.false_eq_true, if_false, List.nil_append, true_and]
          refine (or_iff_right ?_).symm
          rintro ⟨rfl, includes⟩
          rw [found] at includes
          cases includes

theorem isRule_eq_false_of_includes? {node : Node}
    (includes : node.includes?.isSome = true) :
    node.isRule = false := by
  cases node with
  | including name arguments body span => rfl
  | rule selector doc children span => cases includes
  | atRule rule doc body span => cases includes
  | importing kind targets span => cases includes

theorem directList_sublist (nodes : List Node) :
    (directList nodes).Sublist (walkList nodes) := by
  induction nodes using forest_induction with
  | nil =>
      rw [directList]
      exact List.nil_sublist _
  | cons node rest ihInside ihRest =>
      rw [directList, walkList, walk_eq, direct_eq]
      refine List.Sublist.append ?_ ihRest
      split
      · exact List.nil_sublist _
      · split
        · exact ihInside.cons_cons node
        · exact ihInside.cons node

theorem includes?_of_mem_directList {nodes : List Node} {inner : Node}
    (isDirect : inner ∈ directList nodes) : inner.includes?.isSome = true := by
  induction nodes using forest_induction with
  | nil =>
      rw [directList] at isDirect
      exact (List.not_mem_nil isDirect).elim
  | cons node rest ihInside ihRest =>
      rw [directList, List.mem_append, mem_direct_iff] at isDirect
      rcases isDirect with ⟨-, ⟨-, includes⟩ | deeper⟩ | later
      · exact includes
      · exact ihInside deeper
      · exact ihRest later

/-- An include is in no rule, or in the block of a rule and in no rule in that
block. -/
theorem mem_directList_or {nodes : List Node} {inner : Node}
    (walked : inner ∈ walkList nodes)
    (includes : inner.includes?.isSome = true) :
    inner ∈ directList nodes ∨ ∃ rule ∈ rulesIn nodes,
      inner ∈ directList rule.children := by
  induction nodes using forest_induction with
  | nil =>
      rw [walkList] at walked
      exact (List.not_mem_nil walked).elim
  | cons node rest ihInside ihRest =>
      rw [walkList, walk_eq] at walked
      rw [directList, rulesIn_cons, List.mem_append, mem_direct_iff]
      rcases List.mem_append.mp walked with inFirst | inRest
      · rcases List.mem_cons.mp inFirst with rfl | deeper
        · exact .inl
            (.inl ⟨isRule_eq_false_of_includes? includes, .inl ⟨rfl, includes⟩⟩)
        · rcases ihInside deeper with isDirect | ⟨rule, isRule, isDirect⟩
          · cases found : node.isRule with
            | true => exact .inr ⟨node, by simp, isDirect⟩
            | false => exact .inl (.inl ⟨rfl, .inr isDirect⟩)
          · refine .inr ⟨rule, ?_, isDirect⟩
            exact List.mem_append_left _ (List.mem_append_right _ isRule)
      · rcases ihRest inRest with isDirect | ⟨rule, isRule, isDirect⟩
        · exact .inl (.inr isDirect)
        · exact .inr ⟨rule, List.mem_append_right _ isRule, isDirect⟩

private theorem mem_walk_of_mem_direct {node inner : Node}
    (isDirect : inner ∈ node.direct) :
    inner ∈ node.walk := by
  rcases (mem_direct_iff.mp isDirect).2 with ⟨rfl, -⟩ | deeper
  · exact mem_walk_self inner
  · exact mem_walk_of_inside ((directList_sublist node.children).subset deeper)

/-- What is in no rule is not inside one. -/
theorem not_inside_rule_of_mem_directList {nodes : List Node}
    (distinct : (walkList nodes).Nodup) {inner rule : Node}
    (isDirect : inner ∈ directList nodes) (isRule : rule ∈ rulesIn nodes) :
    inner ∉ walkList rule.children := by
  intro inside
  obtain ⟨walked, found⟩ := mem_rulesIn_iff.mp isRule
  clear isRule
  induction nodes using forest_induction with
  | nil =>
      rw [walkList] at walked
      exact List.not_mem_nil walked
  | cons node rest ihInside ihRest =>
      rw [walkList] at distinct walked
      rw [directList] at isDirect
      obtain ⟨first, others, apart⟩ := List.nodup_append.mp distinct
      rcases List.mem_append.mp walked with inFirst | inRest
      · rcases List.mem_append.mp isDirect with here | later
        · obtain ⟨noRule, place⟩ := mem_direct_iff.mp here
          rw [walk_eq] at first inFirst
          obtain ⟨notOwn, distinctInside⟩ := List.nodup_cons.mp first
          rcases List.mem_cons.mp inFirst with rfl | ruleInside
          · rw [noRule] at found
            cases found
          · rcases place with ⟨rfl, -⟩ | deeper
            · exact notOwn (inside_trans ruleInside inside)
            · exact ihInside distinctInside deeper ruleInside
        · exact apart inner (mem_walk_trans inFirst (mem_walk_of_inside inside))
            inner ((directList_sublist rest).subset later) rfl
      · rcases List.mem_append.mp isDirect with here | later
        · exact apart inner (mem_walk_of_mem_direct here) inner
            (inside_trans inRest inside) rfl
        · exact ihRest others later inRest

/-! ## Owners -/

/-- The node is a rule, or an at-rule that is declared. -/
def IsOwner (nodes : List Node) (node : Node) : Prop :=
  node ∈ walkList nodes ∧ (node.isRule = true ∨ node ∈ declaredList nodes)

/-- The owner is the innermost rule or declared at-rule around a node. -/
structure Owns (nodes : List Node) (owner inner : Node) : Prop where
  isOwner : IsOwner nodes owner
  around : inner ∈ walkList owner.children
  innermost : ∀ other, IsOwner nodes other → inner ∈ walkList other.children →
    owner ∈ other.walk

section Owners

variable {nodes : List Node} {owner inner : Node}

private theorem isOwner_of_declared (declared : owner ∈ declaredList nodes) :
    IsOwner nodes owner :=
  ⟨(declaredList_sublist nodes).subset declared, .inr declared⟩

/-- A node has one owner at most. -/
theorem Owns.unique (distinct : (walkList nodes).Nodup) {other : Node}
    (owns : Owns nodes owner inner) (otherOwns : Owns nodes other inner) :
    owner = other := by
  have inOther := owns.innermost other otherOwns.isOwner otherOwns.around
  have inOwner := otherOwns.innermost owner owns.isOwner owns.around
  rw [walk_eq] at inOther
  rcases List.mem_cons.mp inOther with same | inside
  · exact same
  · exact (not_inside_self distinct otherOwns.isOwner.1
      ((walk_sublist inside).subset inOwner)).elim

/-- A declared node owns the includes in its block that are in no rule.  What is
declared inside of the owner is a rule, and the include would be in it. -/
theorem owns_of_mem_directList (distinct : (walkList nodes).Nodup)
    (declared : owner ∈ declaredList nodes)
    (isDirect : inner ∈ directList owner.children) :
    Owns nodes owner inner := by
  have isOwner := isOwner_of_declared declared
  have around := (directList_sublist owner.children).subset isDirect
  refine ⟨isOwner, around, ?_⟩
  intro other isOther inOther
  rcases mem_walk_or_mem_walk distinct isOwner.1 isOther.1
    (mem_walk_of_inside around) (mem_walk_of_inside inOther) with
      inside | otherInside
  · exact inside
  · rw [walk_eq] at otherInside
    rcases List.mem_cons.mp otherInside with rfl | deeper
    · exact mem_walk_self other
    · have isRule : other.isRule = true := by
        rcases isOther.2 with isRule | otherDeclared
        · exact isRule
        · exact isRule_of_declared_inside distinct declared otherDeclared deeper
      exact (not_inside_rule_of_mem_directList (nodup_inside distinct isOwner.1)
        isDirect (mem_rulesIn_iff.mpr ⟨deeper, isRule⟩) inOther).elim

/-- The includes that a declared node owns are in its block and in no rule. -/
theorem Owns.mem_directList (distinct : (walkList nodes).Nodup)
    (owns : Owns nodes owner inner) (includes : inner.includes?.isSome = true) :
    inner ∈ directList owner.children := by
  rcases mem_directList_or owns.around includes with
    isDirect | ⟨rule, inRules, isDirect⟩
  · exact isDirect
  · obtain ⟨inside, isRule⟩ := mem_rulesIn_iff.mp inRules
    have isOwner : IsOwner nodes rule :=
      ⟨inside_trans owns.isOwner.1 inside, .inl isRule⟩
    have inRule :=
      owns.innermost rule isOwner
        ((directList_sublist rule.children).subset isDirect)
    exact (not_inside_self distinct owns.isOwner.1
      ((walk_sublist inside).subset inRule)).elim

/-- An include inside of a declared node has an owner, which is declared. -/
theorem exists_owns (distinct : (walkList nodes).Nodup) {outer : Node}
    (declared : outer ∈ declaredList nodes)
    (inside : inner ∈ walkList outer.children)
    (includes : inner.includes?.isSome = true) :
    ∃ owner ∈ declaredList nodes, Owns nodes owner inner := by
  rcases mem_directList_or inside includes with
    isDirect | ⟨rule, inRules, isDirect⟩
  · exact ⟨outer, declared, owns_of_mem_directList distinct declared isDirect⟩
  · have ruleDeclared := rulesIn_subset_declaredList declared inRules
    exact ⟨rule, ruleDeclared,
      owns_of_mem_directList distinct ruleDeclared isDirect⟩

end Owners

end Node

end StyleAudit
