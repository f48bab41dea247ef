import Mathlib.Data.List.Nodup
import Mathlib.Data.List.Pairwise
import StyleAudit.Proofs.Stylesheet.Placement

/-!
# What is around a node

The nodes inside a node stand in one piece in the list of all nodes.  If no node
comes twice, as in a stylesheet that has been read, the nodes around a node are
inside each other.
-/

namespace StyleAudit

/-- Where lists are put together and nothing comes twice, what two of them share
makes them the same. -/
theorem eq_of_mem_flatMap {α β : Type} {parts : α → List β} {list : List α}
    (distinct : (list.flatMap parts).Nodup) {left right : α}
    (isLeft : left ∈ list) (isRight : right ∈ list) {item : β}
    (inLeft : item ∈ parts left) (inRight : item ∈ parts right) :
    left = right := by
  by_contra different
  have symmetric : Std.Symm (Function.onFun List.Disjoint parts) :=
    ⟨fun _ _ apart _ inFirst inSecond => apart inSecond inFirst⟩
  have apart :=
    (List.nodup_flatMap.mp distinct).2.forall isLeft isRight different
  exact apart inLeft inRight

namespace Node

theorem mem_walk_self (node : Node) : node ∈ node.walk := by
  rw [walk_eq]
  exact List.mem_cons_self

theorem mem_walk_of_inside {outer inner : Node}
    (inside : inner ∈ walkList outer.children) :
    inner ∈ outer.walk := by
  rw [walk_eq]
  exact List.mem_cons_of_mem _ inside

theorem walk_sublist {nodes : List Node} {node : Node}
    (member : node ∈ walkList nodes) :
    node.walk.Sublist (walkList nodes) := by
  induction nodes using forest_induction with
  | nil =>
      rw [walkList] at member
      exact (List.not_mem_nil member).elim
  | cons first rest ihInside ihRest =>
      rw [walkList] at member ⊢
      rcases List.mem_append.mp member with inFirst | inRest
      · refine List.Sublist.trans ?_ (List.sublist_append_left _ _)
        rw [walk_eq] at inFirst
        rcases List.mem_cons.mp inFirst with rfl | deeper
        · exact List.Sublist.refl _
        · rw [walk_eq first]
          exact (ihInside deeper).cons _
      · exact (ihRest inRest).trans (List.sublist_append_right _ _)

/-- What is inside a node at any depth is at some depth too. -/
theorem mem_walkList_of_mem_walk {nodes : List Node} {outer inner : Node}
    (around : outer ∈ walkList nodes) (inside : inner ∈ outer.walk) :
    inner ∈ walkList nodes :=
  (walk_sublist around).subset inside

theorem mem_walk_trans {outer middle inner : Node}
    (around : middle ∈ outer.walk) (inside : inner ∈ middle.walk) :
    inner ∈ outer.walk := by
  rw [← walkList_singleton] at around ⊢
  exact mem_walkList_of_mem_walk around inside

/-- What is inside a node that is inside another one is inside that one. -/
theorem inside_trans {nodes : List Node} {middle inner : Node}
    (around : middle ∈ walkList nodes)
    (inside : inner ∈ walkList middle.children) : inner ∈ walkList nodes :=
  mem_walkList_of_mem_walk around (mem_walk_of_inside inside)

section Distinct

variable {nodes : List Node}

theorem nodup_walk (distinct : (walkList nodes).Nodup) {node : Node}
    (member : node ∈ walkList nodes) : node.walk.Nodup :=
  (walk_sublist member).nodup distinct

/-- No node is inside itself. -/
theorem not_inside_self (distinct : (walkList nodes).Nodup) {node : Node}
    (member : node ∈ walkList nodes) : node ∉ walkList node.children := by
  have own := nodup_walk distinct member
  rw [walk_eq] at own
  exact (List.nodup_cons.mp own).1

theorem nodup_inside (distinct : (walkList nodes).Nodup) {node : Node}
    (member : node ∈ walkList nodes) : (walkList node.children).Nodup := by
  have own := nodup_walk distinct member
  rw [walk_eq] at own
  exact (List.nodup_cons.mp own).2

/-- Of two nodes around a third one is inside the other, or they are the
same. -/
theorem mem_walk_or_mem_walk (distinct : (walkList nodes).Nodup)
    {left right inner : Node} (isLeft : left ∈ walkList nodes)
    (isRight : right ∈ walkList nodes) (inLeft : inner ∈ left.walk)
    (inRight : inner ∈ right.walk) :
    left ∈ right.walk ∨ right ∈ left.walk := by
  induction nodes using forest_induction with
  | nil =>
      rw [walkList] at isLeft
      exact (List.not_mem_nil isLeft).elim
  | cons node rest ihInside ihRest =>
      rw [walkList] at distinct isLeft isRight
      obtain ⟨first, others, apart⟩ := List.nodup_append.mp distinct
      rcases List.mem_append.mp isLeft with leftFirst | leftRest <;>
        rcases List.mem_append.mp isRight with rightFirst | rightRest
      · rw [walk_eq] at first leftFirst rightFirst
        rcases List.mem_cons.mp leftFirst with rfl | leftInside
        · rw [← walk_eq] at rightFirst
          exact .inr rightFirst
        · rcases List.mem_cons.mp rightFirst with rfl | rightInside
          · exact .inl (mem_walk_of_inside leftInside)
          · exact ihInside (List.nodup_cons.mp first).2 leftInside rightInside
      · exact (apart inner (mem_walk_trans leftFirst inLeft) inner
          (mem_walkList_of_mem_walk rightRest inRight) rfl).elim
      · exact (apart inner (mem_walk_trans rightFirst inRight) inner
          (mem_walkList_of_mem_walk leftRest inLeft) rfl).elim
      · exact ihRest others leftRest rightRest

end Distinct

end Node

end StyleAudit
