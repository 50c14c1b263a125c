import Mathlib.Data.List.Basic
import StateDiagram.Proofs.Annotation

namespace StateDiagram.Node

set_option autoImplicit true

/-- The nodes of the tree, each in front of the nodes below it. -/
def preorder (node : Node α) : List (Node α) :=
  node :: node.children.attach.flatMap fun ⟨child, _⟩ => child.preorder
termination_by sizeOf node
decreasing_by exact sizeOf_lt_of_mem_children ‹_›

/-- The nodes of the tree, each behind the nodes below it. -/
def postorder (node : Node α) : List (Node α) :=
  (node.children.attach.flatMap fun ⟨child, _⟩ => child.postorder) ++ [node]
termination_by sizeOf node
decreasing_by exact sizeOf_lt_of_mem_children ‹_›

theorem preorder_eq (node : Node α) :
    node.preorder = node :: node.children.flatMap preorder := by
  rw [preorder]
  simp only [List.flatMap_subtype, List.unattach_attach]

theorem postorder_eq (node : Node α) :
    node.postorder = node.children.flatMap postorder ++ [node] := by
  rw [postorder]
  simp only [List.flatMap_subtype, List.unattach_attach]

theorem mem_preorder {node found : Node α} :
    found ∈ node.preorder ↔ found = node ∨ ∃ child ∈ node.children, found ∈ child.preorder := by
  rw [preorder_eq, List.mem_cons, List.mem_flatMap]

theorem mem_preorder_self (node : Node α) : node ∈ node.preorder := mem_preorder.2 (.inl rfl)

theorem mem_preorder_trans {outer node inner : Node α} (hn : node ∈ outer.preorder)
    (hi : inner ∈ node.preorder) : inner ∈ outer.preorder := by
  induction outer using Node.induction with
  | step outer ih =>
    rcases mem_preorder.1 hn with rfl | ⟨child, hc, hn⟩
    · exact hi
    · exact mem_preorder.2 (.inr ⟨child, hc, ih child hc hn⟩)

theorem mem_preorder_of_child {node child : Node α} (h : child ∈ node.children) :
    child ∈ node.preorder := mem_preorder.2 (.inr ⟨child, h, mem_preorder_self child⟩)

theorem argumentExpression_mem_preorder (node : Node α) :
    node.argumentExpression ∈ node.preorder := by
  cases node with
  | valueArgument => exact mem_preorder_of_child (List.mem_singleton_self _)
  | _ => exact mem_preorder_self _

theorem lambdaBody_mem_preorder {node body : Node α} (h : node.lambdaBody? = some body) :
    body ∈ node.preorder := by
  cases node with
  | lambda =>
    cases h
    exact mem_preorder_of_child (List.mem_singleton_self _)
  | _ => cases h

theorem argumentBody_mem_preorder {node body : Node α}
    (h : node.argumentExpression.lambdaBody? = some body) : body ∈ node.preorder :=
  mem_preorder_trans node.argumentExpression_mem_preorder (lambdaBody_mem_preorder h)

theorem mem_postorder {node found : Node α} : found ∈ node.postorder ↔ found ∈ node.preorder := by
  induction node using Node.induction with
  | step node ih =>
    rw [postorder_eq, mem_preorder, List.mem_append, List.mem_flatMap, List.mem_singleton,
      or_comm]
    apply or_congr_right
    constructor
    · rintro ⟨child, hc, hm⟩
      exact ⟨child, hc, (ih child hc).1 hm⟩
    · rintro ⟨child, hc, hm⟩
      exact ⟨child, hc, (ih child hc).2 hm⟩

theorem preorder_map (f : α → β) (node : Node α) :
    (node.map f).preorder = node.preorder.map (map f) := by
  induction node using Node.induction with
  | step node ih =>
    rw [preorder_eq, preorder_eq, children_map, List.map_cons, List.map_flatMap, List.flatMap_map,
      List.flatMap_congr ih]

end StateDiagram.Node
