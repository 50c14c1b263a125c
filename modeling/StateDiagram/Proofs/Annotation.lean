import StateDiagram.Extraction

namespace StateDiagram.Node

set_option autoImplicit true

attribute [simp] map

theorem map_call (f : α → β) (a : α) (callee : Node α) (types values : List (Node α))
    (trailing : Option (Node α)) :
    (call a callee types values trailing).map f =
      call (f a) (callee.map f) (types.map (map f)) (values.map (map f))
        (trailing.map (map f)) := by
  cases trailing <;> simp

theorem info_map (f : α → β) (node : Node α) : (node.map f).info = f node.info := by
  cases node <;> simp [map_call, info]

theorem children_map (f : α → β) (node : Node α) :
    (node.map f).children = node.children.map (map f) := by
  cases node with
  | call a callee types values trailing => cases trailing <;> simp [map_call, children]
  | _ => simp [children]

theorem map_map (f : α → β) (g : β → γ) (node : Node α) :
    (node.map f).map g = node.map (g ∘ f) := by
  induction node using Node.induction with
  | step node ih =>
    cases node with
    | call a callee types values trailing =>
      cases trailing <;> simp_all [map_call, children]
    | _ => simp_all [children]

theorem isToken_map (f : α → β) (node : Node α) : (node.map f).isToken = node.isToken := by
  cases node <;> simp [map_call, isToken]

theorem isLambda_map (f : α → β) (node : Node α) : (node.map f).isLambda = node.isLambda := by
  cases node <;> simp [map_call, isLambda]

theorem opensLevel_map (f : α → β) (node : Node α) : (node.map f).opensLevel = node.opensLevel := by
  cases node <;> simp [map_call, opensLevel]

theorem identifierName?_map (f : α → β) (node : Node α) :
    (node.map f).identifierName? = node.identifierName? := by
  cases node <;> simp [map_call, identifierName?]

theorem hasName_map (f : α → β) (node : Node α) (name : String) :
    (node.map f).hasName name = node.hasName name := by
  rw [hasName, identifierName?_map, hasName]

theorem argumentExpression_map (f : α → β) (node : Node α) :
    (node.map f).argumentExpression = node.argumentExpression.map f := by
  cases node <;> simp [map_call, argumentExpression]

theorem lambdaBody?_map (f : α → β) (node : Node α) :
    (node.map f).lambdaBody? = node.lambdaBody?.map (map f) := by
  cases node <;> simp [map_call, lambdaBody?]

theorem statements_map (f : α → β) (node : Node α) :
    (node.map f).statements = node.statements.map (map f) := by
  cases node <;> simp [map_call, statements]

end StateDiagram.Node
