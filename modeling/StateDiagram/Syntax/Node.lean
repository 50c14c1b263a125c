namespace StateDiagram

/-- Syntax trees. The grammar is loose: calls, member accesses, lambdas, arguments and literals are
told apart, and all other code is kept as tokens and sequences. -/
inductive Node (α : Type) where
  | file (info : α) (statements : List (Node α))
  /-- The statements of a lambda, without its braces. -/
  | block (info : α) (statements : List (Node α))
  | call (info : α) (callee : Node α) (typeArguments valueArguments : List (Node α))
      (lambda : Option (Node α))
  | memberAccess (info : α) (receiver selector : Node α) (safe : Bool)
  | lambda (info : α) (parameters : Option String) (body : Node α)
  /-- An argument of a call, perhaps named. -/
  | valueArgument (info : α) (name : Option String) (expression : Node α)
  | typeArgument (info : α)
  /-- A string; its content leaves out the quotes. -/
  | stringLiteral (info : α) (content : String)
  | identifier (info : α) (name : String)
  /-- A number or a character. -/
  | literal (info : α)
  /-- Expressions in round or square brackets. -/
  | group (info : α) (children : List (Node α))
  /-- Several expressions that stand side by side. -/
  | sequence (info : α) (children : List (Node α))
  | token (info : α)

namespace Node

variable {α β : Type}

def info : Node α → α
  | .file a _ | .block a _ | .call a _ _ _ _ | .memberAccess a _ _ _ | .lambda a _ _
  | .valueArgument a _ _ | .typeArgument a | .stringLiteral a _ | .identifier a _ | .literal a
  | .group a _ | .sequence a _ | .token a => a

/-- The direct children in source order. -/
def children : Node α → List (Node α)
  | .file _ nodes | .block _ nodes | .group _ nodes | .sequence _ nodes => nodes
  | .call _ callee typeArguments valueArguments trailing =>
    callee :: (typeArguments ++ valueArguments ++ trailing.toList)
  | .memberAccess _ receiver selector _ => [receiver, selector]
  | .lambda _ _ body => [body]
  | .valueArgument _ _ expression => [expression]
  | .typeArgument _ | .stringLiteral _ _ | .identifier _ _ | .literal _ | .token _ => []

theorem sizeOf_lt_of_mem_children [SizeOf α] {node child : Node α} (h : child ∈ node.children) :
    sizeOf child < sizeOf node := by
  cases node with
  | file a nodes | block a nodes | group a nodes | sequence a nodes =>
    simp only [children] at h
    have := List.sizeOf_lt_of_mem h
    simp only [file.sizeOf_spec, block.sizeOf_spec, group.sizeOf_spec, sequence.sizeOf_spec]
    omega
  | call a callee typeArguments valueArguments trailing =>
    simp only [children, List.mem_cons, List.mem_append, Option.mem_toList] at h
    simp only [call.sizeOf_spec]
    rcases h with rfl | (h | h) | h
    · omega
    · have := List.sizeOf_lt_of_mem h
      omega
    · have := List.sizeOf_lt_of_mem h
      omega
    · cases h
      simp only [Option.some.sizeOf_spec]
      omega
  | memberAccess a receiver selector safe =>
    simp only [children, List.mem_cons, List.not_mem_nil, or_false] at h
    simp only [memberAccess.sizeOf_spec]
    rcases h with rfl | rfl <;> omega
  | lambda a parameters body =>
    simp only [children, List.mem_singleton] at h
    simp only [lambda.sizeOf_spec, h]
    omega
  | valueArgument a name expression =>
    simp only [children, List.mem_singleton] at h
    simp only [valueArgument.sizeOf_spec, h]
    omega
  | typeArgument | stringLiteral | identifier | literal | token => cases h

/-- What holds of a node whenever it holds of its children holds of every node. -/
theorem induction {motive : Node α → Prop}
    (step : ∀ node, (∀ child ∈ node.children, motive child) → motive node) (node : Node α) :
    motive node :=
  step node fun child _h => induction step child
termination_by sizeOf node
decreasing_by exact sizeOf_lt_of_mem_children _h

/-- Changes the annotation of every node. -/
def map (f : α → β) : Node α → Node β
  | .file a nodes => .file (f a) (nodes.map (map f))
  | .block a nodes => .block (f a) (nodes.map (map f))
  | .call a callee typeArguments valueArguments none =>
    .call (f a) (callee.map f) (typeArguments.map (map f)) (valueArguments.map (map f)) none
  | .call a callee typeArguments valueArguments (some trailing) =>
    .call (f a) (callee.map f) (typeArguments.map (map f)) (valueArguments.map (map f))
      (some (trailing.map f))
  | .memberAccess a receiver selector safe =>
    .memberAccess (f a) (receiver.map f) (selector.map f) safe
  | .lambda a parameters body => .lambda (f a) parameters (body.map f)
  | .valueArgument a name expression => .valueArgument (f a) name (expression.map f)
  | .typeArgument a => .typeArgument (f a)
  | .stringLiteral a content => .stringLiteral (f a) content
  | .identifier a name => .identifier (f a) name
  | .literal a => .literal (f a)
  | .group a nodes => .group (f a) (nodes.map (map f))
  | .sequence a nodes => .sequence (f a) (nodes.map (map f))
  | .token a => .token (f a)
termination_by node => sizeOf node
decreasing_by all_goals exact sizeOf_lt_of_mem_children (by simp [children, *])

def nodeCount (node : Node α) : Nat :=
  1 + (node.children.attach.map fun ⟨child, _⟩ => child.nodeCount).foldr (· + ·) 0
termination_by sizeOf node
decreasing_by exact sizeOf_lt_of_mem_children ‹_›

def isToken : Node α → Bool
  | .token _ => true
  | _ => false

def isLambda : Node α → Bool
  | .lambda _ _ _ => true
  | _ => false

/-- The name of a bare identifier. -/
def identifierName? : Node α → Option String
  | .identifier _ name => some name
  | _ => none

def hasName (node : Node α) (name : String) : Bool := node.identifierName? == some name

/-- The expression of a value argument; any other node stands for itself. -/
def argumentExpression : Node α → Node α
  | .valueArgument _ _ expression => expression
  | node => node

def lambdaBody? : Node α → Option (Node α)
  | .lambda _ _ body => some body
  | _ => none

/-- The statements of a file or block. -/
def statements : Node α → List (Node α)
  | .file _ nodes | .block _ nodes => nodes
  | _ => []

end Node

end StateDiagram
