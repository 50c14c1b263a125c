import StateDiagram.Machine
import StateDiagram.Syntax.Parse

namespace StateDiagram

/-- A call of a plain name, as a statement of the builder language. -/
structure BuilderCall where
  name : String
  typeArguments : List SyntaxTree
  valueArguments : List SyntaxTree
  trailing : Option SyntaxTree

namespace BuilderCall

def ofNode? : SyntaxTree → Option BuilderCall
  | .call _ callee typeArguments valueArguments trailing =>
    callee.identifierName?.map fun name => ⟨name, typeArguments, valueArguments, trailing⟩
  | _ => none

/-- The expression of the value argument at an index. -/
def argument? (call : BuilderCall) (index : Nat) : Option SyntaxTree :=
  call.valueArguments[index]?.map Node.argumentExpression

/-- The name that the call declares: its first type argument, or else its first argument. -/
def declaredName? (call : BuilderCall) : Option String :=
  match call.typeArguments with
  | first :: _ => some first.info.text
  | [] => (call.argument? 0).map SyntaxTree.unquoted

/-- The block of the trailing lambda, or else of the last argument that is a lambda. -/
def body? (call : BuilderCall) : Option SyntaxTree :=
  let lambda := match call.trailing with
    | some trailing => some trailing
    | none => (call.valueArguments.reverse.map Node.argumentExpression).find? Node.isLambda
  lambda.bind Node.lambdaBody?

/-- The calls of plain names among some statements. -/
def all (statements : List SyntaxTree) : List BuilderCall := statements.filterMap ofNode?

end BuilderCall

def checkDepth (limit depth : Nat) : Except Fault Unit :=
  if depth ≤ limit then .ok () else .error (.nestingTooDeep limit)

/-- The transition to a target expression; a call gives its name and its arguments. -/
def Transition.toTarget (event : String) (target : SyntaxTree) : Transition :=
  match target with
  | .call _ callee _ valueArguments _ =>
    { event, target := callee.info.text, arguments := valueArguments.map (·.info.text) }
  | _ => { event, target := target.unquoted }

/-- The transition that a call in the handler of an event declares. -/
def BuilderCall.transition? (state event : String) (call : BuilderCall) : Option Transition :=
  match call.name with
  | "transitionTo" =>
    (call.argument? 0).map fun target =>
      { Transition.toTarget event target with
        sideEffect := (call.argument? 1).map SyntaxTree.unquoted }
  | "dontTransition" =>
    some { event, target := state, sideEffect := (call.argument? 0).map SyntaxTree.unquoted }
  | _ => none

def handlerTransitions (limit depth : Nat) (state event : String) (body : SyntaxTree) :
    Except Fault (List Transition) := do
  checkDepth limit depth
  return (BuilderCall.all body.statements).filterMap (·.transition? state event)

/-- The state with what a call in its body adds to it. -/
def State.extend (limit depth : Nat) (state : State) (call : BuilderCall) : Except Fault State :=
  match call.name with
  | "on" =>
    match call.declaredName?, call.body? with
    | some event, some handler => do
      let transitions ← handlerTransitions limit (depth + 1) state.name event handler
      return { state with transitions := state.transitions ++ transitions }
    | _, _ => .ok state
  | "onEnter" =>
    match call.body? with
    | some block => .ok { state with onEnter := state.onEnter ++ [block.info.text] }
    | none => .ok state
  | "onExit" =>
    match call.body? with
    | some block => .ok { state with onExit := state.onExit ++ [block.info.text] }
    | none => .ok state
  | _ => .ok state

/-- The state that a call declares, if it has a name. -/
def BuilderCall.state? (limit depth : Nat) (call : BuilderCall) : Except Fault (Option State) := do
  checkDepth limit depth
  match call.declaredName? with
  | none => return none
  | some name =>
    match call.body? with
    | none => return some { name }
    | some body =>
      let state ← (BuilderCall.all body.statements).foldlM (State.extend limit depth) { name }
      return some state

/-- The statement that a call in the body of a builder stands for. -/
def BuilderCall.statement? (limit depth : Nat) (call : BuilderCall) :
    Except Fault (Option Statement) :=
  match call.name with
  | "initialState" => .ok ((call.argument? 0).map fun name => .initial name.unquoted)
  | "state" => do
    let state ← call.state? limit (depth + 1)
    return state.map .state
  | _ => .ok none

/-- The machine that the body of a builder describes. -/
def Machine.ofBody (limit depth : Nat) (body : SyntaxTree) : Except Fault Machine := do
  checkDepth limit depth
  let statements ← (BuilderCall.all body.statements).mapM (·.statement? limit depth)
  return ⟨statements.filterMap id⟩

/-- What a `StateMachine.create` builder is given. -/
structure Builder where
  valueArguments : List SyntaxTree
  trailing : Option SyntaxTree

namespace Builder

def ofNode? : SyntaxTree → Option Builder
  | .memberAccess _ receiver (.call _ callee _ valueArguments trailing) _ =>
    if receiver.hasName "StateMachine" && callee.hasName "create" then
      some ⟨valueArguments, trailing⟩
    else none
  | _ => none

/-- The block of the trailing lambda, or else of a lambda that is the last argument. -/
def body? (builder : Builder) : Option SyntaxTree :=
  let lambda := match builder.trailing with
    | some trailing => some trailing
    | none => (builder.valueArguments.getLast?.map Node.argumentExpression).filter Node.isLambda
  lambda.bind Node.lambdaBody?

end Builder

/-- Whether the node counts as a level of nesting. -/
def Node.opensLevel {α : Type} : Node α → Bool
  | .lambda _ _ _ | .group _ _ | .valueArgument _ _ _ => true
  | _ => false

/-- The machine that is built at the node itself. -/
def SyntaxTree.ownMachines (limit depth : Nat) (node : SyntaxTree) :
    Except Fault (List Machine) :=
  match Builder.ofNode? node with
  | none => .ok []
  | some builder =>
    match builder.body? with
    | none =>
      .error (.malformedBuilder "expected lambda argument to StateMachine.create"
        node.info.location)
    | some body => (Machine.ofBody limit (depth + 1) body).map fun machine => [machine]

/-- The machines below and at a node that stands at the given depth; those below come first. -/
def SyntaxTree.machinesAt (limit depth : Nat) (node : SyntaxTree) :
    Except Fault (List Machine) := do
  checkDepth limit depth
  let nested ← node.children.attach.mapM fun ⟨child, _⟩ =>
    SyntaxTree.machinesAt limit (if child.opensLevel then depth + 1 else depth) child
  let own ← SyntaxTree.ownMachines limit depth node
  return nested.flatten ++ own
termination_by sizeOf node
decreasing_by exact Node.sizeOf_lt_of_mem_children ‹_›

/-- The machines of a tree, unless it nests deeper than `limit`. -/
def SyntaxTree.machines (limit : Nat) (tree : SyntaxTree) : Except Fault (List Machine) :=
  tree.machinesAt limit 0

/-- The deepest nesting that is read when nothing else is asked for. -/
def defaultDepth : Nat := 256

/-- How deep a source may nest for its tree to be built and for its machines to be found. -/
structure Limits where
  syntaxDepth : Nat := defaultDepth
  extractionDepth : Nat := defaultDepth
deriving Repr

/-- The machines of a source text, inner ones before those around them. -/
def extractMachines (limits : Limits) (source : String) : Except Fault (List Machine) := do
  let tree ← SyntaxTree.parse limits.syntaxDepth source
  tree.machines limits.extractionDepth

end StateDiagram
