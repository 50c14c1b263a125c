import StateDiagram.Machine

namespace StateDiagram.Machine

def append (machine : Machine) (statements : List Statement) : Machine :=
  ⟨machine.statements ++ statements⟩

def dropLast (machine : Machine) : Machine := ⟨machine.statements.dropLast⟩

def reverse (machine : Machine) : Machine := ⟨machine.statements.reverse⟩

/-- Changes the last state of a list of statements, unless it has none. -/
def modifyLast? (f : State → State) : List Statement → Option (List Statement)
  | [] => none
  | statement :: rest =>
    match modifyLast? f rest with
    | some rest => some (statement :: rest)
    | none =>
      match statement with
      | .initial _ => none
      | .state state => some (.state (f state) :: rest)

/-- Changes the last declared state, unless there is none. -/
def modifyLastState? (f : State → State) (machine : Machine) : Option Machine :=
  (modifyLast? f machine.statements).map .mk

end StateDiagram.Machine

namespace StateDiagram.State

def addTransition (transition : Transition) (state : State) : State :=
  { state with transitions := state.transitions ++ [transition] }

def addOnEnter (body : String) (state : State) : State :=
  { state with onEnter := state.onEnter ++ [body] }

def addOnExit (body : String) (state : State) : State :=
  { state with onExit := state.onExit ++ [body] }

end StateDiagram.State
