import StateDiagram.Machine

namespace StateDiagram

inductive Reference where
  | initial (target : String)
  | transition (source event target : String)
deriving DecidableEq, Repr

namespace Reference

def target : Reference → String
  | .initial target | .transition _ _ target => target

/-- What to say of a reference to a state that is not declared. -/
def message : Reference → String
  | .initial target => s!"initial state '{target}' is not declared"
  | .transition source event target =>
    s!"transition '{event}' in state '{source}' targets undeclared state '{target}'"

end Reference

def Statement.references : Statement → List Reference
  | .initial name => [.initial name]
  | .state declared =>
    declared.transitions.map fun transition =>
      .transition declared.name transition.event transition.target

namespace Machine

/-- Every reference, in the order of the statements. -/
def references (machine : Machine) : List Reference :=
  machine.statements.flatMap Statement.references

def declares (machine : Machine) (name : String) : Bool :=
  machine.states.any (·.name = name)

def unresolvedReferences (machine : Machine) : List Reference :=
  machine.references.filter fun reference => !machine.declares reference.target

/-- The distinct names of the declared states, in rising order. -/
def declaredNames (machine : Machine) : List String :=
  ((machine.states.map (·.name)).eraseDups).mergeSort fun a b => decide (a ≤ b)

end Machine

end StateDiagram
