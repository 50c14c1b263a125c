namespace StateDiagram

/-- A guard of a transition: its expression has to hold, or has to fail. -/
inductive Condition where
  | holds (expression : String)
  | fails (expression : String)
deriving DecidableEq, Repr

def Condition.expression : Condition → String
  | .holds expression | .fails expression => expression

structure Transition where
  event : String
  target : String
  /-- The arguments of a target that is written as a call. -/
  arguments : List String := []
  sideEffect : Option String := none
  conditions : List Condition := []
deriving DecidableEq, Repr

structure State where
  name : String
  transitions : List Transition := []
  onEnter : List String := []
  onExit : List String := []
deriving DecidableEq, Repr

inductive Statement where
  | initial (name : String)
  | state (state : State)
deriving DecidableEq, Repr

/-- A machine is the list of its statements, in the order of their declaration. All code that it
carries, such as side effects and arguments, is source text. -/
structure Machine where
  statements : List Statement
deriving DecidableEq, Repr

def Statement.state? : Statement → Option State
  | .initial _ => none
  | .state declared => some declared

def Statement.initial? : Statement → Option String
  | .initial name => some name
  | .state _ => none

namespace Machine

def states (machine : Machine) : List State := machine.statements.filterMap Statement.state?

/-- The names of the initial states, repetitions included. -/
def initialNames (machine : Machine) : List String :=
  machine.statements.filterMap Statement.initial?

/-- The first state of the given name. -/
def state? (machine : Machine) (name : String) : Option State :=
  machine.states.find? (·.name = name)

def stateCount (machine : Machine) : Nat := machine.states.length

def transitions (machine : Machine) : List Transition := machine.states.flatMap (·.transitions)

def transitionCount (machine : Machine) : Nat := machine.transitions.length

def conditions (machine : Machine) : List Condition := machine.transitions.flatMap (·.conditions)

end Machine

end StateDiagram
