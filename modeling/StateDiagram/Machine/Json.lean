import StateDiagram.Json
import StateDiagram.Machine

namespace StateDiagram

def Json.strings (texts : List String) : Json := .array (texts.map .string)

def Condition.toJson : Condition → Json
  | .holds expression => .object [("type", .string "if"), ("expression", .string expression)]
  | .fails expression => .object [("type", .string "if_not"), ("expression", .string expression)]

def Transition.toJson (transition : Transition) : Json :=
  .object [
    ("event", .string transition.event),
    ("target_state", .string transition.target),
    ("target_args", .strings transition.arguments),
    ("side_effect", (transition.sideEffect.map .string).getD .null),
    ("conditions", .array (transition.conditions.map Condition.toJson))]

def State.toFields (state : State) : List (String × Json) := [
  ("name", .string state.name),
  ("transitions", .array (state.transitions.map Transition.toJson)),
  ("on_enter", .strings state.onEnter),
  ("on_exit", .strings state.onExit)]

def Statement.toJson : Statement → Json
  | .initial name => .object [("type", .string "initial_state"), ("state", .string name)]
  | .state declared => .object (("type", .string "state") :: declared.toFields)

def Machine.toJson (machine : Machine) : Json :=
  .object [("statements", .array (machine.statements.map Statement.toJson))]

def Machine.listToJson (machines : List Machine) : Json := .array (machines.map Machine.toJson)

/-- The text of a list of machines, on one line or with one item a line. -/
def Machine.listText (pretty : Bool) (machines : List Machine) : String :=
  let json := listToJson machines
  if pretty then json.pretty else json.compact

end StateDiagram
