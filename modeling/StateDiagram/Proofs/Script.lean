import StateDiagram.Machine
import StateDiagram.Proofs.Composition

namespace StateDiagram

set_option autoImplicit true

def Chain.text (chain : Chain) : String :=
  ".".intercalate (chain.first.text :: chain.rest.map Identifier.text)

inductive NameScript where
  | quoted (plain : PlainText)
  | bare (chain : Chain)

namespace NameScript

def text : NameScript → String
  | quoted plain => plain.text
  | bare chain => chain.text

def print : NameScript → String
  | quoted plain => plain.quoted
  | bare chain => chain.text

end NameScript

/-- A declared name: an argument, or a type argument. -/
inductive HeadingScript where
  | named (name : NameScript)
  | typed (chain : Chain)

namespace HeadingScript

def text : HeadingScript → String
  | named name => name.text
  | typed chain => chain.text

def print : HeadingScript → String
  | named name => "(" ++ name.print ++ ")"
  | typed chain => "<" ++ chain.text ++ ">"

end HeadingScript

inductive ArgumentScript where
  | identifier (name : Identifier)
  | number (numeral : Numeral)

def ArgumentScript.text : ArgumentScript → String
  | identifier name => name.text
  | number numeral => numeral.text

inductive TargetScript where
  | plain (name : NameScript)
  | call (function : Identifier) (first : ArgumentScript) (rest : List ArgumentScript)

namespace TargetScript

def text : TargetScript → String
  | plain name => name.text
  | call function _ _ => function.text

def arguments : TargetScript → List String
  | plain _ => []
  | call _ first rest => first.text :: rest.map ArgumentScript.text

def print : TargetScript → String
  | plain name => name.print
  | call function first rest =>
    function.text ++ "(" ++ ", ".intercalate (first.text :: rest.map ArgumentScript.text) ++ ")"

end TargetScript

structure TransitionScript where
  event : HeadingScript
  target : TargetScript
  sideEffect : Option NameScript

namespace TransitionScript

def transition (script : TransitionScript) : Transition where
  event := script.event.text
  target := script.target.text
  arguments := script.target.arguments
  sideEffect := script.sideEffect.map NameScript.text

def print (script : TransitionScript) : String :=
  let sideEffect := match script.sideEffect with
    | none => ""
    | some name => ", " ++ name.print
  "on" ++ script.event.print ++ " \x7b transitionTo(" ++ script.target.print ++ sideEffect ++
    ") \x7d"

end TransitionScript

def spaces (width : Nat) : String := String.ofList (List.replicate width ' ')

/-- Lines that are each indented and put on a new line. -/
def printLines (width : Nat) (lines : List String) : String :=
  String.join (lines.map fun line => "\n" ++ spaces width ++ line)

/-- A state; what is done on entry and on exit is quoted text. -/
structure StateScript where
  heading : HeadingScript
  transitions : List TransitionScript
  onEnter : List PlainText
  onExit : List PlainText

namespace StateScript

def state (script : StateScript) : State where
  name := script.heading.text
  transitions := script.transitions.map TransitionScript.transition
  onEnter := script.onEnter.map PlainText.quoted
  onExit := script.onExit.map PlainText.quoted

def lines (script : StateScript) : List String :=
  script.transitions.map TransitionScript.print ++
    (script.onEnter.map (fun plain => "onEnter \x7b " ++ plain.quoted ++ " \x7d") ++
      script.onExit.map fun plain => "onExit \x7b " ++ plain.quoted ++ " \x7d")

def print (width : Nat) (script : StateScript) : String :=
  "state" ++ script.heading.print ++ " \x7b" ++ printLines (width + width) script.lines ++ "\n" ++
    spaces width ++ "\x7d"

end StateScript

inductive StatementScript where
  | initial (name : NameScript)
  | state (script : StateScript)

namespace StatementScript

def statement : StatementScript → Statement
  | initial name => .initial name.text
  | state script => .state script.state

def print (width : Nat) : StatementScript → String
  | initial name => "initialState(" ++ name.print ++ ")"
  | state script => script.print width

end StatementScript

structure MachineScript where
  statements : List StatementScript

namespace MachineScript

def machine (script : MachineScript) : Machine := ⟨script.statements.map StatementScript.statement⟩

def print (width : Nat) (script : MachineScript) : String :=
  "StateMachine.create \x7b" ++
    printLines width (script.statements.map (StatementScript.print width)) ++ "\n\x7d"

end MachineScript

def printMachines (width blank : Nat) (scripts : List MachineScript) : String :=
  "\n".intercalate (scripts.map (MachineScript.print width)) ++
    String.ofList (List.replicate blank '\n')

end StateDiagram
