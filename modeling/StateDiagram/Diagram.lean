import StateDiagram.Extraction

namespace StateDiagram

namespace Label

/-- Line breaks become `<br>` and double quotes single quotes. -/
def escapeCharacter (c : Char) : List Char :=
  if c = '\n' then ['<', 'b', 'r', '>'] else if c = '\x22' then ['\x27'] else [c]

def escapeChars (cs : List Char) : List Char :=
  (Text.normalizeLineEndings cs).flatMap escapeCharacter

/-- A text without line breaks and double quotes. -/
def escape (text : String) : String := String.ofList (escapeChars text.toList)

/-- The name of a state and the code it runs, a line each. -/
def parts (state : State) : List String :=
  state.name :: (state.onEnter.map ("onEnter: " ++ ·) ++ state.onExit.map ("onExit: " ++ ·))

def ofState (state : State) : String := escape ("\n".intercalate (parts state))

end Label

/-- An end of an edge: the position of a state, or none for a state that is not declared. -/
abbrev Endpoint := Option Nat

inductive Edge where
  | start (target : Endpoint)
  | transition (source target : Endpoint) (event : String) (sideEffect : Option String)
deriving DecidableEq, Repr

structure Diagram where
  /-- The escaped labels of the states. -/
  labels : List String
  edges : List Edge
deriving DecidableEq, Repr

/-- The position of the last occurrence. -/
def lastPosition? (name : String) : List String → Option Nat
  | [] => none
  | first :: rest =>
    match lastPosition? name rest with
    | some position => some (position + 1)
    | none => if first = name then some 0 else none

/-- The endpoint of a name; a name that is declared twice means its last declaration. -/
def Machine.endpoint (machine : Machine) (name : String) : Endpoint :=
  lastPosition? name (machine.states.map (·.name))

/-- The edges of a statement, with their texts escaped. -/
def Statement.edges (endpoint : String → Endpoint) : Statement → List Edge
  | .initial name => [.start (endpoint name)]
  | .state declared =>
    declared.transitions.map fun transition =>
      .transition (endpoint declared.name) (endpoint transition.target)
        (Label.escape transition.event) (transition.sideEffect.map Label.escape)

def Diagram.ofMachine (machine : Machine) : Diagram where
  labels := machine.states.map Label.ofState
  edges := machine.statements.flatMap (·.edges machine.endpoint)

namespace Diagram

def name : String := "mermaid"

def version : String := "0.1.0"

def header : String := "stateDiagram-v2"

/-- The identifier of an endpoint that is not declared. -/
def unresolvedId : String := "null"

def endpointId : Endpoint → String
  | some position => s!"s{position}"
  | none => unresolvedId

def indent : String := "    "

def declarationLine (position : Nat) (label : String) : String :=
  s!"{indent}state \"{label}\" as {endpointId (some position)}"

def edgeLine : Edge → String
  | .start target => s!"{indent}[*] --> {endpointId target}"
  | .transition source target event sideEffect =>
    let effect := match sideEffect with
      | some effect => " " ++ effect
      | none => ""
    s!"{indent}{endpointId source} --> {endpointId target}:{event} //{effect}"

/-- The declaration lines of labels that are numbered from `position` on. -/
def declarationLines (position : Nat) : List String → List String
  | [] => []
  | label :: labels => declarationLine position label :: declarationLines (position + 1) labels

def bodyLines (diagram : Diagram) : List String :=
  header :: (declarationLines 0 diagram.labels ++ diagram.edges.map edgeLine)

def openingFence : String := "\x60\x60\x60mermaid"

def closingFence : String := "\x60\x60\x60"

/-- The lines of the diagram, perhaps between the fences of a code block. -/
def lines (fenced : Bool) (diagram : Diagram) : List String :=
  if fenced then openingFence :: (diagram.bodyLines ++ [closingFence]) else diagram.bodyLines

/-- The text of the diagram; every line ends in LF. -/
def text (fenced : Bool) (diagram : Diagram) : String :=
  String.join (diagram.lines fenced |>.map (· ++ "\n"))

end Diagram

def Machine.draw (fenced : Bool) (machine : Machine) : String :=
  (Diagram.ofMachine machine).text fenced

/-- The diagrams of the machines of a source text. -/
def drawMachines (limits : Limits) (fenced : Bool) (source : String) :
    Except Fault (List String) := do
  let machines ← extractMachines limits source
  return machines.map (Machine.draw fenced)

/-- Diagrams one below the other, with a blank line between them. -/
def joinDiagrams (diagrams : List String) : String := "\n".intercalate diagrams

/-- The diagrams of the machines of a source text, as one document. -/
def drawDocument (limits : Limits) (fenced : Bool) (source : String) : Except Fault String := do
  let diagrams ← drawMachines limits fenced source
  return joinDiagrams diagrams

end StateDiagram
