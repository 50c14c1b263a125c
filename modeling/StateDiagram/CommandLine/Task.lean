import StateDiagram.Detection
import StateDiagram.Diagram
import StateDiagram.Machine.Json
import StateDiagram.Machine.Reference

namespace StateDiagram.CommandLine

/-- Where source text comes from and how deep it may nest. -/
structure SourceOptions where
  input : Option String := none
  fileName : Option String := none
  maxDepth : Option Nat := none
deriving DecidableEq, Repr

inductive Task where
  | render (source : SourceOptions) (output : Option String) (fenced : Bool)
  | extract (source : SourceOptions) (output : Option String) (pretty : Bool)
  | check (source : SourceOptions)
  | detect (input : Option String)
deriving DecidableEq, Repr

/-- The path that stands for the standard streams. -/
def standardStream : String := "-"

/-- A path that names a file rather than a standard stream. -/
def namedFile? (path : Option String) : Option String := path.filter (· ≠ standardStream)

/-- The last part of a path, unless it leads to a directory by dots. -/
def finalComponent? (path : String) : Option String :=
  (((path.splitOn "/").filter fun part => part ≠ "" && part ≠ ".").getLast?).filter (· ≠ "..")

namespace SourceOptions

/-- The name under which the source is reported. -/
def shownName (source : SourceOptions) : String :=
  match source.fileName with
  | some name => name
  | none => ((namedFile? source.input).bind finalComponent?).getD Dialect.defaultFileName

def limits (source : SourceOptions) : Limits :=
  let depth := source.maxDepth.getD defaultDepth
  ⟨depth, depth⟩

end SourceOptions

namespace Task

def input : Task → Option String
  | .render source _ _ | .extract source _ _ | .check source => source.input
  | .detect input => input

def output : Task → Option String
  | .render _ output _ | .extract _ output _ => output
  | .check _ | .detect _ => none

end Task

/-- What a task has to say. -/
structure Report where
  /-- Lines for the error stream that are given on request only. -/
  notes : List String := []
  /-- Lines for the error stream that are always given. -/
  complaints : List String := []
  /-- Lines for the standard output. -/
  findings : List String := []
  /-- The document that goes to the output of the task, or what went wrong. -/
  result : Except String (Option String)

def renderReport (source : SourceOptions) (fenced : Bool) (content : String) : Report :=
  let read := s!"Read {content.utf8ByteSize} bytes of input from {source.shownName}"
  match drawMachines source.limits fenced content with
  | .error fault => { notes := [read], result := .error fault.message }
  | .ok diagrams =>
    { notes := [read, s!"Rendered {diagrams.length} state machine(s)"]
      result := .ok (some (joinDiagrams diagrams)) }

def extractReport (source : SourceOptions) (pretty : Bool) (content : String) : Report :=
  match extractMachines source.limits content with
  | .error fault => { result := .error fault.message }
  | .ok machines =>
    { notes := [s!"Extracted {machines.length} state machine(s)"]
      result := .ok (some (Machine.listText pretty machines)) }

/-- The unresolved references of one machine, a line each. -/
def machineFindings (index : Nat) (machine : Machine) : List String :=
  machine.unresolvedReferences.map fun reference => s!"✗ Machine {index}: {reference.message}"

def machineNote (index : Nat) (machine : Machine) : String :=
  s!"Machine {index}: {machine.stateCount} state(s), {machine.transitionCount} transition(s)"

def checkReport (source : SourceOptions) (content : String) : Report :=
  let name := source.shownName
  match extractMachines source.limits content with
  | .error fault =>
    { findings := [s!"✗ Invalid state machine DSL in {name}: {fault.message}"]
      result := .error fault.message }
  | .ok [] =>
    { findings := [s!"✗ No state machine found in {name}"]
      result := .error "No StateMachine.create block found" }
  | .ok machines =>
    let notes := machines.mapIdx machineNote
    match (machines.mapIdx machineFindings).flatten with
    | [] =>
      { notes, findings := [s!"✓ {machines.length} valid state machine(s) in {name}"]
        result := .ok none }
    | findings =>
      { notes, findings
        result := .error s!"{findings.length} unresolved state reference(s)" }

def detectReport (content : String) : Report :=
  let notes := [s!"Read {content.utf8ByteSize} bytes of input"]
  if Detection.detects content then
    let confidence := (Detection.confidence content).text
    { notes, findings := [s!"{Detection.builderName} (confidence {confidence})"]
      result := .ok none }
  else
    { notes, complaints := [s!"No {Detection.builderName} block detected"]
      result := .error "No state machine DSL detected" }

def Task.report (task : Task) (content : String) : Report :=
  match task with
  | .render source _ fenced => renderReport source fenced content
  | .extract source _ pretty => extractReport source pretty content
  | .check source => checkReport source content
  | .detect _ => detectReport content

end StateDiagram.CommandLine
