import StateDiagram.CommandLine.Arguments

namespace StateDiagram.CommandLine

/-- Why a file cannot be read or written. -/
inductive SystemError where
  | notFound
  | notDirectory
  | isDirectory
  | other (text : String)
deriving DecidableEq, Repr

def SystemError.message : SystemError → String
  | .notFound => "No such file or directory (os error 2)"
  | .notDirectory => "Not a directory (os error 20)"
  | .isDirectory => "Is a directory (os error 21)"
  | .other text => text

/-- The streams and files of a run, those of the operating system or of a model of it. -/
structure Host (m : Type → Type) where
  readStandardInput : m (Except SystemError ByteArray)
  readFile (path : String) : m (Except SystemError ByteArray)
  writeFile (path content : String) : m (Except SystemError Unit)
  print (text : String) : m Unit
  printError (text : String) : m Unit

def programName : String := "stateviz"

def programVersion : String := "0.1.0"

/-- The variable that names a log format when no option does. -/
def logFormatVariable : String := "STATEVIZ_LOG_FORMAT"

/-- The warning about a log format that is asked for by the environment only. -/
def formatWarning? (invocation : Invocation) (environment : Option String) : Option String :=
  match invocation.logFormat, environment with
  | none, some name =>
    let problem := LogFormat.unknownMessage name
    match LogFormat.ofName? name with
    | none => some s!"Warning: Failed to initialize logging: Invalid log format: {problem}"
    | some _ => none
  | _, _ => none

/-- The text of some bytes, or what is wrong with them. -/
def decodeText (bytes : ByteArray) : Except String String :=
  match String.fromUTF8? bytes with
  | some text => .ok text
  | none => .error "stream did not contain valid UTF-8"

/-- A document as it is printed, with its last line ended. -/
def endLine (document : String) : String :=
  match document.toList.getLast? with
  | none | some '\n' => document
  | some _ => document ++ "\n"

variable {m : Type → Type} [Monad m]

namespace Host

def printLine (host : Host m) (line : String) : m Unit := host.print (line ++ "\n")

def printErrorLine (host : Host m) (line : String) : m Unit := host.printError (line ++ "\n")

def readSource (host : Host m) (input : Option String) : m (Except String String) := do
  match namedFile? input with
  | none => return (← host.readStandardInput).mapError SystemError.message |>.bind decodeText
  | some path =>
    let content := (← host.readFile path).mapError SystemError.message |>.bind decodeText
    return content.mapError fun problem => s!"Failed to read input file '{path}': {problem}"

/-- Delivers a document to a file or to the standard output. -/
def deliver (host : Host m) (output : Option String) (document : String) :
    m (Except String Unit) := do
  match namedFile? output with
  | none =>
    host.print (endLine document)
    return .ok ()
  | some path =>
    return (← host.writeFile path document).mapError fun problem =>
      s!"Failed to write output file '{path}': {problem.message}"

/-- Carries out a task. -/
def perform (host : Host m) (verbose : Bool) (task : Task) : m (Except String Unit) := do
  match ← host.readSource task.input with
  | .error problem => return .error problem
  | .ok content =>
    let report := task.report content
    ((if verbose then report.notes else []) ++ report.complaints).forM host.printErrorLine
    report.findings.forM host.printLine
    match report.result with
    | .error problem => return .error problem
    | .ok none => return .ok ()
    | .ok (some document) => host.deliver task.output document

/-- Runs the program and gives its exit code. -/
def run (host : Host m) (environment : Option String) (invocation : Invocation) : m Nat := do
  if let some warning := formatWarning? invocation environment then
    host.printErrorLine warning
  if invocation.verbose then
    host.printErrorLine s!"{programName} v{programVersion}"
  match ← host.perform invocation.verbose invocation.task with
  | .ok () => return 0
  | .error problem =>
    host.printErrorLine s!"Error: {problem}"
    return 1

end Host

end StateDiagram.CommandLine
