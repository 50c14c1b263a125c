import StateDiagram.CommandLine.Option
import StateDiagram.CommandLine.Task

namespace StateDiagram.CommandLine

/-- An option that was given, with its value if it takes one. -/
structure Given where
  name : OptionName
  value : String
deriving DecidableEq, Repr

/-- A number below 2^64, perhaps with a plus sign. -/
def number? (text : String) : Option Nat :=
  let digits := match text.toList with
    | '+' :: digits => digits
    | digits => digits
  if digits ≠ [] ∧ digits.all Char.isDigit then
    let value := digits.foldl (fun value digit => 10 * value + (digit.toNat - '0'.toNat)) 0
    if value < UInt64.size then some value else none
  else none

def ValueKind.check (value : String) : ValueKind → Except Stop Unit
  | .none | .text => .ok ()
  | .path => if value = "" then .error .invalidValue else .ok ()
  | .number => if (number? value).isSome then .ok () else .error .malformedNumber
  | .word allowed => if allowed.contains value then .ok () else .error .invalidValue

/-- The options read so far, and one whose value may still be outstanding. That value is looked at
only when the next option or the end is reached, so of two faults it is not always the first that is
reported. -/
structure Progress where
  given : List Given := []
  pending : Option (OptionSpec × Option String) := none

namespace Progress

/-- Takes an option in, unless it is a request for help, is lacking its value, was given before
or has a wrong value. -/
def accept (given : List Given) (spec : OptionSpec) (value : Option String) :
    Except Stop (List Given) := do
  if spec.takesValue && value.isNone then throw .invalidValue
  if spec.name = .help then throw .help
  if spec.name = .version then throw .version
  if given.any (·.name = spec.name) then throw .repeatedOption
  spec.value.check (value.getD "")
  return given ++ [⟨spec.name, value.getD ""⟩]

/-- The options read so far, once the outstanding one is settled. -/
def settle (progress : Progress) : Except Stop (List Given) :=
  match progress.pending with
  | none => .ok progress.given
  | some (spec, value) => accept progress.given spec value

/-- Whether the next argument is the value of an option. -/
def awaitsValue (progress : Progress) : Bool :=
  match progress.pending with
  | some (_, none) => true
  | _ => false

/-- Takes an option in at once. -/
def add (progress : Progress) (spec : OptionSpec) (value : Option String) :
    Except Stop Progress := do
  let given ← progress.settle
  return { given := ← accept given spec value }

/-- Takes an option in whose value is the next argument. -/
def await (progress : Progress) (spec : OptionSpec) : Except Stop Progress := do
  return { given := ← progress.settle, pending := some (spec, none) }

/-- Reads what follows `--`. -/
def readLong (options : List OptionSpec) (progress : Progress) (text : List Char) :
    Except Stop Progress :=
  let name := String.ofList (text.takeWhile (· ≠ '='))
  match options.find? (·.long = name), text.dropWhile (· ≠ '=') with
  | none, _ => .error .unknownArgument
  | some spec, [] => if spec.takesValue then progress.await spec else progress.add spec none
  | some spec, _ :: value =>
    if spec.takesValue then progress.add spec (some (String.ofList value))
    else .error .superfluousValue

/-- Reads the letters that follow `-`. What stands behind the letter of an option with a value is
its value. -/
def readShort (options : List OptionSpec) (progress : Progress) :
    List Char → Except Stop Progress
  | [] => .ok progress
  | letter :: rest =>
    match options.find? (·.short = some letter) with
    | none => .error .unknownArgument
    | some spec =>
      if spec.takesValue then
        match rest with
        | [] => progress.await spec
        | '=' :: value => progress.add spec (some (String.ofList value))
        | value => progress.add spec (some (String.ofList value))
      else do
        let next ← progress.add spec none
        readShort options next rest

end Progress

/-- What an argument outside its place is called. -/
def strayArgument (commands : List String) : Stop :=
  if commands.isEmpty then .unknownArgument else .unknownCommand

/-- Reads options up to the first of the given commands, whose arguments are left unread. -/
def readOptions (options : List OptionSpec) (commands : List String) (progress : Progress) :
    List String → Except Stop (Progress × Option (String × List String))
  | [] => .ok (progress, none)
  | argument :: rest =>
    if !progress.awaitsValue && commands.contains argument then
      .ok (progress, some (argument, rest))
    else
      match argument.toList with
      | ['-', '-'] =>
        match rest with
        | [] => .ok (progress, none)
        | next :: _ =>
          .error (if commands.contains next then .unknownArgument else strayArgument commands)
      | '-' :: '-' :: text => do
        let next ← progress.readLong options text
        readOptions options commands next rest
      | '-' :: letter :: letters => do
        let next ← progress.readShort options (letter :: letters)
        readOptions options commands next rest
      | _ =>
        match progress.pending with
        | some (spec, none) =>
          readOptions options commands { progress with pending := some (spec, some argument) } rest
        | _ => .error (strayArgument commands)

def given? (given : List Given) (name : OptionName) : Option String :=
  (given.find? (·.name = name)).map (·.value)

def hasOption (given : List Given) (name : OptionName) : Bool := (given? given name).isSome

def sourceOf (given : List Given) : SourceOptions where
  input := given? given .input
  fileName := given? given .fileName
  maxDepth := (given? given .maxDepth).bind number?

def taskOf (given : List Given) : Command → Task
  | .render => .render (sourceOf given) (given? given .output) !(hasOption given .noFence)
  | .extract => .extract (sourceOf given) (given? given .output) (hasOption given .pretty)
  | .check => .check (sourceOf given)
  | .detect => .detect (given? given .input)

/-- What the program is asked to do. -/
structure Invocation where
  verbose : Bool
  logFormat : Option LogFormat
  task : Task
deriving DecidableEq, Repr

def helpCommand : String := "help"

def commandNames : List String := helpCommand :: Command.all.map Command.name

/-- The answer to a request for help with the given words, of which there may be one. -/
def helpStop : List String → Stop
  | [] => .help
  | [name] => if commandNames.contains name then .help else .unknownCommand
  | _ => .unknownCommand

def readArguments (arguments : List String) : Except Stop Invocation := do
  let (global, command) ← readOptions globalOptions commandNames {} arguments
  match command with
  | none =>
    let given ← global.settle
    throw (if given.isEmpty then .noArguments else .noCommand)
  | some (name, rest) =>
    match Command.ofName? name with
    | none => throw (helpStop rest)
    | some command =>
      let (own, _) ← readOptions command.options [] {} rest
      let task := taskOf (← own.settle) command
      let given ← global.settle
      return {
        verbose := hasOption given .verbose
        logFormat := (given? given .logFormat).bind LogFormat.ofName?
        task }

end StateDiagram.CommandLine
