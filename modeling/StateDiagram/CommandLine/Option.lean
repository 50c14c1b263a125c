import StateDiagram.Text

namespace StateDiagram

inductive LogFormat where
  | compact
  | pretty
  | json
deriving DecidableEq, Repr

namespace LogFormat

def all : List LogFormat := [.compact, .pretty, .json]

def name : LogFormat → String
  | .compact => "compact"
  | .pretty => "pretty"
  | .json => "json"

/-- The format of a name in any case. -/
def ofName? (text : String) : Option LogFormat := all.find? (·.name = Text.lower text)

def unknownMessage (text : String) : String := s!"Unknown log format: {text}"

end LogFormat

namespace CommandLine

/-- Why the arguments lead to no run. -/
inductive Stop where
  | help
  | version
  | noArguments
  | noCommand
  | unknownCommand
  | unknownArgument
  | malformedNumber
  | invalidValue
  | repeatedOption
  | superfluousValue
deriving DecidableEq, Repr

/-- Asking for help or for the version is no failure. -/
def Stop.exitCode : Stop → Nat
  | .help | .version => 0
  | _ => 2

inductive OptionName where
  | help
  | version
  | verbose
  | logLevel
  | logFormat
  | input
  | fileName
  | maxDepth
  | output
  | noFence
  | pretty
deriving DecidableEq, Repr

/-- What follows an option: nothing, or a value of some kind. -/
inductive ValueKind where
  | none
  | path
  | text
  | number
  | word (allowed : List String)
deriving DecidableEq, Repr

structure OptionSpec where
  name : OptionName
  long : String
  short : Option Char := none
  value : ValueKind := .none
deriving DecidableEq, Repr

def OptionSpec.takesValue (spec : OptionSpec) : Bool := spec.value != .none

def logLevels : List String := ["trace", "debug", "info", "warn", "error"]

def helpOption : OptionSpec := { name := .help, long := "help", short := some 'h' }

def inputOption : OptionSpec :=
  { name := .input, long := "input", short := some 'i', value := .path }

def outputOption : OptionSpec :=
  { name := .output, long := "output", short := some 'o', value := .path }

/-- The options that stand before the command. -/
def globalOptions : List OptionSpec := [
  { name := .verbose, long := "verbose", short := some 'v' },
  { name := .logLevel, long := "log-level", value := .word logLevels },
  { name := .logFormat, long := "log-format", value := .word (LogFormat.all.map (·.name)) },
  helpOption,
  { name := .version, long := "version", short := some 'V' }]

/-- The options of every command that parses source text. -/
def sourceOptions : List OptionSpec := [
  inputOption,
  { name := .fileName, long := "file-name", value := .text },
  { name := .maxDepth, long := "max-depth", value := .number },
  helpOption]

inductive Command where
  | render
  | extract
  | check
  | detect
deriving DecidableEq, Repr

namespace Command

def all : List Command := [.render, .extract, .check, .detect]

def name : Command → String
  | .render => "render"
  | .extract => "extract"
  | .check => "check"
  | .detect => "detect"

def options : Command → List OptionSpec
  | .render => outputOption :: { name := .noFence, long := "no-fence" } :: sourceOptions
  | .extract => outputOption :: { name := .pretty, long := "pretty" } :: sourceOptions
  | .check => sourceOptions
  | .detect => [inputOption, helpOption]

def ofName? (text : String) : Option Command := all.find? (·.name = text)

end Command

end CommandLine

end StateDiagram
