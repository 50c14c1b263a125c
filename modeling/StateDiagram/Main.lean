import StateDiagram.CommandLine.Host

open StateDiagram.CommandLine

namespace StateDiagram.Main

/-- Reads a stream to its end. -/
partial def readAll (stream : IO.FS.Stream) (bytes : ByteArray) : IO ByteArray := do
  let more ← stream.read 65536
  if more.isEmpty then return bytes else readAll stream (bytes ++ more)

/-- The error of a code, which may be negated in 32 bits. -/
def codeError (code : UInt32) (details : String) : SystemError :=
  let number := if code < 2147483648 then code.toNat else (0 - code).toNat
  match number with
  | 2 => .notFound
  | 20 => .notDirectory
  | 21 => .isDirectory
  | number => .other s!"{details.capitalize} (os error {number})"

def systemError : IO.Error → SystemError
  | .noFileOrDirectory _ code details | .inappropriateType _ code details
  | .permissionDenied _ code details | .resourceExhausted _ code details
  | .noSuchThing _ code details | .alreadyExists _ code details
  | .invalidArgument _ code details => codeError code details
  | problem => .other (toString problem)

def attempt {α : Type} (action : IO α) : IO (Except SystemError α) := do
  try
    return .ok (← action)
  catch problem =>
    return .error (systemError problem)

def host : Host IO where
  readStandardInput := attempt do readAll (← IO.getStdin) .empty
  readFile path := attempt (IO.FS.readBinFile path)
  writeFile path content := attempt (IO.FS.writeFile path content)
  print text := do
    let out ← IO.getStdout
    out.putStr text
    out.flush
  printError text := IO.eprint text

def usage : String :=
  "Usage: stateviz [-v] [--log-level LEVEL] [--log-format FORMAT] COMMAND [OPTIONS]\n\n" ++
  "Commands:\n" ++
  "  render   Render every state machine as a Mermaid state diagram\n" ++
  "  extract  Print the extracted state machines as JSON\n" ++
  "  check    Fail if a state machine references an undeclared state\n" ++
  "  detect   Report whether the input likely contains a state machine builder\n" ++
  "  help     Print this message\n"

def problem : Stop → String
  | .help | .version | .noArguments => ""
  | .noCommand => "a command is required"
  | .unknownCommand => "there is no such command"
  | .unknownArgument => "there is no such option"
  | .malformedNumber => "a number is malformed"
  | .invalidValue => "an option has no valid value"
  | .repeatedOption => "an option is given twice"
  | .superfluousValue => "an option takes no value"

def explain : Stop → IO Unit
  | .help => IO.print usage
  | .version => IO.println s!"{programName} {programVersion}"
  | .noArguments => IO.eprint usage
  | stop => IO.eprintln s!"error: {problem stop}\n\n{usage}"

end StateDiagram.Main

open StateDiagram.Main in
def main (arguments : List String) : IO UInt32 := do
  match readArguments arguments with
  | .error stop =>
    explain stop
    return stop.exitCode.toUInt32
  | .ok invocation =>
    let environment ← IO.getEnv logFormatVariable
    return (← host.run environment invocation).toUInt32
