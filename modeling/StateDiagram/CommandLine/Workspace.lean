import StateDiagram.CommandLine.Host

namespace StateDiagram.CommandLine

/-- The parts of a path below the working directory. -/
abbrev FilePath := List String

/-- A working directory and the standard streams. A directory exists if a file lies below it. -/
structure Workspace where
  files : List (FilePath × ByteArray) := []
  input : ByteArray := .empty
  output : String := ""
  errors : String := ""

/-- What a path leads to. -/
inductive Entry where
  | file (path : FilePath) (content : ByteArray)
  | directory
  /-- Nothing, in a directory that exists; `slashed` says that the path ends in a slash. -/
  | vacant (path : FilePath) (slashed : Bool)
  | broken (problem : SystemError)

namespace Workspace

def file? (workspace : Workspace) (path : FilePath) : Option ByteArray :=
  workspace.files.lookup path

def isDirectory (workspace : Workspace) (path : FilePath) : Bool :=
  workspace.files.any fun file => path.isPrefixOf file.1 && path ≠ file.1

/-- Follows the parts of a path from a directory; `none` is a directory outside. -/
def follow (workspace : Workspace) (directory : Option FilePath) : List String → Entry
  | [] => .directory
  | part :: rest =>
    if part = "" ∨ part = "." then workspace.follow directory rest
    else if part = ".." then
      match directory with
      | none | some [] => workspace.follow none rest
      | some (first :: more) => workspace.follow (some (first :: more).dropLast) rest
    else
      match directory with
      | none => .broken .notFound
      | some directory =>
        let path := directory ++ [part]
        match workspace.file? path with
        | some content => if rest = [] then .file path content else .broken .notDirectory
        | none =>
          if workspace.isDirectory path then workspace.follow (some path) rest
          else if rest.all (· = "") then .vacant path (rest ≠ [])
          else .broken .notFound

/-- The entry that a path leads to; a path from the root leads outside. -/
def entry (workspace : Workspace) (path : String) : Entry :=
  workspace.follow (if path.startsWith "/" then none else some []) (path.splitOn "/")

def read (workspace : Workspace) (path : String) : Except SystemError ByteArray :=
  match workspace.entry path with
  | .file _ content => .ok content
  | .directory => .error .isDirectory
  | .vacant _ _ => .error .notFound
  | .broken problem => .error problem

/-- Replaces the content of a file or adds the file at the end. -/
def put (path : FilePath) (content : ByteArray) :
    List (FilePath × ByteArray) → List (FilePath × ByteArray)
  | [] => [(path, content)]
  | file :: files =>
    if file.1 = path then (path, content) :: files else file :: put path content files

def write (workspace : Workspace) (path : String) (content : ByteArray) :
    Except SystemError Workspace :=
  let stored (path : FilePath) := { workspace with files := put path content workspace.files }
  match workspace.entry path with
  | .file path _ => .ok (stored path)
  | .directory => .error .isDirectory
  | .vacant path slashed => if slashed then .error .isDirectory else .ok (stored path)
  | .broken problem => .error problem

def host : Host (StateM Workspace) where
  readStandardInput := do return .ok (← get).input
  readFile path := do return (← get).read path
  writeFile path content := do
    match (← get).write path content.toUTF8 with
    | .ok workspace => set workspace; return .ok ()
    | .error problem => return .error problem
  print text := modify fun workspace => { workspace with output := workspace.output ++ text }
  printError text := modify fun workspace => { workspace with errors := workspace.errors ++ text }

end Workspace

/-- How a run over a workspace ends. -/
def runIn (workspace : Workspace) (environment : Option String) (invocation : Invocation) :
    Nat × Workspace :=
  (Workspace.host.run environment invocation).run workspace

end StateDiagram.CommandLine
