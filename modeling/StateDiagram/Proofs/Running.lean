import Mathlib.Data.List.Basic
import StateDiagram.CommandLine.Workspace

namespace StateDiagram.CommandLine

set_option autoImplicit true

/-- What the system refuses although nothing is wrong with the path, such as for want of a right
or of space. -/
structure Refusals where
  input : Option SystemError := none
  reading : String → Option SystemError := fun _ => none
  writing : String → String → Option SystemError := fun _ _ => none

/-- The host of a system that refuses. What is refused changes nothing. -/
def Host.refusing [Monad m] (host : Host m) (refusals : Refusals) : Host m where
  readStandardInput :=
    match refusals.input with
    | some problem => return .error problem
    | none => host.readStandardInput
  readFile path :=
    match refusals.reading path with
    | some problem => return .error problem
    | none => host.readFile path
  writeFile path content :=
    match refusals.writing path content with
    | some problem => return .error problem
    | none => host.writeFile path content
  print := host.print
  printError := host.printError

def endLines (lines : List String) : String := String.join (lines.map (· ++ "\n"))

theorem endLines_nil : endLines [] = "" := by
  rw [endLines, List.map_nil, String.join_nil]

theorem endLines_cons (line : String) (lines : List String) :
    endLines (line :: lines) = (line ++ "\n") ++ endLines lines := by
  rw [endLines, List.map_cons, String.join_cons, endLines]

theorem decodeText_toUTF8 (text : String) : decodeText text.toUTF8 = .ok text := by
  have htext : String.fromUTF8? text.toUTF8 = some text := by
    rw [String.fromUTF8?]
    split
    · rfl
    · next hv => exact (hv text.isValidUTF8).elim
  rw [decodeText, htext]

theorem decodeText_eq_ok_iff {bytes : ByteArray} {text : String} :
    decodeText bytes = .ok text ↔ bytes = text.toUTF8 := by
  constructor
  · intro h
    rw [decodeText, String.fromUTF8?] at h
    split at h
    · next decoded hd =>
      obtain rfl := Except.ok.inj h
      split at hd
      · obtain rfl := Option.some.inj hd
        rfl
      · cases hd
    · cases h
  · rintro rfl
    exact decodeText_toUTF8 text

namespace Workspace

def print (workspace : Workspace) (text : String) : Workspace :=
  { workspace with output := workspace.output ++ text }

def printError (workspace : Workspace) (text : String) : Workspace :=
  { workspace with errors := workspace.errors ++ text }

/-- The bytes of an input, or why they cannot be read. -/
def inputBytes (workspace : Workspace) (refusals : Refusals) (input : Option String) :
    Except SystemError ByteArray :=
  match namedFile? input with
  | none => (refusals.input.map .error).getD (.ok workspace.input)
  | some path => ((refusals.reading path).map .error).getD (workspace.read path)

/-- The message about an input that is no text. -/
def inputProblem (input : Option String) (problem : String) : String :=
  match namedFile? input with
  | none => problem
  | some path => s!"Failed to read input file '{path}': {problem}"

def sourceUnder (workspace : Workspace) (refusals : Refusals) (input : Option String) :
    Except String String :=
  (((workspace.inputBytes refusals input).mapError SystemError.message).bind decodeText).mapError
    (inputProblem input)

def sourceText (workspace : Workspace) (input : Option String) : Except String String :=
  match namedFile? input with
  | none => decodeText workspace.input
  | some path =>
    (((workspace.read path).mapError SystemError.message).bind decodeText).mapError fun problem =>
      s!"Failed to read input file '{path}': {problem}"

theorem sourceUnder_none (workspace : Workspace) (input : Option String) :
    workspace.sourceUnder {} input = workspace.sourceText input := by
  rw [sourceUnder, sourceText, inputBytes]
  unfold inputProblem
  cases namedFile? input with
  | none =>
    change (decodeText workspace.input).mapError _ = _
    cases decodeText workspace.input <;> rfl
  | some path => rfl

theorem sourceUnder_eq_ok_iff {workspace : Workspace} {refusals : Refusals}
    {input : Option String} {text : String} :
    workspace.sourceUnder refusals input = .ok text ↔
      workspace.inputBytes refusals input = .ok text.toUTF8 := by
  rw [sourceUnder]
  cases workspace.inputBytes refusals input with
  | error problem => exact iff_of_false nofun nofun
  | ok bytes =>
    change (decodeText bytes).mapError _ = _ ↔ _
    rw [Except.ok.injEq, ← decodeText_eq_ok_iff]
    cases decodeText bytes with
    | error problem => exact iff_of_false nofun nofun
    | ok decoded => exact Iff.rfl

theorem run_bind_eq {first : StateM Workspace α} {workspace next : Workspace} {result : α}
    (h : first.run workspace = (result, next)) (rest : α → StateM Workspace β) :
    (first >>= rest).run workspace = (rest result).run next := by
  rw [StateT.run_bind, h]
  rfl

theorem run_readSource_refusing (workspace : Workspace) (refusals : Refusals)
    (input : Option String) :
    ((host.refusing refusals).readSource input).run workspace =
      (workspace.sourceUnder refusals input, workspace) := by
  rw [Host.readSource, sourceUnder, inputBytes, Host.refusing]
  unfold inputProblem
  cases namedFile? input with
  | none =>
    cases refusals.input with
    | some problem => rfl
    | none =>
      change (decodeText workspace.input, workspace) = ((decodeText workspace.input).mapError _, _)
      cases decodeText workspace.input <;> rfl
  | some path => cases hr : refusals.reading path <;> simp only [hr] <;> rfl

theorem run_readSource (workspace : Workspace) (input : Option String) :
    (host.readSource input).run workspace = (workspace.sourceText input, workspace) := by
  rw [← sourceUnder_none]
  exact workspace.run_readSource_refusing {} input

theorem run_forM_lines {emit : String → StateM Workspace Unit}
    {add : Workspace → String → Workspace}
    (he : ∀ workspace line, (emit line).run workspace = ((), add workspace (line ++ "\n")))
    (hn : ∀ workspace, add workspace "" = workspace)
    (ha : ∀ workspace front back, add (add workspace front) back = add workspace (front ++ back))
    (workspace : Workspace) (lines : List String) :
    (lines.forM emit).run workspace = ((), add workspace (endLines lines)) := by
  induction lines generalizing workspace with
  | nil =>
    rw [endLines_nil, hn]
    rfl
  | cons line lines ih =>
    rw [endLines_cons, ← ha, ← ih]
    exact run_bind_eq (he workspace line) _

theorem run_forM_printLine (workspace : Workspace) (lines : List String) :
    (lines.forM host.printLine).run workspace = ((), workspace.print (endLines lines)) := by
  refine run_forM_lines (fun _ _ => ?_) (fun _ => ?_) (fun _ _ _ => ?_) workspace lines
  · rfl
  · rw [print, String.append_empty]
  · simp only [print, String.append_assoc]

theorem run_forM_printErrorLine (workspace : Workspace) (lines : List String) :
    (lines.forM host.printErrorLine).run workspace =
      ((), workspace.printError (endLines lines)) := by
  refine run_forM_lines (fun _ _ => ?_) (fun _ => ?_) (fun _ _ _ => ?_) workspace lines
  · rfl
  · rw [printError, String.append_empty]
  · simp only [printError, String.append_assoc]

/-- Paths lead to the same entries where the files are the same. -/
theorem follow_congr {first second : Workspace} (h : first.files = second.files)
    (directory : Option FilePath) (parts : List String) :
    first.follow directory parts = second.follow directory parts := by
  have hfile (path : FilePath) : first.file? path = second.file? path := by rw [file?, file?, h]
  have hdirectory (path : FilePath) : first.isDirectory path = second.isDirectory path := by
    rw [isDirectory, isDirectory, h]
  induction parts generalizing directory with
  | nil => rfl
  | cons part rest ih => simp only [follow, ih, hfile, hdirectory]

theorem entry_congr (first second : Workspace) (h : first.files = second.files) (path : String) :
    first.entry path = second.entry path := follow_congr h _ _

theorem sourceUnder_congr (first second : Workspace) (hf : first.files = second.files)
    (hi : first.input = second.input) (refusals : Refusals) (input : Option String) :
    first.sourceUnder refusals input = second.sourceUnder refusals input := by
  have hread (path : String) : first.read path = second.read path := by
    rw [read, read, entry_congr first second hf]
  simp only [sourceUnder, inputBytes, hi, hread]

theorem sourceText_printError (workspace : Workspace) (text : String) (input : Option String) :
    (workspace.printError text).sourceText input = workspace.sourceText input := by
  rw [← sourceUnder_none, ← sourceUnder_none]
  exact sourceUnder_congr (workspace.printError text) workspace rfl rfl {} input

/-- What a report leaves behind. -/
def tell (workspace : Workspace) (verbose : Bool) (report : Report) : Workspace :=
  (workspace.printError
    (endLines ((if verbose then report.notes else []) ++ report.complaints))).print
      (endLines report.findings)

/-- What is done with the result of a report under a system that refuses. -/
def settleUnder (workspace : Workspace) (refusals : Refusals) (output : Option String) :
    Except String (Option String) → Except String Unit × Workspace
  | .error problem => (.error problem, workspace)
  | .ok none => (.ok (), workspace)
  | .ok (some document) => ((host.refusing refusals).deliver output document).run workspace

def settle (workspace : Workspace) (output : Option String) :
    Except String (Option String) → Except String Unit × Workspace
  | .error problem => (.error problem, workspace)
  | .ok none => (.ok (), workspace)
  | .ok (some document) => (host.deliver output document).run workspace

theorem settleUnder_none (workspace : Workspace) (output : Option String)
    (result : Except String (Option String)) :
    workspace.settleUnder {} output result = workspace.settle output result := by
  rcases result with problem | _ | document <;> rfl

section

variable {workspace : Workspace} {refusals : Refusals} {task : Task} {problem content : String}

theorem run_perform_error_refusing (h : workspace.sourceUnder refusals task.input = .error problem)
    (verbose : Bool) :
    ((host.refusing refusals).perform verbose task).run workspace =
      (.error problem, workspace) := by
  have hread := run_readSource_refusing workspace refusals task.input
  rw [h] at hread
  exact run_bind_eq hread _

theorem run_perform_ok_refusing (h : workspace.sourceUnder refusals task.input = .ok content)
    (verbose : Bool) :
    ((host.refusing refusals).perform verbose task).run workspace =
      (workspace.tell verbose (task.report content)).settleUnder refusals task.output
        (task.report content).result := by
  have hread := run_readSource_refusing workspace refusals task.input
  rw [h] at hread
  rw [Host.perform, run_bind_eq hread]
  -- What is printed does not pass through the refusals.
  refine (run_bind_eq (run_forM_printErrorLine _ _) _).trans ?_
  refine (run_bind_eq (run_forM_printLine _ _) _).trans ?_
  rw [tell]
  rcases (task.report content).result with problem | _ | document <;> rfl

theorem run_perform_error (h : workspace.sourceText task.input = .error problem)
    (verbose : Bool) :
    (host.perform verbose task).run workspace = (.error problem, workspace) := by
  rw [← sourceUnder_none] at h
  exact run_perform_error_refusing h verbose

theorem run_perform_ok (h : workspace.sourceText task.input = .ok content) (verbose : Bool) :
    (host.perform verbose task).run workspace =
      (workspace.tell verbose (task.report content)).settle task.output
        (task.report content).result := by
  rw [← sourceUnder_none] at h
  rw [← settleUnder_none]
  exact run_perform_ok_refusing h verbose

end

/-- What is said before a task is carried out. -/
def opening (environment : Option String) (invocation : Invocation) : List String :=
  (formatWarning? invocation environment).toList ++
    if invocation.verbose then [s!"{programName} v{programVersion}"] else []

/-- How a run ends whose task ends in such a way. -/
def finish : Except String Unit × Workspace → Nat × Workspace
  | (.ok (), workspace) => (0, workspace)
  | (.error problem, workspace) => (1, workspace.printError (s!"Error: {problem}" ++ "\n"))

/-- What a run does when its task has ended. -/
def conclude : Except String Unit → StateM Workspace Nat
  | .ok () => return 0
  | .error problem => do
    host.printErrorLine s!"Error: {problem}"
    return 1

/-- How a run over a workspace ends under a system that refuses. -/
def runUnder (workspace : Workspace) (refusals : Refusals) (environment : Option String)
    (invocation : Invocation) : Nat × Workspace :=
  ((host.refusing refusals).run environment invocation).run workspace

theorem runUnder_none (workspace : Workspace) (environment : Option String)
    (invocation : Invocation) :
    workspace.runUnder {} environment invocation = runIn workspace environment invocation := rfl

theorem runUnder_eq (workspace : Workspace) (refusals : Refusals) (environment : Option String)
    (invocation : Invocation) :
    workspace.runUnder refusals environment invocation =
      finish (((host.refusing refusals).perform invocation.verbose invocation.task).run
        (workspace.printError (endLines (opening environment invocation)))) := by
  have hrun : (host.refusing refusals).run environment invocation =
      (opening environment invocation).forM host.printErrorLine >>= fun _ =>
        (host.refusing refusals).perform invocation.verbose invocation.task >>= conclude := by
    rw [Host.run, opening]
    cases formatWarning? invocation environment <;> cases invocation.verbose <;> rfl
  rw [runUnder, hrun, run_bind_eq (run_forM_printErrorLine _ _), StateT.run_bind]
  generalize ((host.refusing refusals).perform invocation.verbose invocation.task).run _ = ended
  obtain ⟨problem | _, workspace⟩ := ended <;> rfl

theorem runIn_eq (workspace : Workspace) (environment : Option String) (invocation : Invocation) :
    runIn workspace environment invocation =
      finish ((host.perform invocation.verbose invocation.task).run
        (workspace.printError (endLines (opening environment invocation)))) := by
  rw [← runUnder_none]
  exact workspace.runUnder_eq {} environment invocation

end Workspace

end StateDiagram.CommandLine
