import StateDiagram.CommandLine.Arguments
import StateDiagram.Proofs.FileWriting

namespace StateDiagram.CommandLine

/-- The limits that are set by one depth. -/
def depthLimits : Option Nat → Limits
  | none => {}
  | some depth => ⟨depth, depth⟩

/-- The machines of a source text, as one document. -/
def extractDocument (limits : Limits) (pretty : Bool) (source : String) : Except Fault String :=
  (extractMachines limits source).map (Machine.listText pretty)

namespace Task

/-- How the library makes the document of a task, if it has one. -/
def maker? : Task → Option (String → Except Fault String)
  | .render source _ fenced => some (drawDocument (depthLimits source.maxDepth) fenced)
  | .extract source _ pretty => some (extractDocument (depthLimits source.maxDepth) pretty)
  | .check _ | .detect _ => none

/-- The task without the name that is given to its source. -/
def anonymous : Task → Task
  | .render source output fenced => .render { source with fileName := none } output fenced
  | .extract source output pretty => .extract { source with fileName := none } output pretty
  | .check source => .check { source with fileName := none }
  | .detect input => .detect input

theorem maker?_anonymous (task : Task) : task.anonymous.maker? = task.maker? := by
  cases task <;> rfl

theorem input_anonymous (task : Task) : task.anonymous.input = task.input := by
  cases task <;> rfl

theorem output_anonymous (task : Task) : task.anonymous.output = task.output := by
  cases task <;> rfl

end Task

/-- What a document lacks for its last line to be ended. -/
def lackingLineEnd (document : String) : String :=
  if document = "" ∨ document.toList.getLast? = some '\n' then "" else "\n"

theorem endLine_eq (document : String) :
    endLine document = document ++ lackingLineEnd document := by
  rw [endLine, lackingLineEnd]
  split
  · next h =>
    rw [List.getLast?_eq_none_iff, String.toList_eq_nil_iff] at h
    rw [if_pos (.inl h), String.append_empty]
  · next h => rw [if_pos (.inr h), String.append_empty]
  · next last hne hl =>
    rw [if_neg]
    rintro (rfl | h)
    · cases hl
    · exact hne (Option.some.inj (hl.symm.trans h))

theorem limits_eq (source : SourceOptions) : source.limits = depthLimits source.maxDepth := by
  rw [SourceOptions.limits]
  cases source.maxDepth <;> rfl

theorem report_of_maker? {task : Task} {make : String → Except Fault String}
    (h : task.maker? = some make) (text : String) :
    (task.report text).findings = [] ∧
      (task.report text).result = ((make text).mapError Fault.message).map some := by
  cases task with
  | render source output fenced =>
    obtain rfl := Option.some.inj h
    rw [Task.report, renderReport, drawDocument, limits_eq]
    cases drawMachines (depthLimits source.maxDepth) fenced text <;> exact ⟨rfl, rfl⟩
  | extract source output pretty =>
    obtain rfl := Option.some.inj h
    rw [Task.report, extractReport, extractDocument, limits_eq]
    cases extractMachines (depthLimits source.maxDepth) text <;> exact ⟨rfl, rfl⟩
  | check source => cases h
  | detect input => cases h

namespace Workspace

def saying (workspace : Workspace) (errors : String) : Workspace :=
  { workspace with errors := errors }

/-- The document of a task, or what goes wrong on the way to it. -/
def documentUnder (workspace : Workspace) (refusals : Refusals) (input : Option String)
    (make : String → Except Fault String) : Except String String :=
  (workspace.sourceUnder refusals input).bind fun text => (make text).mapError Fault.message

/-- Whether the system lets a document be written. -/
def Writable (workspace : Workspace) (refusals : Refusals) (output : Option String)
    (document : String) : Prop :=
  ∀ path, namedFile? output = some path →
    refusals.writing path document = none ∧ workspace.target? path ≠ none

/-- A document has been delivered and nothing else has happened. -/
def Delivered (before after : Workspace) (output : Option String) (document : String) : Prop :=
  match namedFile? output with
  | none =>
    after.output = before.output ++ document ++ lackingLineEnd document ∧
      after.files = before.files
  | some path =>
    after.output = before.output ∧
      ∃ place, after.entry path = .file place document.toUTF8 ∧
        ∀ other, other ≠ place → after.file? other = before.file? other

section

variable {workspace : Workspace} {refusals : Refusals} {output : Option String} {path : String}
  {document : String}

theorem run_deliver_stream (h : namedFile? output = none) :
    ((host.refusing refusals).deliver output document).run workspace =
      (.ok (), workspace.print (endLine document)) := by
  rw [Host.deliver, h]
  rfl

def outputProblem (path : String) (problem : SystemError) : String :=
  s!"Failed to write output file '{path}': {problem.message}"

theorem run_deliver_refused {problem : SystemError} (h : namedFile? output = some path)
    (hr : refusals.writing path document = some problem) :
    ((host.refusing refusals).deliver output document).run workspace =
      (.error (outputProblem path problem), workspace) := by
  rw [Host.deliver, h]
  simp only [Host.refusing, hr]
  rfl

theorem run_writeFile (workspace : Workspace) (path content : String) :
    (host.writeFile path content).run workspace =
      match workspace.write path content.toUTF8 with
      | .ok after => (.ok (), after)
      | .error problem => (.error problem, workspace) := by
  change (match workspace.write path content.toUTF8 with
    | .ok after => (do set after; return .ok ())
    | .error problem => return .error problem : StateM Workspace (Except SystemError Unit)).run
      workspace = _
  cases workspace.write path content.toUTF8 <;> rfl

theorem run_deliver_file (h : namedFile? output = some path)
    (hr : refusals.writing path document = none) :
    ((host.refusing refusals).deliver output document).run workspace =
      match workspace.write path document.toUTF8 with
      | .ok after => (.ok (), after)
      | .error problem => (.error (outputProblem path problem), workspace) := by
  have hwrite := run_writeFile workspace path document
  rw [Host.deliver, h]
  simp only [Host.refusing, hr]
  rw [StateT.run_bind, hwrite]
  cases workspace.write path document.toUTF8 <;> rfl

/-- A document is delivered where the system lets it be written, and else nothing happens. -/
theorem settleUnder_cases (workspace : Workspace) (refusals : Refusals) (output : Option String)
    (document : String) :
    (∃ after, workspace.settleUnder refusals output (.ok (some document)) = (.ok (), after) ∧
      workspace.Delivered after output document) ∨
    (¬ workspace.Writable refusals output document ∧
      ∃ problem, workspace.settleUnder refusals output (.ok (some document)) =
        (.error problem, workspace)) := by
  rw [settleUnder]
  cases hf : namedFile? output with
  | none =>
    refine .inl ⟨_, run_deliver_stream hf, ?_⟩
    rw [Delivered, hf]
    refine ⟨?_, rfl⟩
    rw [print, endLine_eq, ← String.append_assoc]
  | some path =>
    cases hr : refusals.writing path document with
    | some problem =>
      refine .inr ⟨fun h => ?_, _, run_deliver_refused hf hr⟩
      rw [(h path hf).1] at hr
      cases hr
    | none =>
      rw [run_deliver_file hf hr]
      rcases workspace.write_cases path document.toUTF8 with ⟨place, ht, hw⟩ | ⟨ht, problem, hw⟩
      · rw [hw]
        refine .inl ⟨_, rfl, ?_⟩
        rw [Delivered, hf]
        exact ⟨rfl, place, entry_store ht _, fun other hne => file?_store_of_ne hne _ _⟩
      · rw [hw]
        exact .inr ⟨fun h => (h path hf).2 ht, _, rfl⟩

theorem write_saying (workspace : Workspace) (errors path : String) (content : ByteArray) :
    (workspace.saying errors).write path content =
      (workspace.write path content).map (·.saying errors) := by
  rw [write, write, entry_congr (workspace.saying errors) workspace rfl]
  rcases workspace.entry path with ⟨place, old⟩ | _ | ⟨place, _ | _⟩ | problem <;> rfl

theorem settleUnder_saying (workspace : Workspace) (errors : String) (refusals : Refusals)
    (output : Option String) (result : Except String (Option String)) :
    (workspace.saying errors).settleUnder refusals output result =
      ((workspace.settleUnder refusals output result).1,
        (workspace.settleUnder refusals output result).2.saying errors) := by
  rcases result with problem | _ | document
  · rfl
  · rfl
  · rw [settleUnder, settleUnder]
    cases hf : namedFile? output with
    | none =>
      rw [run_deliver_stream hf, run_deliver_stream hf]
      rfl
    | some path =>
      cases hr : refusals.writing path document with
      | some problem => rw [run_deliver_refused hf hr, run_deliver_refused hf hr]
      | none =>
        rw [run_deliver_file hf hr, run_deliver_file hf hr, write_saying]
        cases workspace.write path document.toUTF8 <;> rfl

def exitCode : Except String Unit → Nat
  | .ok () => 0
  | .error _ => 1

theorem exists_finish (ended : Except String Unit × Workspace) (errors : String) :
    ∃ last, finish (ended.1, ended.2.saying errors) = (exitCode ended.1, ended.2.saying last) := by
  rcases ended with ⟨problem | ⟨⟩, workspace⟩
  · exact ⟨_, rfl⟩
  · exact ⟨_, rfl⟩

theorem exists_tell (workspace : Workspace) (verbose : Bool) {report : Report}
    (h : report.findings = []) :
    ∃ errors, workspace.tell verbose report = workspace.saying errors := by
  rw [tell, h, print, endLines_nil, String.append_empty]
  exact ⟨_, rfl⟩

/-- A run for a document is the delivery of the document, but for what it says on the error
stream. -/
theorem exists_runUnder {invocation : Invocation} {make : String → Except Fault String}
    (h : invocation.task.maker? = some make) (workspace : Workspace) (refusals : Refusals)
    (environment : Option String) :
    ∃ errors, workspace.runUnder refusals environment invocation =
      let ended := workspace.settleUnder refusals invocation.task.output
        ((workspace.documentUnder refusals invocation.task.input make).map some)
      (exitCode ended.1, ended.2.saying errors) := by
  let start := workspace.printError (endLines (opening environment invocation))
  have hsource : start.sourceUnder refusals invocation.task.input =
      workspace.sourceUnder refusals invocation.task.input :=
    sourceUnder_congr start workspace rfl rfl refusals _
  rw [runUnder_eq, documentUnder]
  cases hs : workspace.sourceUnder refusals invocation.task.input with
  | error problem =>
    rw [run_perform_error_refusing (hsource.trans hs)]
    exact exists_finish (.error problem, workspace) start.errors
  | ok text =>
    obtain ⟨hfindings, hresult⟩ := report_of_maker? h text
    obtain ⟨errors, htell⟩ := start.exists_tell invocation.verbose hfindings
    rw [run_perform_ok_refusing (hsource.trans hs), hresult, htell]
    change ∃ last, finish ((workspace.saying errors).settleUnder _ _ _) = _
    rw [settleUnder_saying]
    exact exists_finish _ errors

theorem documentUnder_eq_ok_iff {input : Option String} {make : String → Except Fault String} :
    workspace.documentUnder refusals input make = .ok document ↔
      ∃ text, workspace.inputBytes refusals input = .ok text.toUTF8 ∧ make text = .ok document := by
  simp only [← sourceUnder_eq_ok_iff]
  rw [documentUnder]
  cases workspace.sourceUnder refusals input with
  | error problem => exact iff_of_false nofun nofun
  | ok text =>
    change (make text).mapError _ = _ ↔ _
    constructor
    · intro h
      cases hm : make text with
      | error fault =>
        rw [hm] at h
        cases h
      | ok made =>
        rw [hm] at h
        exact ⟨text, rfl, hm.trans (congrArg _ (Except.ok.inj h))⟩
    · rintro ⟨_, ⟨⟩, hm⟩
      rw [hm]
      rfl

theorem Delivered.output_eq {before after : Workspace} (h : before.Delivered after output document)
    (hs : namedFile? output = none) : after.output = before.output ++ endLine document := by
  rw [Delivered, hs] at h
  rw [endLine_eq, ← String.append_assoc]
  exact h.1

theorem Delivered.saying {before after : Workspace} (h : before.Delivered after output document)
    (errors : String) : before.Delivered (after.saying errors) output document := by
  rw [Delivered] at h ⊢
  cases hf : namedFile? output with
  | none =>
    rw [hf] at h
    exact h
  | some path =>
    rw [hf] at h
    obtain ⟨ho, place, he, hothers⟩ := h
    exact ⟨ho, place, (entry_congr (after.saying errors) after rfl path).trans he, hothers⟩

theorem runUnder_cases {invocation : Invocation} {make : String → Except Fault String}
    (h : invocation.task.maker? = some make) (before : Workspace) (refusals : Refusals)
    (environment : Option String) :
    (∃ document after,
      before.documentUnder refusals invocation.task.input make = .ok document ∧
      before.runUnder refusals environment invocation = (0, after) ∧
      before.Delivered after invocation.task.output document) ∨
    ((∀ document, before.documentUnder refusals invocation.task.input make = .ok document →
        ¬ before.Writable refusals invocation.task.output document) ∧
      ∃ errors, before.runUnder refusals environment invocation = (1, before.saying errors)) := by
  obtain ⟨errors, hrun⟩ := exists_runUnder h before refusals environment
  rw [hrun]
  cases before.documentUnder refusals invocation.task.input make with
  | error problem => exact .inr ⟨nofun, errors, rfl⟩
  | ok document =>
    rcases before.settleUnder_cases refusals invocation.task.output document with
      ⟨after, hsettle, hdelivered⟩ | ⟨hw, problem, hsettle⟩
    · refine .inl ⟨document, after.saying errors, rfl, ?_, hdelivered.saying errors⟩
      simp only [Except.map, hsettle, exitCode]
    · refine .inr ⟨?_, errors, ?_⟩
      · rintro _ ⟨⟩
        exact hw
      · simp only [Except.map, hsettle, exitCode]

end

end Workspace

open Workspace

/-- A run of an accepted command line that makes a document does all of its work or none of it. If
it fails, the files and the standard output are as they were. If it succeeds, the document is the
one that the library makes of the text that was read, under the depth and the form that were asked
for; it stands alone on the standard output, its last line ended, or it is the whole content of
the output file, and no other file has changed. It fails only if the input cannot be read or is
no text, the library fails, or the system does not let the output be written. All this depends on
the task alone, less the name of its source: not on what else is asked for, nor on the
environment. -/
theorem runUnder_all_or_nothing :
    (∀ arguments invocation make, readArguments arguments = .ok invocation →
      invocation.task.maker? = some make →
      ∀ (before : Workspace) refusals environment code after,
      before.runUnder refusals environment invocation = (code, after) →
      (code ≠ 0 → after.output = before.output ∧ after.files = before.files) ∧
      (code = 0 → ∃ text document,
        before.inputBytes refusals invocation.task.input = .ok text.toUTF8 ∧
        make text = .ok document ∧ before.Delivered after invocation.task.output document) ∧
      ∀ text document, before.inputBytes refusals invocation.task.input = .ok text.toUTF8 →
        make text = .ok document →
        before.Writable refusals invocation.task.output document → code = 0) ∧
    ∀ arguments invocation others other, readArguments arguments = .ok invocation →
      readArguments others = .ok other → invocation.task.maker? ≠ none →
      invocation.task.anonymous = other.task.anonymous →
      ∀ (before : Workspace) refusals environment surroundings code after,
      before.runUnder refusals environment invocation = (code, after) →
      ∃ errors, before.runUnder refusals surroundings other = (code, after.saying errors) := by
  constructor
  · intro arguments invocation make _ hmake before refusals environment code after hrun
    rcases runUnder_cases hmake before refusals environment with
      ⟨document, final, hd, he, hdelivered⟩ | ⟨hfails, errors, he⟩
    · obtain ⟨rfl, rfl⟩ := Prod.mk.inj (he.symm.trans hrun)
      obtain ⟨text, hread, hmade⟩ := documentUnder_eq_ok_iff.1 hd
      exact ⟨fun h => (h rfl).elim, fun _ => ⟨text, document, hread, hmade, hdelivered⟩,
        fun _ _ _ _ _ => rfl⟩
    · obtain ⟨rfl, rfl⟩ := Prod.mk.inj (he.symm.trans hrun)
      refine ⟨fun _ => ⟨rfl, rfl⟩, nofun, fun text document hread hmade hw => ?_⟩
      exact (hfails document (documentUnder_eq_ok_iff.2 ⟨text, hread, hmade⟩) hw).elim
  · intro arguments invocation others other _ _ hmake htask before refusals environment
      surroundings code after hrun
    obtain ⟨make, hmake⟩ := Option.ne_none_iff_exists'.1 hmake
    have hother : other.task.maker? = some make := by
      rw [← Task.maker?_anonymous, ← htask, Task.maker?_anonymous, hmake]
    have hinput : invocation.task.input = other.task.input := by
      rw [← Task.input_anonymous, htask, Task.input_anonymous]
    have houtput : invocation.task.output = other.task.output := by
      rw [← Task.output_anonymous, htask, Task.output_anonymous]
    obtain ⟨errors, hfirst⟩ := exists_runUnder hmake before refusals environment
    obtain ⟨words, hsecond⟩ := exists_runUnder hother before refusals surroundings
    obtain ⟨rfl, rfl⟩ := Prod.mk.inj (hfirst.symm.trans hrun)
    exact ⟨words, by rw [hsecond, hinput, houtput]; rfl⟩

/-- A source text with one machine. -/
def signalSource : String := "StateMachine.create \x7b state<On> \x7b \x7d \x7d"

/-- The arguments that draw the file over itself. -/
def signalWords : List String :=
  ["render", "-i", "a.kt", "--output=a.kt", "--no-fence", "--max-depth", "9"]

/-- The same, in other words and with more said. -/
def loudSignalWords : List String :=
  ["-v", "--log-level", "debug", "--log-format=json", "render", "--file-name", "lamp", "-oa.kt",
    "--no-fence", "--max-depth=9", "--input", "a.kt"]

/-- A file is drawn over itself, with the same outcome however much is said. -/
theorem runUnder_all_or_nothing_overwriting :
    let before : Workspace := { files := [(["b"], .empty), (["a.kt"], signalSource.toUTF8)] }
    let task (name : Option String) : Task := .render ⟨some "a.kt", name, some 9⟩ (some "a.kt") false
    readArguments signalWords = .ok ⟨false, none, task none⟩ ∧
    readArguments loudSignalWords = .ok ⟨true, some .json, task (some "lamp")⟩ ∧
    ∃ document after errors, drawDocument ⟨9, 9⟩ false signalSource = .ok document ∧
      before.runUnder {} (some "xml") ⟨false, none, task none⟩ = (0, after) ∧
      before.Delivered after (some "a.kt") document ∧
      before.runUnder {} none ⟨true, some .json, task (some "lamp")⟩ =
        (0, after.saying errors) := by
  intro before task
  have hquiet : readArguments signalWords = .ok ⟨false, none, task none⟩ := by decide +kernel
  have hloud : readArguments loudSignalWords = .ok ⟨true, some .json, task (some "lamp")⟩ := by
    decide +kernel
  have hentry : before.entry "a.kt" = .file ["a.kt"] signalSource.toUTF8 := by
    rw [entry_of_name (by decide +kernel) (by decide)]
    rfl
  have hread : before.inputBytes {} (some "a.kt") = .ok signalSource.toUTF8 := by
    change before.read "a.kt" = _
    rw [Workspace.read, hentry]
  have htarget : before.target? "a.kt" = some ["a.kt"] := by
    rw [target?, hentry]
    rfl
  obtain ⟨document, hmade⟩ : ∃ document, drawDocument ⟨9, 9⟩ false signalSource = .ok document := by
    have hm : extractMachines ⟨9, 9⟩ signalSource = .ok [⟨[.state ⟨"On", [], [], []⟩]⟩] := by
      decide +kernel
    rw [drawDocument, drawMachines, hm]
    exact ⟨_, rfl⟩
  have hwritable : before.Writable {} (some "a.kt") document := by
    rintro path h
    obtain rfl : "a.kt" = path := Option.some.inj h
    exact ⟨rfl, htarget ▸ Option.some_ne_none _⟩
  obtain ⟨hdelivers, hsame⟩ := runUnder_all_or_nothing
  obtain ⟨-, hok, hcode⟩ := hdelivers signalWords _ _ hquiet rfl before {} (some "xml") _ _ rfl
  have hzero := hcode signalSource document hread hmade hwritable
  obtain ⟨text, made, htext, hmake, hdelivered⟩ := hok hzero
  obtain ⟨errors, hother⟩ := hsame signalWords _ loudSignalWords _ hquiet hloud
    (Option.some_ne_none _) rfl before {} (some "xml") none _ _ rfl
  have hsource : signalSource = text :=
    String.toByteArray_inj.1 (Except.ok.inj (hread.symm.trans htext))
  exact ⟨hquiet, hloud, made, _, errors, hsource ▸ hmake, Prod.ext hzero rfl, hdelivered,
    hother.trans (Prod.ext hzero rfl)⟩

end StateDiagram.CommandLine
