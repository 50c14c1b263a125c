import StateDiagram.Proofs.Delivery
import StateDiagram.Proofs.JsonReading

namespace StateDiagram

namespace Json

variable {α : Type}

def string? : Json → Option String
  | .string text => some text
  | _ => none

def list? (decode : Json → Option α) : Json → Option (List α)
  | .array items => items.mapM decode
  | _ => none

def optional? (decode : Json → Option α) : Json → Option (Option α)
  | .null => some none
  | json => (decode json).map some

/-- The field of a name, which an object has to have once. -/
def field? (name : String) : Json → Option Json
  | .object fields =>
    match fields.filter (·.1 = name) with
    | [(_, value)] => some value
    | _ => none
  | _ => none

def text? (name : String) (json : Json) : Option String := (json.field? name).bind string?

def texts? (name : String) (json : Json) : Option (List String) :=
  (json.field? name).bind (list? string?)

end Json

/-- The content of a condition stands beside the name of its kind. -/
def Condition.ofJson? (json : Json) : Option Condition := do
  let expression ← json.text? "expression"
  match ← json.text? "type" with
  | "if" => some (.holds expression)
  | "if_not" => some (.fails expression)
  | _ => none

def Transition.ofJson? (json : Json) : Option Transition := do
  let event ← json.text? "event"
  let target ← json.text? "target_state"
  let arguments ← json.texts? "target_args"
  let sideEffect ← (← json.field? "side_effect").optional? Json.string?
  let conditions ← (← json.field? "conditions").list? Condition.ofJson?
  return { event, target, arguments, sideEffect, conditions }

def State.ofJson? (json : Json) : Option State := do
  let name ← json.text? "name"
  let transitions ← (← json.field? "transitions").list? Transition.ofJson?
  let onEnter ← json.texts? "on_enter"
  let onExit ← json.texts? "on_exit"
  return { name, transitions, onEnter, onExit }

/-- The fields of a statement stand beside the name of its kind. -/
def Statement.ofJson? (json : Json) : Option Statement := do
  match ← json.text? "type" with
  | "initial_state" => (json.text? "state").map .initial
  | "state" => (State.ofJson? json).map .state
  | _ => none

def Machine.ofJson? (json : Json) : Option Machine := do
  let statements ← (← json.field? "statements").list? Statement.ofJson?
  return ⟨statements⟩

def Machine.listOfText? (text : String) : Option (List Machine) :=
  (Json.decode? text).bind (Json.list? Machine.ofJson?)

theorem Json.list?_map {α : Type} {decode : Json → Option α} {encode : α → Json}
    (h : ∀ value, decode (encode value) = some value) (values : List α) :
    (Json.array (values.map encode)).list? decode = some values := by
  rw [Json.list?]
  induction values with
  | nil => rfl
  | cons value values ih =>
    rw [List.map_cons, List.mapM_cons, h, ih]
    rfl

theorem Json.list?_strings (texts : List String) :
    (Json.strings texts).list? Json.string? = some texts := by
  have hstring (text : String) : Json.string? (.string text) = some text := rfl
  exact Json.list?_map hstring texts

theorem Json.optional?_getD (value : Option String) :
    ((value.map Json.string).getD .null).optional? Json.string? = some value := by
  cases value <;> rfl

theorem Condition.ofJson?_toJson (condition : Condition) :
    Condition.ofJson? condition.toJson = some condition := by
  cases condition <;> rfl

/-- The fields may stand in any order. -/
example : Condition.ofJson? (.object [("expression", .string "x"), ("type", .string "if")]) =
    some (.holds "x") := rfl

theorem Transition.ofJson?_toJson (transition : Transition) :
    Transition.ofJson? transition.toJson = some transition := by
  change ((Json.strings transition.arguments).list? Json.string?).bind (fun arguments =>
    (((transition.sideEffect.map Json.string).getD .null).optional? Json.string?).bind
      fun sideEffect => ((Json.array (transition.conditions.map Condition.toJson)).list?
        Condition.ofJson?).bind fun conditions =>
          some ⟨transition.event, transition.target, arguments, sideEffect, conditions⟩) =
    some transition
  rw [Json.list?_strings, Json.optional?_getD, Json.list?_map Condition.ofJson?_toJson]
  rfl

theorem State.ofJson?_toFields (state : State) (kind : Json) :
    State.ofJson? (.object (("type", kind) :: state.toFields)) = some state := by
  change ((Json.array (state.transitions.map Transition.toJson)).list? Transition.ofJson?).bind
    (fun transitions => ((Json.strings state.onEnter).list? Json.string?).bind fun onEnter =>
      ((Json.strings state.onExit).list? Json.string?).bind fun onExit =>
        some ⟨state.name, transitions, onEnter, onExit⟩) = some state
  rw [Json.list?_map Transition.ofJson?_toJson, Json.list?_strings, Json.list?_strings]
  rfl

theorem Statement.ofJson?_toJson (statement : Statement) :
    Statement.ofJson? statement.toJson = some statement := by
  cases statement with
  | initial name => rfl
  | state declared =>
    change (State.ofJson? (.object (("type", .string "state") :: declared.toFields))).map _ = _
    rw [State.ofJson?_toFields]
    rfl

theorem Machine.ofJson?_toJson (machine : Machine) :
    Machine.ofJson? machine.toJson = some machine := by
  change ((Json.array (machine.statements.map Statement.toJson)).list? Statement.ofJson?).bind
    (fun statements => some ⟨statements⟩) = some machine
  rw [Json.list?_map Statement.ofJson?_toJson]
  rfl

namespace Machine

/-- The machines are decoded from either layout, with any blanks behind it. -/
theorem listOfText?_append (pretty : Bool) (machines : List Machine) (blanks : String)
    (hb : ∀ c ∈ blanks.toList, Json.isBlank c = true) :
    listOfText? (listText pretty machines ++ blanks) = some machines := by
  have hdecode :
      Json.decode? (listText pretty machines ++ blanks) = some (listToJson machines) := by
    rw [← String.ofList_toList (s := blanks)]
    cases pretty with
    | false => exact Json.decode?_of_spells (.compactChars _) hb
    | true => exact Json.decode?_of_spells (.prettyChars 0 _) hb
  rw [listOfText?, hdecode]
  exact Json.list?_map ofJson?_toJson machines

theorem listOfText?_listText (pretty : Bool) (machines : List Machine) :
    listOfText? (listText pretty machines) = some machines := by
  have hdecode := listOfText?_append pretty machines "" nofun
  rwa [String.append_empty] at hdecode

theorem listOfText?_endLine (pretty : Bool) (machines : List Machine) :
    listOfText? (CommandLine.endLine (listText pretty machines)) = some machines := by
  rw [CommandLine.endLine_eq, CommandLine.lackingLineEnd]
  refine listOfText?_append pretty machines _ fun c hc => ?_
  split at hc
  · cases hc
  · rw [List.mem_singleton.1 hc]
    rfl

theorem eq_of_listText_eq {pretty other : Bool} {first second : List Machine}
    (h : listText pretty first = listText other second) : first = second := by
  have hdecode := listOfText?_listText pretty first
  rw [h, listOfText?_listText] at hdecode
  exact (Option.some.inj hdecode).symm

end Machine

open CommandLine

theorem extractDocument_eq_ok_iff {limits : Limits} {pretty : Bool} {text document : String} :
    extractDocument limits pretty text = .ok document ↔
      ∃ machines, extractMachines limits text = .ok machines ∧
        Machine.listText pretty machines = document := by
  rw [extractDocument]
  cases extractMachines limits text with
  | error fault =>
    constructor
    · intro h
      cases h
    · rintro ⟨_, h, _⟩
      cases h
  | ok machines =>
    constructor
    · exact fun h => ⟨machines, rfl, Except.ok.inj h⟩
    · rintro ⟨_, ⟨⟩, h⟩
      exact congrArg Except.ok h

theorem exists_machines_of_runUnder {before after : Workspace} {refusals : Refusals}
    {environment : Option String} {invocation : Invocation} {source : SourceOptions}
    {output : Option String} {pretty : Bool}
    (ht : invocation.task = .extract source output pretty) (hs : namedFile? output = none)
    (hrun : before.runUnder refusals environment invocation = (0, after)) :
    ∃ text machines printed, before.inputBytes refusals source.input = .ok text.toUTF8 ∧
      extractMachines (depthLimits source.maxDepth) text = .ok machines ∧
      after.output = before.output ++ printed ∧ Machine.listOfText? printed = some machines := by
  have hmaker : invocation.task.maker? =
      some (extractDocument (depthLimits source.maxDepth) pretty) := by
    rw [ht]
    rfl
  rcases Workspace.runUnder_cases hmaker before refusals environment with
    ⟨document, final, hd, hend, hdelivered⟩ | ⟨_, errors, hend⟩
  · obtain rfl : final = after := (Prod.mk.inj (hend.symm.trans hrun)).2
    obtain ⟨text, hread, hmade⟩ := Workspace.documentUnder_eq_ok_iff.1 hd
    obtain ⟨machines, hm, rfl⟩ := extractDocument_eq_ok_iff.1 hmade
    rw [ht] at hread hdelivered
    exact ⟨text, machines, _, hread, hm, hdelivered.output_eq hs,
      Machine.listOfText?_endLine pretty machines⟩
  · cases (Prod.mk.inj (hend.symm.trans hrun)).1

/-- A list of machines with a statement at some place in one of them. -/
def Machine.surround (before after : List Machine) (front back : List Statement)
    (statement : Statement) : List Machine :=
  before ++ ⟨front ++ statement :: back⟩ :: after

theorem Machine.surround_inj {before after : List Machine} {front back : List Statement}
    {first second : Statement}
    (h : surround before after front back first = surround before after front back second) :
    first = second := by
  have hmachines := List.append_cancel_left h
  have hstatements := Machine.mk.inj (List.cons.inj hmachines).1
  exact (List.cons.inj (List.append_cancel_left hstatements)).1

/-- The JSON text of machines loses nothing: from either layout, and from what is printed of it, the
decoder finds back exactly the machines. So different machines never have the same text. In
whatever surroundings, a side effect that is absent is told from every text, the empty one
included, and an initial state from a declared one. What a run of an extraction adds to the
standard output is decoded as the machines of the source that was read. -/
theorem listText_lossless :
    (∀ pretty machines, Machine.listOfText? (Machine.listText pretty machines) = some machines ∧
      Machine.listOfText? (endLine (Machine.listText pretty machines)) = some machines) ∧
    (∀ pretty other first second,
      Machine.listText pretty first = Machine.listText other second → first = second) ∧
    (∀ pretty other before after front back (state : State) earlier later
      (transition : Transition) (effect : String),
      let declaring (sideEffect : Option String) : List Machine :=
        Machine.surround before after front back (.state { state with
          transitions := earlier ++ { transition with sideEffect } :: later })
      Machine.listText pretty (declaring none) ≠ Machine.listText other (declaring (some effect))) ∧
    (∀ pretty other before after front back name state,
      Machine.listText pretty (Machine.surround before after front back (.initial name)) ≠
        Machine.listText other (Machine.surround before after front back (.state state))) ∧
    ∀ (before : Workspace) refusals environment invocation source output pretty after,
      invocation.task = .extract source output pretty → namedFile? output = none →
      before.runUnder refusals environment invocation = (0, after) →
      ∃ text machines printed, before.inputBytes refusals source.input = .ok text.toUTF8 ∧
        extractMachines (depthLimits source.maxDepth) text = .ok machines ∧
        after.output = before.output ++ printed ∧ Machine.listOfText? printed = some machines := by
  refine ⟨?_, ?_, ?_, ?_, ?_⟩
  · exact fun pretty machines =>
      ⟨Machine.listOfText?_listText pretty machines, Machine.listOfText?_endLine pretty machines⟩
  · exact fun pretty other first second h => Machine.eq_of_listText_eq h
  · intro pretty other before after front back state earlier later transition effect declaring h
    have hstate := Statement.state.inj (Machine.surround_inj (Machine.eq_of_listText_eq h))
    have htransitions := List.append_cancel_left (congrArg State.transitions hstate)
    cases congrArg Transition.sideEffect (List.cons.inj htransitions).1
  · intro pretty other before after front back name state h
    cases Machine.surround_inj (Machine.eq_of_listText_eq h)
  · intro before refusals environment invocation source output pretty after ht hs hrun
    exact exists_machines_of_runUnder ht hs hrun

/-- Names and snippets that are awkward to quote. -/
def awkwardMachine : Machine :=
  ⟨[.initial "\"\\\n\x01é", .state ⟨"A\tB",
    [⟨"\x1b", "\x7f😀", ["", "x"], some "", [.holds "a", .fails "\""]⟩], [""], []⟩]⟩

/-- The text of no machines is the same in both layouts; awkward machines are found back, and so are
those of a source that is extracted on the standard streams. -/
theorem listText_lossless_awkward :
    Machine.listText false [] = Machine.listText true [] ∧ ([] : List Machine) = [] ∧
      Machine.listOfText? (Machine.listText true [awkwardMachine, ⟨[]⟩]) =
        some [awkwardMachine, ⟨[]⟩] ∧
      Machine.listText false [awkwardMachine] ≠ Machine.listText true [⟨[]⟩] ∧
      ∃ after text machines printed,
        ({ input := signalSource.toUTF8 } : Workspace).runUnder {} none
          ⟨false, none, .extract {} none true⟩ = (0, after) ∧
        text = signalSource ∧ extractMachines {} text = .ok machines ∧
        after.output = "" ++ printed ∧ Machine.listOfText? printed = some machines := by
  obtain ⟨hall, hinj, -, -, hruns⟩ := listText_lossless
  have hempty : Machine.listText false [] = Machine.listText true [] := rfl
  have hm : extractMachines {} signalSource = .ok [⟨[.state ⟨"On", [], [], []⟩]⟩] := by
    decide +kernel
  have hmade : extractDocument {} true signalSource = .ok _ :=
    extractDocument_eq_ok_iff.2 ⟨_, hm, rfl⟩
  let before : Workspace := { input := signalSource.toUTF8 }
  let invocation : Invocation := ⟨false, none, .extract {} none true⟩
  have hread : before.inputBytes {} none = .ok signalSource.toUTF8 := rfl
  have hmaker : invocation.task.maker? = some (extractDocument {} true) := rfl
  obtain ⟨after, hend⟩ : ∃ after, before.runUnder {} none invocation = (0, after) := by
    rcases Workspace.runUnder_cases hmaker before {} none with ⟨_, after, _, hend, _⟩ | ⟨hfails, _⟩
    · exact ⟨after, hend⟩
    · exact (hfails _ (Workspace.documentUnder_eq_ok_iff.2 ⟨_, hread, hmade⟩) nofun).elim
  obtain ⟨text, machines, printed, htext, hm, hprinted, hdecode⟩ :=
    hruns before {} none invocation {} none true after rfl rfl hend
  have hsource : signalSource = text :=
    String.toByteArray_inj.1 (Except.ok.inj (hread.symm.trans htext))
  refine ⟨hempty, hinj false true [] [] hempty, (hall true _).1, fun h => ?_, after, text, machines,
    printed, hend, hsource.symm, hm, hprinted, hdecode⟩
  exact absurd (hinj false true _ _ h) (by decide)

end StateDiagram
