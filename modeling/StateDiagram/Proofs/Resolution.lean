import Mathlib.Data.List.Forall2
import StateDiagram.Machine.Reference
import StateDiagram.Proofs.Drawing
import StateDiagram.Proofs.Running

namespace StateDiagram

set_option autoImplicit true

/-- The position is the last at which the name stands. -/
def IsLast (name : String) (names : List String) (position : Nat) : Prop :=
  names[position]? = some name ∧ ∀ later, position < later → names[later]? ≠ some name

theorem IsLast.cons (h : IsLast name names position) (first : String) :
    IsLast name (first :: names) (position + 1) := by
  refine ⟨h.1, fun later hl => ?_⟩
  obtain ⟨later, rfl⟩ := Nat.exists_eq_add_of_lt hl
  exact h.2 _ (by omega)

theorem isLast_head (h : name ∉ names) : IsLast name (name :: names) 0 := by
  refine ⟨rfl, fun later hl => ?_⟩
  obtain ⟨later, rfl⟩ := Nat.exists_eq_succ_of_ne_zero (Nat.ne_of_gt hl)
  exact fun he => h (List.mem_of_getElem? he)

/-- A name has an endpoint only if it is declared, and then the endpoint is its last declaration. -/
theorem lastPosition?_cases (name : String) (names : List String) :
    name ∉ names ∧ lastPosition? name names = none ∨
      ∃ position, lastPosition? name names = some position ∧ IsLast name names position := by
  induction names with
  | nil => exact .inl ⟨List.not_mem_nil, rfl⟩
  | cons first rest ih =>
    rcases ih with ⟨hm, he⟩ | ⟨position, he, hlast⟩
    · rw [lastPosition?, he]
      by_cases hf : first = name
      · subst hf
        exact .inr ⟨0, if_pos rfl, isLast_head hm⟩
      · exact .inl ⟨List.not_mem_cons_of_ne_of_not_mem (Ne.symm hf) hm, if_neg hf⟩
    · rw [lastPosition?, he]
      exact .inr ⟨position + 1, rfl, hlast.cons first⟩

theorem Edge.prefix_transitionText (event : String) (effect : Option String) :
    (event ++ " //").toList <+: (transitionText event effect).toList := by
  cases effect <;>
  · rw [transitionText.eq_def, String.toList_append (s := event ++ " //")]
    exact List.prefix_append _ _

def DrawnEdge.target : DrawnEdge → Endpoint
  | .start target | .transition _ target _ => target

namespace Machine

def stateNames (machine : Machine) : List String := machine.states.map (·.name)

/-- The endpoint is the last state of the name, or none if no state has it. -/
def Resolves (machine : Machine) (name : String) : Endpoint → Prop
  | none => name ∉ machine.stateNames
  | some position => IsLast name machine.stateNames position

/-- What an edge shows of a reference. The source of a transition is always declared. -/
inductive Shows (machine : Machine) : DrawnEdge → Reference → Prop
  | initial (ht : machine.Resolves target found) :
    machine.Shows (.start found) (.initial target)
  | transition (hs : IsLast source machine.stateNames position)
    (ht : machine.Resolves target found)
    (htext : (Label.escape event ++ " //").toList <+: text.toList) :
    machine.Shows (.transition (some position) found text) (.transition source event target)

theorem resolves_endpoint (machine : Machine) (name : String) :
    machine.Resolves name (machine.endpoint name) := by
  rw [endpoint]
  rcases lastPosition?_cases name machine.stateNames with ⟨hm, he⟩ | ⟨position, he, hlast⟩
  · exact he ▸ hm
  · exact he ▸ hlast

theorem declares_iff (machine : Machine) (name : String) :
    machine.declares name = true ↔ name ∈ machine.stateNames := by
  rw [declares, stateNames, List.any_eq_true, List.mem_map]
  simp only [decide_eq_true_eq]

theorem Resolves.declares_iff {machine : Machine} (h : machine.Resolves name found) :
    machine.declares name = found.isSome := by
  rw [Bool.eq_iff_iff, machine.declares_iff]
  cases found with
  | none => exact iff_of_false h nofun
  | some position => exact iff_of_true (List.mem_of_getElem? h.1) rfl

theorem Shows.declares_iff {machine : Machine} (h : machine.Shows edge reference) :
    machine.declares reference.target = edge.target.isSome := by
  cases h with
  | initial ht => exact ht.declares_iff
  | transition _ ht _ => exact ht.declares_iff

theorem shows_edges (machine : Machine) {statement : Statement}
    (h : statement ∈ machine.statements) :
    List.Forall₂ machine.Shows ((statement.edges machine.endpoint).map Edge.drawn)
      statement.references := by
  cases statement with
  | initial name => exact .cons (.initial (machine.resolves_endpoint name)) .nil
  | state declared =>
    have hm : declared.name ∈ machine.stateNames :=
      List.mem_map.2 ⟨declared, List.mem_filterMap.2 ⟨_, h, rfl⟩, rfl⟩
    obtain ⟨hn, _⟩ | ⟨position, he, hlast⟩ := lastPosition?_cases declared.name machine.stateNames
    · exact absurd hm hn
    have hsource : machine.endpoint declared.name = some position := he
    rw [Statement.edges, Statement.references, List.map_map, List.forall₂_map_left_iff,
      List.forall₂_map_right_iff, List.forall₂_same]
    intro transition _
    rw [Function.comp_apply, hsource]
    exact .transition hlast (machine.resolves_endpoint transition.target)
      (Edge.prefix_transitionText _ _)

/-- The edges stand for the references, one for each and in their order. -/
theorem shows_drawing (machine : Machine) (fenced : Bool) :
    List.Forall₂ machine.Shows ((Diagram.ofMachine machine).drawing fenced).edges
      machine.references := by
  have hmem : List.Forall₂ (fun first second => first ∈ machine.statements ∧ first = second)
      machine.statements machine.statements :=
    List.forall₂_same.2 fun statement hs => ⟨hs, rfl⟩
  rw [Diagram.drawing, Diagram.ofMachine, List.map_flatMap, references]
  refine List.rel_flatMap hmem ?_
  rintro statement _ ⟨hs, rfl⟩
  exact machine.shows_edges hs

theorem shows_unresolved (machine : Machine) (fenced : Bool) :
    List.Forall₂ machine.Shows
      (((Diagram.ofMachine machine).drawing fenced).edges.filter (·.target = none))
      machine.unresolvedReferences := by
  refine List.rel_filter ?_ (machine.shows_drawing fenced)
  intro edge reference h
  change decide (edge.target = none) = true ↔ (!machine.declares reference.target) = true
  rw [h.declares_iff]
  cases edge.target with
  | none => exact iff_of_true rfl rfl
  | some position => exact iff_of_false nofun nofun

end Machine

/-- A text that shows a diagram without an edge that leads nowhere. -/
def Diagram.Connected (text : String) : Prop :=
  ∃ drawing, read? text = some drawing ∧ ∀ edge ∈ drawing.edges, edge.target ≠ none

theorem Machine.connected_draw_iff (machine : Machine) (fenced : Bool) :
    Diagram.Connected (machine.draw fenced) ↔ machine.unresolvedReferences = [] := by
  have hnil : ((Diagram.ofMachine machine).drawing fenced).edges.filter (·.target = none) = [] ↔
      machine.unresolvedReferences = [] := by
    have hlength := (machine.shows_unresolved fenced).length_eq
    rw [← List.length_eq_zero_iff, hlength, List.length_eq_zero_iff]
  rw [← hnil, List.filter_eq_nil_iff]
  simp only [Diagram.Connected, machine.read?_draw, Option.some.injEq, exists_eq_left',
    decide_eq_true_eq]

namespace CommandLine

theorem endLine_of_unlines {document : String} {lines : List (List Char)}
    (h : document.toList = Text.unlines lines) : endLine document = document := by
  rcases List.eq_nil_or_concat lines with rfl | ⟨front, last, rfl⟩
  · rw [endLine, h]
    rfl
  · have hlast : document.toList.getLast? = some '\n' := by
      rw [h, List.concat_eq_append, Text.unlines, List.flatMap_append, List.flatMap_singleton,
        ← List.append_assoc, List.getLast?_concat]
    rw [endLine, hlast]
    rfl

theorem flatten_machineFindings_eq_nil_iff (machines : List Machine) :
    (machines.mapIdx machineFindings).flatten = [] ↔
      ∀ machine ∈ machines, machine.unresolvedReferences = [] := by
  rw [List.flatten_eq_nil_iff]
  constructor
  · intro h machine hm
    obtain ⟨index, hi, rfl⟩ := List.getElem_of_mem hm
    exact List.map_eq_nil_iff.1 (h _ (List.mem_mapIdx.2 ⟨index, hi, rfl⟩))
  · intro h findings hm
    obtain ⟨index, hi, rfl⟩ := List.mem_mapIdx.1 hm
    rw [machineFindings, h _ (List.getElem_mem hi), List.map_nil]

/-- The source has machines, and every reference of theirs leads to a state. -/
def Passes (source : SourceOptions) (content : String) : Prop :=
  ∃ machines, extractMachines source.limits content = .ok machines ∧ machines ≠ [] ∧
    ∀ machine ∈ machines, machine.unresolvedReferences = []

theorem checkReport_result (source : SourceOptions) (content : String) :
    (checkReport source content).result = .ok none ∧ Passes source content ∨
      (∃ problem, (checkReport source content).result = .error problem) ∧
        ¬ Passes source content := by
  rw [checkReport, Passes]
  cases extractMachines source.limits content with
  | error fault => exact .inr ⟨⟨_, rfl⟩, nofun⟩
  | ok machines =>
    cases machines with
    | nil =>
      refine .inr ⟨⟨_, rfl⟩, ?_⟩
      rintro ⟨machines, he, hne, _⟩
      exact hne (Except.ok.inj he).symm
    | cons machine machines =>
      have hiff := flatten_machineFindings_eq_nil_iff (machine :: machines)
      cases hf : ((machine :: machines).mapIdx machineFindings).flatten with
      | nil =>
        refine .inl ⟨?_, _, rfl, List.cons_ne_nil _ _, hiff.1 hf⟩
        simp only [hf]
      | cons finding findings =>
        refine .inr ⟨?_, ?_⟩
        · simp only [hf]
          exact ⟨_, rfl⟩
        · rintro ⟨_, ⟨⟩, _, hall⟩
          rw [hiff.2 hall] at hf
          cases hf

theorem check_succeeds_iff (workspace : Workspace) (environment : Option String)
    (invocation : Invocation) (source : SourceOptions) :
    (runIn workspace environment { invocation with task := .check source }).1 = 0 ↔
      ∃ content, workspace.sourceText source.input = .ok content ∧ Passes source content := by
  have hprinted := workspace.sourceText_printError (endLines (Workspace.opening environment
    { invocation with task := .check source })) source.input
  rw [Workspace.runIn_eq]
  cases hs : workspace.sourceText source.input with
  | error problem =>
    rw [hs] at hprinted
    rw [Workspace.run_perform_error hprinted]
    exact iff_of_false Nat.one_ne_zero (by rintro ⟨_, ⟨⟩, _⟩)
  | ok content =>
    rw [hs] at hprinted
    rw [Workspace.run_perform_ok hprinted]
    change (Workspace.finish (Workspace.settle _ _ (checkReport source content).result)).1 = 0 ↔ _
    rcases checkReport_result source content with ⟨he, hp⟩ | ⟨⟨problem, he⟩, hp⟩
    · rw [he]
      exact iff_of_true rfl ⟨content, rfl, hp⟩
    · rw [he]
      refine iff_of_false Nat.one_ne_zero ?_
      rintro ⟨_, ⟨⟩, hpass⟩
      exact hp hpass

theorem output_render {workspace : Workspace} {source : SourceOptions} {content : String}
    {machines : List Machine} (hs : workspace.sourceText source.input = .ok content)
    (hm : extractMachines source.limits content = .ok machines) (environment : Option String)
    (invocation : Invocation) (fenced : Bool) :
    (runIn workspace environment
        { invocation with task := .render source none fenced }).2.output =
      workspace.output ++ joinDiagrams (machines.map (Machine.draw fenced)) := by
  have hprinted := workspace.sourceText_printError (endLines (Workspace.opening environment
    { invocation with task := .render source none fenced })) source.input
  rw [hs] at hprinted
  obtain ⟨notes, hreport⟩ : ∃ notes, Task.report (.render source none fenced) content =
      { notes, result := .ok (some (joinDiagrams (machines.map (Machine.draw fenced)))) } := by
    have hdraw : drawMachines source.limits fenced content =
        .ok (machines.map (Machine.draw fenced)) := by
      rw [drawMachines, hm]
      rfl
    rw [Task.report, renderReport, hdraw]
    exact ⟨_, rfl⟩
  obtain ⟨lines, hlines⟩ : ∃ lines,
      (joinDiagrams (machines.map (Machine.draw fenced))).toList = Text.unlines lines := by
    rw [Machine.map_draw]
    exact ⟨_, Diagram.toList_joinDiagrams fenced (machines.map Diagram.ofMachine)⟩
  rw [Workspace.runIn_eq, Workspace.run_perform_ok hprinted, hreport]
  change (workspace.output ++ endLines []) ++ endLine _ = _
  rw [endLine_of_unlines hlines, endLines_nil, String.append_empty]

end CommandLine

open CommandLine

/-- The edges of a diagram stand for the references of its machine, and those that lead nowhere for
the references that are not resolved. A check succeeds if and only if there are machines and all
edges of their diagrams lead to states. -/
theorem edges_show_references :
    (∀ (machine : Machine) (fenced : Bool), ∃ drawing,
      Diagram.read? (machine.draw fenced) = some drawing ∧
        List.Forall₂ machine.Shows drawing.edges machine.references ∧
        List.Forall₂ machine.Shows (drawing.edges.filter (·.target = none))
          machine.unresolvedReferences) ∧
    ∀ (workspace : Workspace) (environment : Option String) (invocation : Invocation)
      (source : SourceOptions) (fenced : Bool),
      (runIn workspace environment { invocation with task := .check source }).1 = 0 ↔
        ∃ content machines document diagrams,
          (Workspace.host.readSource source.input).run workspace = (.ok content, workspace) ∧
          extractMachines source.limits content = .ok machines ∧ machines ≠ [] ∧
          (runIn workspace environment
            { invocation with task := .render source none fenced }).2.output =
              workspace.output ++ document ∧
          Diagram.separate? document = some diagrams ∧
          ∀ text ∈ diagrams, Diagram.Connected text := by
  refine ⟨fun machine fenced => ⟨_, machine.read?_draw fenced, machine.shows_drawing fenced,
    machine.shows_unresolved fenced⟩, fun workspace environment invocation source fenced => ?_⟩
  simp only [check_succeeds_iff, Workspace.run_readSource]
  constructor
  · rintro ⟨content, hs, machines, hm, hne, hall⟩
    refine ⟨content, machines, _, _, congrArg (·, workspace) hs, hm, hne,
      output_render hs hm environment invocation fenced,
      Machine.separate?_joinDiagrams machines fenced, ?_⟩
    exact List.forall_mem_map.2 fun machine hmem =>
      (machine.connected_draw_iff fenced).2 (hall machine hmem)
  · rintro ⟨content, machines, document, diagrams, hread, hm, hne, hout, hsep, hall⟩
    have hs : workspace.sourceText source.input = .ok content := (Prod.mk.inj hread).1
    rw [output_render hs hm, String.append_right_inj] at hout
    rw [← hout, Machine.separate?_joinDiagrams, Option.some.injEq] at hsep
    refine ⟨content, hs, machines, hm, hne, fun machine hmem => ?_⟩
    exact (machine.connected_draw_iff fenced).1 (hall _ (hsep ▸ List.mem_map_of_mem hmem))

end StateDiagram
