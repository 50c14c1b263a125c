import StateDiagram.Machine.Reference
import StateDiagram.Proofs.Declaration

namespace StateDiagram

set_option autoImplicit true

open Layout

/-- A handler that goes to a call of a chain of names. -/
structure ConstructorScript where
  event : HeadingScript
  function : Chain
  first : ArgumentScript
  rest : List ArgumentScript

namespace ConstructorScript

def arguments (script : ConstructorScript) : List String :=
  script.first.text :: script.rest.map ArgumentScript.text

def call (script : ConstructorScript) : String :=
  script.function.text ++ "(" ++ ", ".intercalate script.arguments ++ ")"

def print (script : ConstructorScript) : String :=
  "on" ++ script.event.print ++ " \x7b transitionTo(" ++ script.call ++ ") \x7d"

/-- Name and arguments are kept apart only where the name is not qualified. -/
def transition (script : ConstructorScript) : Transition :=
  if script.function.rest = [] then
    { event := script.event.text, target := script.function.text, arguments := script.arguments }
  else { event := script.event.text, target := script.call }

end ConstructorScript

namespace Chain

variable {first : ArgumentScript} {rest : List ArgumentScript}

/-- The call of a name that may be a member of what stands in front of it. -/
def callMember (first : ArgumentScript) (rest : List ArgumentScript) (part : Inscription)
    (name : Identifier) : List Identifier → Inscription
  | [] =>
    let selector := (TargetScript.call name first rest).inscription
    ⟨part.layout ++ dot :: selector.layout, .memberAccess
      (Layout.text (part.layout ++ dot :: selector.layout)) part.tree selector.tree false⟩
  | next :: names => callMember first rest (step part name) next names

def call (first : ArgumentScript) (rest : List ArgumentScript) : Chain → Inscription
  | ⟨name, []⟩ => (TargetScript.call name first rest).inscription
  | ⟨name, next :: names⟩ => callMember first rest ⟨[name.piece], name.tree⟩ next names

theorem readsHead_callMember {part : Inscription} (names : List Identifier)
    (h : ReadsHead (n + 1) part.layout part.tree) (name : Identifier) :
    ReadsHead (n + 1) (callMember first rest part name names).layout
      (callMember first rest part name names).tree := by
  induction names generalizing part name with
  | nil => exact h.member (ReadsName.arguments name (readsValues_argumentsLayout first rest))
  | cons next names ih => exact ih (h.member (ReadsName.bare name)) next

theorem layout_callMember (names : List Identifier) (part : Inscription) (name : Identifier) :
    (callMember first rest part name names).layout =
      part.layout ++ ((name :: names).flatMap (fun name => [dot, name.piece]) ++
        opening .round :: argumentsLayout first rest) := by
  induction names generalizing part name with
  | nil =>
    rw [callMember]
    rfl
  | cons next names ih =>
    rw [callMember, ih, step, List.flatMap_cons, List.append_assoc]
    simp

theorem layout_call (chain : Chain) : (chain.call first rest).layout =
    chain.layout ++ opening .round :: argumentsLayout first rest := by
  obtain ⟨name, names⟩ := chain
  cases names with
  | nil => rfl
  | cons next names =>
    rw [call, layout_callMember, layout_eq]
    simp

theorem readsArgument_call (chain : Chain) :
    ReadsArgument (n + 2) (chain.call first rest).layout (chain.call first rest).tree := by
  obtain ⟨name, names⟩ := chain
  cases names with
  | nil => exact TargetScript.readsArgument (.call name first rest)
  | cons next names =>
    have hn : ReadsHead (n + 1) (Inscription.mk [name.piece] name.tree).layout
        (Inscription.mk [name.piece] name.tree).tree := (ReadsName.bare name).head
    have hw : (call first rest ⟨name, next :: names⟩).layout.words =
        .identifier name.text :: .operator "." :: .identifier next.text ::
          Layout.words (names.flatMap (fun name => [dot, name.piece]) ++
            opening .round :: argumentsLayout first rest) := by
      rw [call, layout_callMember]
      rfl
    exact ⟨⟨_, _, hw, ⟨nofun, nofun, rfl⟩, by simp⟩,
      (readsHead_callMember names hn next).expression⟩

/-- No builder stands in the call unless the call is one itself. -/
theorem quiet_callMember {part : Inscription} (names : List Identifier) (name : Identifier)
    (hp : part.tree.opensLevel = false ∧ part.tree.Quiet 2)
    (hb : names = [] → part.tree.hasName "StateMachine" = true → name.text ≠ "create") :
    (callMember first rest part name names).tree.Quiet 2 := by
  induction names generalizing part name with
  | nil =>
    have hs : (part.tree.placed.hasName "StateMachine" && name.text == "create") = false := by
      rw [Node.placed, Node.hasName_map, Bool.and_eq_false_imp]
      intro hn
      exact beq_eq_false_iff_ne.2 (hb rfl hn)
    apply Node.Quiet.of_flat
    · simpa [callMember, TargetScript.inscription, Inscription.call, Node.placed, Node.map,
        Node.map_call, Builder.ofNode?, Identifier.tree, Node.hasName,
        Node.identifierName?] using hs
    · intro child hm
      simp only [callMember, Node.children, List.mem_cons, List.not_mem_nil, or_false] at hm
      rcases hm with rfl | rfl
      · exact hp
      · exact ⟨rfl, TargetScript.quiet (.call name first rest)⟩
  | cons next names ih =>
    have hq := quiet_foldl [name] hp
    exact ih next hq fun _ hn => by cases hn

theorem quiet_call (chain : Chain) (h : chain.text ≠ "StateMachine.create") :
    (chain.call first rest).tree.Quiet 2 := by
  obtain ⟨name, names⟩ := chain
  cases names with
  | nil => exact TargetScript.quiet (.call name first rest)
  | cons next names =>
    apply quiet_callMember names next ⟨rfl, .identifier name⟩
    rintro rfl hn hc
    apply h
    have hm : name.text = "StateMachine" := Option.some.inj (beq_iff_eq.1 hn)
    simp [text, hm, hc]

/-- The call of a qualified name is an access to a member. -/
theorem tree_callMember (names : List Identifier) (part : Inscription) (name : Identifier) :
    ∃ receiver selector, (callMember first rest part name names).tree =
      .memberAccess (callMember first rest part name names).layout.text receiver selector
        false := by
  induction names generalizing part name with
  | nil => exact ⟨_, _, rfl⟩
  | cons next names ih => exact ih (step part name) next

end Chain

namespace ConstructorScript

variable (script : ConstructorScript)

def inscription (script : ConstructorScript) : Inscription :=
  script.function.call script.first script.rest

theorem chars_inscription : script.inscription.layout.chars = script.call.toList := by
  rw [inscription, Chain.layout_call, chars_append, chars_cons, chars_argumentsLayout,
    script.function.chars_layout]
  simp [call, arguments, Bracket.opening]

theorem toTarget_inscription :
    Transition.toTarget script.event.text script.inscription.tree.placed = script.transition := by
  have ht := text_eq script.chars_inscription
  obtain ⟨event, ⟨name, names⟩, first, rest⟩ := script
  cases names with
  | nil =>
    rw [transition, if_pos rfl]
    exact TargetScript.toTarget_tree (.call name first rest) event.text
  | cons next names =>
    obtain ⟨receiver, selector, he⟩ :=
      @Chain.tree_callMember first rest names ⟨[name.piece], name.tree⟩ next
    rw [transition, if_neg (List.cons_ne_nil _ _), ← ht, inscription, Chain.call, he]
    simp [Node.placed, Node.map, Transition.toTarget, SyntaxTree.unquoted, Node.info,
      Place.ofText]

def handler (script : ConstructorScript) : Handler where
  heading := script.event.heading
  move := .call Word.transitionTo (script.inscription.layout ++ [closing .round])
    [script.inscription.argument]
  transition := script.transition

theorem neat_inscription (after : List Char) : Neat after script.inscription.layout := by
  rw [inscription, Chain.layout_call]
  apply neat_append.2
  constructor
  · exact script.function.neat (.cons (by decide))
  · exact .opening .round (neat_argumentsLayout script.first script.rest)

theorem sound_handler (h : script.function.text ≠ "StateMachine.create") :
    script.handler.Sound where
  heading := script.event.sound_heading
  reads n := (ReadsName.arguments Word.transitionTo
    (.last script.function.readsArgument_call)).statement
  quiet := by
    apply Node.Quiet.call []
    · exact List.forall_mem_singleton.2 (.valueArgument (script.function.quiet_call h))
    · nofun
  closed := by
    apply Inscription.Closed.call
    intro after
    exact neat_append.2 ⟨script.neat_inscription _, .closing .round .nil⟩
  moves state := by
    have ha : script.inscription.argument.placed.argumentExpression =
        script.inscription.tree.placed := by
      simp [Inscription.argument, Node.placed, Node.map, Node.argumentExpression]
    have hc : BuilderCall.ofNode? script.handler.move.tree.placed =
        some ⟨"transitionTo", [], [script.inscription.argument].map Node.placed, none⟩ :=
      BuilderCall.ofNode?_placed ..
    have ht : BuilderCall.transition? state script.event.text
        ⟨"transitionTo", [], [script.inscription.argument].map Node.placed, none⟩ =
          some { script.transition with sideEffect := none } := by
      rw [← script.toTarget_inscription, ← ha]
      rfl
    have hs : { script.transition with sideEffect := none } = script.transition := by
      rw [transition]
      split <;> rfl
    rw [hs] at ht
    rw [BuilderCall.all, List.filterMap_cons_some hc]
    exact List.filterMap_cons_some ht

theorem chars_handler : script.handler.inscription.layout.chars = script.print.toList := by
  have hm : script.handler.move.layout.chars =
      "transitionTo(".toList ++ (script.call.toList ++ ")".toList) := by
    simp [handler, Inscription.call, Word.transitionTo, Bracket.opening, Bracket.closing,
      script.chars_inscription]
  rw [Handler.inscription, Heading.inscription, Inscription.heading, chars_cons, chars_append,
    chars_cons, Inscription.chars_inline, hm]
  simp [print, handler, HeadingScript.heading, script.event.chars_layout, Word.on]

theorem keeps_arguments_iff : script.transition.target = script.function.text ∧
    script.transition.arguments = script.arguments ↔ script.function.rest = [] := by
  rw [transition]
  split
  · next hr => exact ⟨fun _ => hr, fun _ => ⟨rfl, rfl⟩⟩
  · next hr =>
    constructor
    · rintro ⟨-, ha⟩
      cases ha
    · exact fun h => (hr h).elim

end ConstructorScript

/-- A state in which one handler among others goes to a call of a chain of names. -/
structure VisitScript where
  heading : HeadingScript
  before : List TransitionScript
  visit : ConstructorScript
  behind : List TransitionScript

namespace VisitScript

variable (script : VisitScript)

def state (script : VisitScript) : State where
  name := script.heading.text
  transitions := script.before.map TransitionScript.transition ++
    script.visit.transition :: script.behind.map TransitionScript.transition

def print (width : Nat) (script : VisitScript) : String :=
  printState width script.heading.print (script.before.map TransitionScript.print ++
    script.visit.print :: script.behind.map TransitionScript.print)

def declaration (script : VisitScript) : Declaration where
  heading := script.heading.heading
  handlers := script.before.map TransitionScript.handler ++
    script.visit.handler :: script.behind.map TransitionScript.handler

theorem state_declaration : script.declaration.state = script.state := by
  have ht (scripts : List TransitionScript) :
      (scripts.map TransitionScript.handler).map Handler.transition =
        scripts.map TransitionScript.transition := List.map_map ..
  rw [Declaration.state, declaration, List.map_append, List.map_cons, ht, ht]
  rfl

theorem text_line (width : Nat) :
    (script.declaration.line width).inscription.layout.text = script.print width := by
  have ht (scripts : List TransitionScript) :
      (scripts.map TransitionScript.handler).map (·.inscription.layout.text) =
        scripts.map TransitionScript.print := by
    rw [List.map_map]
    apply List.map_congr_left
    intro script _
    rw [Function.comp_apply, script.inscription_handler]
    exact text_eq script.chars_inscription
  have hh : script.heading.heading.layout.text = script.heading.print :=
    text_eq script.heading.chars_layout
  rw [Declaration.text_line, declaration, List.map_append, List.map_cons, ht, ht, hh,
    text_eq script.visit.chars_handler]
  rfl

theorem sound_line (width : Nat) (h : script.visit.function.text ≠ "StateMachine.create") :
    (script.declaration.line width).Sound := by
  apply Declaration.sound_line script.heading.sound_heading
  have ht (scripts : List TransitionScript) :
      ∀ handler ∈ scripts.map TransitionScript.handler, handler.Sound :=
    List.forall_mem_map.2 fun script _ => script.sound_handler
  rw [declaration]
  intro handler hm
  rcases List.mem_append.1 hm with hm | hm
  · exact ht script.before handler hm
  · cases hm with
    | head => exact script.visit.sound_handler h
    | tail _ hm => exact ht script.behind handler hm

end VisitScript

/-- A machine in which one handler goes to a call of a chain of names. -/
structure VisitingScript where
  front : List StatementScript
  state : VisitScript
  back : List StatementScript

namespace VisitingScript

variable (script : VisitingScript)

def machine (script : VisitingScript) : Machine where
  statements := script.front.map StatementScript.statement ++
    .state script.state.state :: script.back.map StatementScript.statement

def print (width : Nat) (script : VisitingScript) : String :=
  printBuilder width (script.front.map (StatementScript.print width) ++
    script.state.print width :: script.back.map (StatementScript.print width))

/-- What the handler of the call refers to. -/
def reference (script : VisitingScript) : Reference :=
  .transition script.state.heading.text script.state.visit.event.text
    script.state.visit.transition.target

def lines (width : Nat) (script : VisitingScript) : List BuilderLine :=
  script.front.map (StatementScript.line width) ++
    script.state.declaration.line width :: script.back.map (StatementScript.line width)

theorem extractMachines_print (width : Nat)
    (h : script.state.visit.function.text ≠ "StateMachine.create") :
    extractMachines {} (script.print width) = .ok [script.machine] := by
  have hs : ∀ line ∈ script.lines width, line.Sound := by
    have hs (scripts : List StatementScript) :
        ∀ line ∈ scripts.map (StatementScript.line width), line.Sound :=
      List.forall_mem_map.2 fun script _ => script.sound_line width
    intro line hm
    rcases List.mem_append.1 hm with hm | hm
    · exact hs script.front line hm
    · cases hm with
      | head => exact script.state.sound_line width h
      | tail _ hm => exact hs script.back line hm
  have ht (scripts : List StatementScript) :
      (scripts.map (StatementScript.line width)).map (·.inscription.layout.text) =
        scripts.map (StatementScript.print width) := by
    rw [List.map_map]
    exact List.map_congr_left fun script _ => text_eq (script.chars_inscription width)
  have hp : (script.lines width).map (·.inscription.layout.text) =
      script.front.map (StatementScript.print width) ++
        script.state.print width :: script.back.map (StatementScript.print width) := by
    rw [lines, List.map_append, List.map_cons, ht, ht, script.state.text_line]
  have hf (scripts : List StatementScript) :
      (scripts.map (StatementScript.line width)).map BuilderLine.statement =
        scripts.map StatementScript.statement := List.map_map ..
  have hm : (script.lines width).map BuilderLine.statement = script.machine.statements := by
    rw [lines, List.map_append, List.map_cons, hf, hf, Declaration.line,
      script.state.state_declaration]
    rfl
  have he := extractMachines_lines width hs
  rwa [hp, hm] at he

theorem mem_references : script.reference ∈ script.machine.references := by
  rw [Machine.references, List.mem_flatMap]
  refine ⟨.state script.state.state, List.mem_append_right _ (List.mem_cons_self ..), ?_⟩
  exact List.mem_map.2 ⟨script.state.visit.transition,
    List.mem_append_right _ (List.mem_cons_self ..), by
      rw [reference, ConstructorScript.transition]
      split <;> rfl⟩

end VisitingScript

/-- A target that is written as a call keeps its name and its arguments apart if and only if the
name is not qualified; the call of a qualified name is a name of its own. -/
theorem extractMachines_constructor (width : Nat) (script : VisitingScript)
    (h : script.state.visit.function.text ≠ "StateMachine.create") :
    extractMachines {} (script.print width) = .ok [script.machine] ∧
      (script.state.visit.transition.target = script.state.visit.function.text ∧
        script.state.visit.transition.arguments = script.state.visit.arguments ↔
          script.state.visit.function.rest = []) ∧
      (script.machine.declares script.state.visit.function.text = true →
        (script.reference ∉ script.machine.unresolvedReferences ↔
          script.state.visit.function.rest = [] ∨
            script.machine.declares script.state.visit.call = true)) := by
  refine ⟨script.extractMachines_print width h, script.state.visit.keeps_arguments_iff,
    fun hd => ?_⟩
  have hu : script.reference ∉ script.machine.unresolvedReferences ↔
      script.machine.declares script.state.visit.transition.target = true := by
    have ht : script.reference.target = script.state.visit.transition.target := rfl
    rw [Machine.unresolvedReferences, List.mem_filter, ← ht]
    simp [script.mem_references]
  rw [hu, ConstructorScript.transition]
  split
  · next hr => exact ⟨fun _ => .inl hr, fun _ => hd⟩
  · next hr => exact ⟨.inr, fun h => h.resolve_left hr⟩

/-- The state that is gone to is declared, by the name that the call has. -/
def busyScript : VisitingScript where
  front := []
  state := {
    heading := .typed ⟨⟨"State", by decide⟩, [⟨"Idle", by decide⟩]⟩
    before := []
    visit := {
      event := .typed ⟨⟨"Start", by decide⟩, []⟩
      function := ⟨⟨"State", by decide⟩, [⟨"Busy", by decide⟩]⟩
      first := .identifier ⟨"job", by decide⟩
      rest := [.number ⟨"3", by decide, rfl⟩] }
    behind := [] }
  back := [.state {
    heading := .typed ⟨⟨"State", by decide⟩, [⟨"Busy", by decide⟩]⟩
    transitions := []
    onEnter := []
    onExit := [] }]

theorem extractMachines_constructor_busy :
    busyScript.print 2 =
      "StateMachine.create \x7b\n" ++
      "  state<State.Idle> \x7b\n" ++
      "    on<Start> \x7b transitionTo(State.Busy(job, 3)) \x7d\n" ++
      "  \x7d\n" ++
      "  state<State.Busy> \x7b\n" ++
      "  \x7d\n" ++
      "\x7d" ∧
    extractMachines {} (busyScript.print 2) = .ok [⟨[
      .state {
        name := "State.Idle"
        transitions := [{ event := "Start", target := "State.Busy(job, 3)" }] },
      .state { name := "State.Busy" }]⟩] ∧
    busyScript.reference ∈ busyScript.machine.unresolvedReferences := by
  have h : busyScript.state.visit.function.text ≠ "StateMachine.create" := by decide
  obtain ⟨hm, -, hr⟩ := extractMachines_constructor 2 busyScript h
  refine ⟨by decide +kernel, hm, ?_⟩
  by_contra hn
  exact absurd ((hr (by decide)).1 hn) (by decide)

end StateDiagram
