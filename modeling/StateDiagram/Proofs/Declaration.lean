import StateDiagram.Proofs.Printing

namespace StateDiagram

set_option autoImplicit true

open Layout

/-- What stands between the word of a call and its body and names what is declared. -/
structure Heading where
  layout : Layout
  types : List String
  values : List (Node String)
  name : String

namespace Heading

def inscription (heading : Heading) (callee : Identifier) (body : Inscription) : Inscription :=
  .heading callee heading.layout (heading.types.map .typeArgument) heading.values body

/-- The heading reads as its arguments, and they give the name. -/
structure Sound (heading : Heading) : Prop where
  reads : ∀ {n : Nat} (callee : Identifier) {body : Inscription},
    ReadsLambda (n + 1) body.layout body.tree →
      ReadsName (n + 1) (heading.inscription callee body).layout
        (heading.inscription callee body).tree
  declares : ∀ (callee : String) (trailing : Option SyntaxTree),
    BuilderCall.declaredName? ⟨callee, (heading.types.map .typeArgument).map Node.placed,
      heading.values.map Node.placed, trailing⟩ = some heading.name
  quiet : ∀ value ∈ heading.values, value.Quiet 1
  closed : ∀ (callee : Identifier) {body : Inscription},
    body.Closed → (heading.inscription callee body).Closed

theorem Sound.quiet_inscription {heading : Heading} (h : heading.Sound) (callee : Identifier)
    {body : Inscription} (hb : body.tree.Quiet (n + 1)) :
    (heading.inscription callee body).tree.Quiet (n + 2) := by
  apply Node.Quiet.call
  · intro value hm
    exact (h.quiet value hm).mono (Nat.le_add_left 1 n)
  · intro lambda hl
    cases hl
    exact hb

end Heading

namespace HeadingScript

def heading (script : HeadingScript) : Heading where
  layout := script.layout
  types := match script with
    | named _ => []
    | typed chain => [chain.layout.text]
  values := script.values
  name := script.text

theorem inscription_heading (script : HeadingScript) (callee : Identifier) (body : Inscription) :
    script.heading.inscription callee body = script.inscription callee body := by
  cases script <;> rfl

theorem sound_heading (script : HeadingScript) : script.heading.Sound where
  reads callee body h := by
    rw [inscription_heading]
    exact script.reads callee h
  declares callee trailing := by
    have hd := script.declaredName?_eq callee trailing
    cases script <;> exact hd
  quiet value hm := by
    cases script with
    | named name =>
      obtain rfl := List.mem_singleton.1 hm
      exact .valueArgument name.quiet
    | typed => cases hm
  closed callee body h := by
    rw [inscription_heading]
    exact script.closed callee h

end HeadingScript

/-- A handler of an event that makes a single transition. -/
structure Handler where
  heading : Heading
  move : Inscription
  transition : Transition

namespace Handler

def inscription (handler : Handler) : Inscription :=
  handler.heading.inscription Word.on handler.move.inline

structure Sound (handler : Handler) : Prop where
  heading : handler.heading.Sound
  reads : ∀ n, ReadsStatement (n + 3) handler.move.layout handler.move.tree
  quiet : handler.move.tree.Quiet 4
  closed : handler.move.Closed
  moves : ∀ state, (BuilderCall.all [handler.move.tree.placed]).filterMap
    (·.transition? state handler.heading.name) = [handler.transition]

namespace Sound

variable {handler : Handler}

theorem reads_inscription (h : handler.Sound) :
    ReadsStatement (n + 5) handler.inscription.layout handler.inscription.tree :=
  (h.heading.reads Word.on ((h.reads n).inline (h.closed _))).statement

theorem quiet_inscription (h : handler.Sound) : handler.inscription.tree.Quiet 7 :=
  h.heading.quiet_inscription Word.on (.lambda (.block (List.forall_mem_singleton.2 h.quiet)))

theorem closed_inscription (h : handler.Sound) : handler.inscription.Closed :=
  h.heading.closed Word.on (.inline fun _ => h.closed _)

theorem changes (h : handler.Sound) (hd : depth + 1 ≤ limit) :
    Changes limit depth handler.inscription.tree fun state =>
      { state with transitions := state.transitions ++ [handler.transition] } :=
  changes_handler (h.heading.declares Word.on.text) h.moves hd handler.heading.layout

end Sound

end Handler

def TransitionScript.handler (script : TransitionScript) : Handler :=
  ⟨script.event.heading, script.move, script.transition⟩

theorem TransitionScript.inscription_handler (script : TransitionScript) :
    script.handler.inscription = script.inscription := script.event.inscription_heading _ _

theorem TransitionScript.sound_handler (script : TransitionScript) : script.handler.Sound where
  heading := script.event.sound_heading
  reads _ := script.readsMove
  quiet := script.quiet_move
  closed := script.closed_move
  moves state := script.transition?_move state script.event.text

/-- A line in the body of a builder and the statement that it stands for. -/
structure BuilderLine where
  inscription : Inscription
  statement : Statement

namespace BuilderLine

structure Sound (line : BuilderLine) : Prop where
  reads : ∀ n, ReadsStatement (n + 7) line.inscription.layout line.inscription.tree
  quiet : line.inscription.tree.Quiet 10
  closed : line.inscription.Closed
  yields : ∀ {limit depth : Nat}, depth + 2 ≤ limit →
    Yields limit depth line.inscription.tree (some line.statement)

end BuilderLine

def StatementScript.line (width : Nat) (script : StatementScript) : BuilderLine :=
  ⟨script.inscription width, script.statement⟩

theorem StatementScript.sound_line (width : Nat) (script : StatementScript) :
    (script.line width).Sound where
  reads _ := script.reads width
  quiet := script.quiet width
  closed := script.closed width
  yields hd := script.yields width hd

def printState (width : Nat) (heading : String) (lines : List String) : String :=
  "state" ++ heading ++ " \x7b" ++ printLines (width + width) lines ++ "\n" ++ spaces width ++ "\x7d"

structure Declaration where
  heading : Heading
  handlers : List Handler

namespace Declaration

def state (declaration : Declaration) : State where
  name := declaration.heading.name
  transitions := declaration.handlers.map Handler.transition

def body (width : Nat) (declaration : Declaration) : Inscription :=
  .block (List.replicate (width + width) .space) (.word .lineBreak :: List.replicate width .space)
    (declaration.handlers.map Handler.inscription)

def line (width : Nat) (declaration : Declaration) : BuilderLine where
  inscription := declaration.heading.inscription Word.state (declaration.body width)
  statement := .state declaration.state

theorem text_line (width : Nat) (declaration : Declaration) :
    (declaration.line width).inscription.layout.text = printState width
      declaration.heading.layout.text (declaration.handlers.map (·.inscription.layout.text)) := by
  have hm : (declaration.handlers.map Handler.inscription).map (·.layout.text) =
      declaration.handlers.map (·.inscription.layout.text) := List.map_map ..
  apply text_eq
  rw [line, Heading.inscription, Inscription.heading, chars_cons, chars_append, chars_cons, body,
    Inscription.chars_block, hm, chars_cons, chars_spaces]
  simp [printState, Word.state, Layout.text]

variable {declaration : Declaration}

theorem state?_eq (hh : declaration.heading.Sound)
    (h : ∀ handler ∈ declaration.handlers, handler.Sound) (hd : depth + 1 ≤ limit) (width : Nat) :
    BuilderCall.state? limit depth ⟨Word.state.text,
      (declaration.heading.types.map .typeArgument).map Node.placed,
      declaration.heading.values.map Node.placed, some (declaration.body width).tree.placed⟩ =
        .ok (some declaration.state) := by
  obtain ⟨heading, handlers⟩ := declaration
  have hn := hh.declares Word.state.text (some (body width ⟨heading, handlers⟩).tree.placed)
  have hb : (body width ⟨heading, handlers⟩).tree.placed.lambdaBody? =
      some (Node.block (core (List.replicate (width + width) .space)
        ((handlers.map Handler.inscription).map Inscription.layout)).text
          ((handlers.map Handler.inscription).map Inscription.tree)).placed := by
    simp [body, Inscription.block, Node.placed, Node.map, Node.lambdaBody?]
  have hs (whole : String) : (Node.block whole
      ((handlers.map Handler.inscription).map Inscription.tree)).placed.statements =
        ((handlers.map Handler.inscription).map Inscription.tree).map Node.placed := by
    rw [Node.placed, Node.map, Node.statements]
    rfl
  have hf := StateScript.fill_handlers (fun handler hm => (h handler hm).changes hd)
    { name := heading.name }
  rw [StateScript.fill] at hf
  rw [BuilderCall.state?, checkDepth, if_pos (by omega), hn, BuilderCall.body?]
  dsimp only [Option.bind_some]
  rw [hb]
  dsimp only
  rw [hs, hf]
  rfl

theorem sound_line (hh : declaration.heading.Sound)
    (h : ∀ handler ∈ declaration.handlers, handler.Sound) (width : Nat) :
    (declaration.line width).Sound where
  reads n := by
    have hl : ReadsLambda (n + 6) (declaration.body width).layout
        (declaration.body width).tree := by
      apply ReadsLambda.indented
      · intro line hm
        obtain ⟨handler, hmem, rfl⟩ := List.mem_map.1 hm
        exact (h handler hmem).reads_inscription
      · intro line hm
        obtain ⟨handler, hmem, rfl⟩ := List.mem_map.1 hm
        exact (h handler hmem).closed_inscription
    exact (hh.reads Word.state hl).statement
  quiet := by
    apply hh.quiet_inscription
    apply Node.Quiet.lambda
    apply Node.Quiet.block
    rw [List.map_map]
    intro tree hm
    obtain ⟨handler, hmem, rfl⟩ := List.mem_map.1 hm
    exact (h handler hmem).quiet_inscription
  closed := by
    apply hh.closed
    apply Inscription.Closed.block (neat_spaces _) (neat_trail width)
    intro line hm
    obtain ⟨handler, hmem, rfl⟩ := List.mem_map.1 hm
    exact (h handler hmem).closed_inscription
  yields hd :=
    .inr ⟨_, BuilderCall.ofNode?_placed ..,
      BuilderCall.statement?_state rfl (state?_eq hh h hd width)⟩

end Declaration

def printBuilder (width : Nat) (lines : List String) : String :=
  "StateMachine.create \x7b" ++ printLines width lines ++ "\n\x7d"

def builderBody (width : Nat) (lines : List BuilderLine) : Inscription :=
  .block (List.replicate width .space) [.word .lineBreak] (lines.map BuilderLine.inscription)

theorem text_builderBody (width : Nat) (lines : List BuilderLine) :
    (builderLayout (builderBody width lines)).text =
      printBuilder width (lines.map (·.inscription.layout.text)) := by
  have hm : (lines.map BuilderLine.inscription).map (·.layout.text) =
      lines.map (·.inscription.layout.text) := List.map_map ..
  have ht : chars [.word .lineBreak] = "\n".toList := rfl
  have hb : (builderLayout (builderBody width lines)).chars = "StateMachine.create ".toList ++
      ("\x7b".toList ++ ((printLines width (lines.map (·.inscription.layout.text))).toList ++
        ("\n".toList ++ "\x7d".toList))) := by
    rw [chars_builderLayout, builderBody, Inscription.chars_block, hm, ht]
  have hs : "StateMachine.create \x7b".toList = "StateMachine.create ".toList ++ "\x7b".toList :=
    rfl
  have he : "\n\x7d".toList = "\n".toList ++ "\x7d".toList := rfl
  apply Layout.text_eq
  unfold printBuilder
  rw [hb, String.toList_append, String.toList_append, hs, he]
  simp only [List.append_assoc]

section

variable {lines : List BuilderLine}

theorem closed_builderBody (width : Nat) (h : ∀ line ∈ lines, line.Sound) :
    (builderBody width lines).Closed := by
  have ht : ∀ after, Neat after [.word .lineBreak] := fun _ => Neat.nil.lineBreak
  apply Inscription.Closed.block (neat_spaces width) ht
  intro line hm
  obtain ⟨line, hmem, rfl⟩ := List.mem_map.1 hm
  exact (h line hmem).closed

theorem reads_builderBody (width : Nat) (h : ∀ line ∈ lines, line.Sound) :
    ReadsLambda (n + 8) (builderBody width lines).layout (builderBody width lines).tree := by
  apply ReadsLambda.indented 0 width
  · intro line hm
    obtain ⟨line, hmem, rfl⟩ := List.mem_map.1 hm
    exact (h line hmem).reads n
  · intro line hm
    obtain ⟨line, hmem, rfl⟩ := List.mem_map.1 hm
    exact (h line hmem).closed

/-- The tree of the builder; the texts of its parts do not matter. -/
theorem machinesAt_builderBody (width : Nat) (h : ∀ line ∈ lines, line.Sound)
    (hd : depth + 13 ≤ limit) (text inner : String) :
    (builderTree text inner (builderBody width lines).tree).placed.machinesAt limit depth =
      .ok [⟨lines.map BuilderLine.statement⟩] := by
  have hb : (builderBody width lines).tree = .lambda (builderBody width lines).layout.text none
      (.block (Layout.text (core (List.replicate width .space)
        ((lines.map BuilderLine.inscription).map Inscription.layout)))
          (lines.map fun line => line.inscription.tree)) := by
    have hm : (lines.map BuilderLine.inscription).map Inscription.tree =
        lines.map fun line => line.inscription.tree := List.map_map ..
    rw [← hm]
    rfl
  have hf : lines.filterMap (fun line => some line.statement) = lines.map BuilderLine.statement :=
    congrFun List.filterMap_eq_map' _
  rw [hb, machinesAt_builder (fun line => some line.statement) hd (fun line hm => (h line hm).quiet)
    (fun line hm => (h line hm).yields (by omega)), hf]

/-- A builder whose lines are sound is found with their statements. -/
theorem extractMachines_lines (width : Nat) (h : ∀ line ∈ lines, line.Sound) :
    extractMachines {} (printBuilder width (lines.map (·.inscription.layout.text))) =
      .ok [⟨lines.map BuilderLine.statement⟩] := by
  have hneat := (closed_builderBody width h).neat_builder []
  have hread := readsStatement_builder (reads_builderBody (n := 247) width h)
  have hfile := hread.one.file Blank.nil
  rw [List.append_nil] at hfile
  rw [← text_builderBody]
  apply extractMachines_of_reads hfile hneat.lexical hneat.cr
  intro whole
  -- The file holds a single statement, which is the builder.
  let tree (_ : Unit) := builderTree (builderLayout (builderBody width lines)).text
    (Inscription.heading Word.create [] [] [] (builderBody width lines)).layout.text
    (builderBody width lines).tree
  have hm : ∀ value ∈ [()], (tree value).opensLevel = false ∧
      (tree value).placed.machinesAt defaultDepth 0 = .ok [⟨lines.map BuilderLine.statement⟩] :=
    fun _ _ => ⟨rfl, machinesAt_builderBody width h (by decide) _ _⟩
  exact machinesAt_file hm whole

end

end StateDiagram
