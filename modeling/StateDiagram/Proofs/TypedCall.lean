import StateDiagram.Proofs.Declaration
import StateDiagram.Proofs.TypeExpression

namespace StateDiagram

set_option autoImplicit true

open Layout Text

def typesHeading (gap : Nat) (first : TypeExpression) (rest : List TypeExpression) : Heading where
  layout := typesLayout gap ((first :: rest).map (·.layout gap))
  types := (first :: rest).map (·.print gap)
  values := []
  name := first.print gap

section

variable (gap : Nat) (first : TypeExpression) (rest : List TypeExpression)

theorem typeLayout_map (types : List TypeExpression) :
    ∀ layout ∈ types.map (·.layout gap), TypeLayout layout :=
  List.forall_mem_map.2 fun type _ => type.typeLayout gap

theorem map_text_layout (types : List TypeExpression) :
    (types.map (·.layout gap)).map Layout.text = types.map (·.print gap) := by
  rw [List.map_map]
  exact List.map_congr_left fun type _ => text_eq (type.chars_layout gap)

theorem text_typesHeading : (typesHeading gap first rest).layout.text =
    printTypes gap ((first :: rest).map (·.print gap)) := by
  apply text_eq
  rw [typesHeading, chars_typesLayout, map_text_layout]

theorem reads_typesHeading (callee : Identifier) {body : Inscription}
    (h : ReadsLambda n body.layout body.tree) :
    ReadsName n ((typesHeading gap first rest).inscription callee body).layout
      ((typesHeading gap first rest).inscription callee body).tree := by
  have ht := ReadsTypes.typesLayout (typeLayout_map gap (first :: rest)) gap
  rw [map_text_layout] at ht
  exact .lambda callee ht h

theorem closed_typesHeading (callee : Identifier) {body : Inscription} (h : body.Closed) :
    ((typesHeading gap first rest).inscription callee body).Closed := by
  intro after
  apply callee.neat (.cons (by decide))
  apply neat_typesLayout (typeLayout_map gap (first :: rest)) gap (h after).space
  intro d hd
  cases hd
  decide

theorem sound_typesHeading : (typesHeading gap first rest).Sound where
  reads callee _ h := reads_typesHeading gap first rest callee h
  declares callee trailing := by
    have hi (type : String) : (Node.typeArgument type).placed.info.text = type := by
      rw [Node.placed, Node.info_map, Node.info]
      rfl
    simp [typesHeading, BuilderCall.declaredName?, hi]
  quiet := List.forall_mem_nil _
  closed callee _ h := closed_typesHeading gap first rest callee h

end

/-- A handler of an event that is declared with types. -/
structure TypedHandler where
  first : TypeExpression
  rest : List TypeExpression
  target : TargetScript
  sideEffect : Option NameScript

namespace TypedHandler

def print (gap : Nat) (handler : TypedHandler) : String :=
  "on" ++ printTypes gap ((handler.first :: handler.rest).map (·.print gap)) ++
    " \x7b transitionTo(" ++ handler.target.print ++
      (match handler.sideEffect with
        | none => ""
        | some name => ", " ++ name.print) ++ ") \x7d"

def transition (gap : Nat) (handler : TypedHandler) : Transition where
  event := handler.first.print gap
  target := handler.target.text
  arguments := handler.target.arguments
  sideEffect := handler.sideEffect.map NameScript.text

def script (handler : TypedHandler) (event : HeadingScript) : TransitionScript :=
  ⟨event, handler.target, handler.sideEffect⟩

/-- The event that stands in the script does not matter. -/
def handler (gap : Nat) (handler : TypedHandler) : Handler where
  heading := typesHeading gap handler.first handler.rest
  move := (handler.script (.typed ⟨Word.on, []⟩)).move
  transition := handler.transition gap

theorem sound_handler (gap : Nat) (handler : TypedHandler) : (handler.handler gap).Sound where
  heading := sound_typesHeading ..
  reads _ := TransitionScript.readsMove _
  quiet := TransitionScript.quiet_move _
  closed := TransitionScript.closed_move _
  moves state := TransitionScript.transition?_move _ state (handler.first.print gap)

theorem text_handler (gap : Nat) (handler : TypedHandler) :
    (handler.handler gap).inscription.layout.text = handler.print gap := by
  obtain ⟨first, rest, target, sideEffect⟩ := handler
  have hm : (typesHeading gap first rest).layout.chars =
      (printTypes gap ((first :: rest).map (·.print gap))).toList := by
    rw [← text_typesHeading, Layout.text, String.toList_ofList]
  apply text_eq
  cases sideEffect <;>
    simp [handler, script, Handler.inscription, Heading.inscription, Inscription.heading,
      Inscription.chars_inline, TransitionScript.chars_move, TransitionScript.movesLayout, print, hm,
      target.chars_inscription, NameScript.chars_inscription, Word.on, Bracket.closing]

end TypedHandler

structure TypedState where
  first : TypeExpression
  rest : List TypeExpression
  handlers : List TypedHandler

namespace TypedState

def print (width gap : Nat) (state : TypedState) : String :=
  printState width (printTypes gap ((state.first :: state.rest).map (·.print gap)))
    (state.handlers.map (·.print gap))

def state (gap : Nat) (state : TypedState) : State where
  name := state.first.print gap
  transitions := state.handlers.map (·.transition gap)

def declaration (gap : Nat) (state : TypedState) : Declaration where
  heading := typesHeading gap state.first state.rest
  handlers := state.handlers.map (·.handler gap)

theorem sound_line (width gap : Nat) (state : TypedState) :
    ((state.declaration gap).line width).Sound := by
  apply Declaration.sound_line (sound_typesHeading ..)
  exact List.forall_mem_map.2 fun handler _ => handler.sound_handler gap

theorem text_line (width gap : Nat) (state : TypedState) :
    ((state.declaration gap).line width).inscription.layout.text = state.print width gap := by
  have hh : (state.handlers.map (·.handler gap)).map (·.inscription.layout.text) =
      state.handlers.map (·.print gap) := by
    rw [List.map_map]
    exact List.map_congr_left fun handler _ => handler.text_handler gap
  have ht : (state.declaration gap).heading.layout.text =
      printTypes gap ((state.first :: state.rest).map (·.print gap)) := text_typesHeading ..
  rw [Declaration.text_line, ht, declaration, hh]
  rfl

theorem statement_line (width gap : Nat) (state : TypedState) :
    ((state.declaration gap).line width).statement = .state (state.state gap) := by
  rw [Declaration.line, Declaration.state, declaration, TypedState.state, List.map_map]
  rfl

end TypedState

theorem parse_typesHeading (n gap : Nat) (function : Identifier) (first : TypeExpression)
    (rest : List TypeExpression) :
    let types := (first :: rest).map (·.print gap)
    let text := function.text ++ printTypes gap types ++ " \x7b \x7d"
    ∃ tree : SyntaxTree, SyntaxTree.parse (n + 2) text = .ok tree ∧
      tree.map Place.text = .file text [.call text function.tree (types.map .typeArgument) []
        (some (.lambda "\x7b \x7d" none (.block "" [])))] := by
  intro types text
  have hspace : Layout.Blank [.space] := List.forall_mem_singleton.2 (.inl rfl)
  let body : Inscription := ⟨braces [.space], .lambda (braces [.space]).text none (.block "" [])⟩
  have hbody : ReadsLambda (n + 1) body.layout body.tree := .blank hspace
  have hclosed : body.Closed := fun after => Inscription.neat_braces Neat.nil.space
  have hread := (reads_typesHeading gap first rest function hbody).statement.one.file Blank.nil
  have hneat := closed_typesHeading gap first rest function hclosed []
  have htypes : (typesHeading gap first rest).layout.chars = (printTypes gap types).toList := by
    rw [← text_typesHeading, Layout.text, String.toList_ofList]
  have htext : ((typesHeading gap first rest).inscription function body).layout.text = text := by
    apply text_eq
    simp [Heading.inscription, Inscription.heading, htypes, body, chars_braces, text]
  have htree : ((typesHeading gap first rest).inscription function body).tree =
      .call text function.tree (types.map .typeArgument) []
        (some (.lambda "\x7b \x7d" none (.block "" []))) := by
    have hb : (braces [.space]).text = "\x7b \x7d" := rfl
    rw [← htext, ← hb]
    rfl
  rw [List.append_nil] at hread
  obtain ⟨tree, hp, ht⟩ := parse_of_reads hread hneat.lexical hneat.cr
  have hlayout : (function.piece :: ((typesHeading gap first rest).layout ++
      .space :: body.layout)) = ((typesHeading gap first rest).inscription function body).layout :=
    rfl
  rw [hlayout, htext] at hp
  rw [hlayout, htext, htree] at ht
  exact ⟨tree, hp, ht⟩

theorem extractMachines_typedState (width gap : Nat) (front back : List StatementScript)
    (state : TypedState) :
    extractMachines {} (printBuilder width (front.map (StatementScript.print width) ++
      state.print width gap :: back.map (StatementScript.print width))) =
        .ok [⟨front.map StatementScript.statement ++
          .state (state.state gap) :: back.map StatementScript.statement⟩] := by
  have htext (scripts : List StatementScript) :
      (scripts.map (StatementScript.line width)).map (·.inscription.layout.text) =
        scripts.map (StatementScript.print width) := by
    rw [List.map_map]
    exact List.map_congr_left fun script _ => text_eq (script.chars_inscription width)
  have hstatement (scripts : List StatementScript) :
      (scripts.map (StatementScript.line width)).map BuilderLine.statement =
        scripts.map StatementScript.statement := by
    rw [List.map_map]
    rfl
  have hsound : ∀ line ∈ front.map (StatementScript.line width) ++
      (state.declaration gap).line width :: back.map (StatementScript.line width), line.Sound := by
    have hlines (scripts : List StatementScript) :
        ∀ line ∈ scripts.map (StatementScript.line width), line.Sound :=
      List.forall_mem_map.2 fun script _ => script.sound_line width
    exact List.forall_mem_append.2
      ⟨hlines front, List.forall_mem_cons.2 ⟨state.sound_line width gap, hlines back⟩⟩
  have hm := extractMachines_lines width hsound
  rwa [List.map_append, List.map_append, List.map_cons, List.map_cons, htext, htext, hstatement,
    hstatement, state.text_line, state.statement_line] at hm

/-- Behind a name, types are taken exactly where the angle brackets close behind nothing but parts
of types and a call opens. They are what the commas within a single pair of brackets leave, and a
call that is written with types has the types that are written, the first of which names what it
declares. -/
theorem typeArguments_exact :
    (∀ (interior : Interior) (text : String) (span : Span) (opener : Token) (tokens : List Token),
      opener.lexeme = .operator "<" → opener.span.start = span.stop →
        (∀ inside close rest, TypesAhead opener tokens inside close rest →
          readNamed interior text span ⟨span.stop, opener :: tokens⟩ = do
            let (values, afterValues) ← readCallArguments interior.argument (.past close rest)
            let (lambda, next) ← readTrailingLambda interior.lambda afterValues
            return (.call ⟨span.start, next.previousEnd⟩ (.identifier span (bareName text))
              (typeArguments opener inside) (values.getD []) lambda, next)) ∧
        ((¬ ∃ inside close rest, TypesAhead opener tokens inside close rest) →
          readNamed interior text span ⟨span.stop, opener :: tokens⟩ =
            some (.identifier span (bareName text), ⟨span.stop, opener :: tokens⟩))) ∧
    (∀ (n gap : Nat) (function : Identifier) (first : TypeExpression) (rest : List TypeExpression),
      let types := (first :: rest).map (·.print gap)
      let text := function.text ++ printTypes gap types ++ " \x7b \x7d"
      ∃ tree : SyntaxTree, SyntaxTree.parse (n + 2) text = .ok tree ∧
        tree.map Place.text = .file text [.call text function.tree (types.map .typeArgument) []
          (some (.lambda "\x7b \x7d" none (.block "" [])))]) ∧
    ∀ (width gap : Nat) (front back : List StatementScript) (state : TypedState),
      extractMachines {} (printBuilder width (front.map (StatementScript.print width) ++
        state.print width gap :: back.map (StatementScript.print width))) =
          .ok [⟨front.map StatementScript.statement ++
            .state (state.state gap) :: back.map StatementScript.statement⟩] := by
  refine ⟨?_, parse_typesHeading, extractMachines_typedState⟩
  intro interior text span opener tokens ho hs
  obtain ⟨hsome, hnone⟩ := readTypeArguments_eq_iff tokens ho hs
  constructor
  · intro inside close rest h
    exact readNamed_of_opensCall interior text span (hsome inside close rest h) h.opens
  · intro h
    exact readNamed_of_less interior text span (hnone h) rfl ho

/-- Behind the name in `f<A<B>, C?>()`, up to the last angle bracket. -/
def nestedTypes : List Token := [
  ⟨.identifier "A", ⟨2, 3⟩⟩, ⟨.operator "<", ⟨3, 4⟩⟩, ⟨.identifier "B", ⟨4, 5⟩⟩,
  ⟨.operator ">", ⟨5, 6⟩⟩, ⟨.operator ",", ⟨6, 7⟩⟩, ⟨.identifier "C", ⟨8, 9⟩⟩,
  ⟨.operator "?", ⟨9, 10⟩⟩]

theorem nested_nestedTypes : Nested true nestedTypes := by
  have hinner : Nested true [⟨.identifier "B", ⟨4, 5⟩⟩] := .cons rfl rfl (.inl rfl) .nil
  have hrest : Nested true [⟨.operator ",", ⟨6, 7⟩⟩, ⟨.identifier "C", ⟨8, 9⟩⟩,
      ⟨.operator "?", ⟨9, 10⟩⟩] :=
    .cons rfl rfl (.inl rfl) (.cons rfl rfl (.inl rfl) (.cons rfl rfl (.inl rfl) .nil))
  exact .cons rfl rfl (.inl rfl) (.angles rfl hinner rfl hrest)

theorem typeArguments_exact_nested :
    let call : List Token := [⟨.opening .round, ⟨11, 12⟩⟩, ⟨.closing .round, ⟨12, 13⟩⟩]
    TypesAhead ⟨.operator "<", ⟨1, 2⟩⟩ (nestedTypes ++ ⟨.operator ">", ⟨10, 11⟩⟩ :: call)
        nestedTypes ⟨.operator ">", ⟨10, 11⟩⟩ call ∧
      readNamed ⟨fun _ _ => none, fun _ _ => none, fun _ _ _ => none⟩ "f" ⟨0, 1⟩
        ⟨1, ⟨.operator "<", ⟨1, 2⟩⟩ :: (nestedTypes ++ ⟨.operator ">", ⟨10, 11⟩⟩ :: call)⟩ =
          some (.call ⟨0, 13⟩ (.identifier ⟨0, 1⟩ "f")
            [.typeArgument ⟨2, 6⟩, .typeArgument ⟨8, 10⟩] [] none, ⟨13, []⟩) := by
  intro call
  have hlevel : 0 < (Lexeme.operator "<").angle := by decide
  have hreturns : Returns 1 (⟨.operator ">", ⟨10, 11⟩⟩ :: call) [] ⟨.operator ">", ⟨10, 11⟩⟩ call :=
    returns_nil_iff.2 ⟨rfl, rfl, rfl, by decide⟩
  have hahead : TypesAhead ⟨.operator "<", ⟨1, 2⟩⟩
      (nestedTypes ++ ⟨.operator ">", ⟨10, 11⟩⟩ :: call) (nestedTypes ++ [])
      ⟨.operator ">", ⟨10, 11⟩⟩ call := ⟨nested_nestedTypes.returns hlevel hreturns, rfl⟩
  rw [List.append_nil] at hahead
  refine ⟨hahead, ?_⟩
  rw [(typeArguments_exact.1 _ "f" ⟨0, 1⟩ _ _ rfl rfl).1 _ _ _ hahead]
  have hvalues : readValueArguments (fun _ _ => none) ⟨12, [⟨.closing .round, ⟨12, 13⟩⟩]⟩ =
      some ([], ⟨13, []⟩) := by
    simp [readValueArguments, Cursor.past]
  rw [readCallArguments, Cursor.past]
  dsimp only [call]
  rw [if_pos rfl, Cursor.past, hvalues]
  rfl

end StateDiagram
