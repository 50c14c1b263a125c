import Mathlib.Data.Set.List
import StateDiagram.Proofs.Evaluation
import StateDiagram.Proofs.Inscription
import StateDiagram.Proofs.Limit

namespace StateDiagram

set_option autoImplicit true

open Layout Text

namespace Chain

theorem info_foldl (names : List Identifier) {part : Inscription}
    (h : part.tree.info = part.layout.text) :
    (names.foldl step part).tree.info = (names.foldl step part).layout.text := by
  induction names generalizing part with
  | nil => exact h
  | cons name names ih => exact ih rfl

theorem quiet_foldl (names : List Identifier) {part : Inscription}
    (h : part.tree.opensLevel = false ∧ part.tree.Quiet n) :
    (names.foldl step part).tree.opensLevel = false ∧ (names.foldl step part).tree.Quiet n := by
  induction names generalizing part with
  | nil => exact h
  | cons name names ih =>
    refine ih ⟨rfl, .of_flat ?_ fun child hm => ?_⟩
    · simp [step, Node.placed, Node.map, Builder.ofNode?, Identifier.tree]
    · simp only [step, Node.children, List.mem_cons, List.not_mem_nil, or_false] at hm
      rcases hm with rfl | rfl
      · exact h
      · exact ⟨rfl, .identifier name⟩

theorem quiet (chain : Chain) : chain.tree.Quiet n :=
  (quiet_foldl chain.rest ⟨rfl, .identifier chain.first⟩).2

theorem info_tree (chain : Chain) : chain.tree.info = chain.text := by
  have hi : chain.tree.info = chain.layout.text := by
    refine info_foldl chain.rest ?_
    rw [Layout.text, chars_cons, chars_nil, List.append_nil, Identifier.chars_piece,
      String.ofList_toList]
    rfl
  rw [hi, text_eq chain.chars_layout]

theorem tree_cases (chain : Chain) : (∃ name : Identifier, chain.tree = name.tree) ∨
    ∃ text receiver selector, chain.tree = .memberAccess text receiver selector false := by
  obtain ⟨first, rest⟩ := chain
  rcases List.eq_nil_or_concat rest with rfl | ⟨names, name, rfl⟩
  · exact .inl ⟨first, rfl⟩
  · have ht : tree ⟨first, names.concat name⟩ = (step (inscription ⟨first, names⟩) name).tree := by
      rw [tree, inscription, List.concat_eq_append, List.foldl_append]
      rfl
    exact .inr ⟨_, _, _, ht⟩

theorem unquoted_tree (chain : Chain) : SyntaxTree.unquoted chain.tree.placed = chain.text := by
  have hi : chain.tree.placed.info.text = chain.text := by
    rw [Node.placed, Node.info_map, info_tree]
    rfl
  rcases chain.tree_cases with ⟨name, ht⟩ | ⟨text, receiver, selector, ht⟩ <;>
    · rw [ht] at hi ⊢
      simpa [Node.placed, Node.map, SyntaxTree.unquoted, Identifier.tree] using hi

theorem toTarget_tree (chain : Chain) (event : String) :
    Transition.toTarget event chain.tree.placed = { event, target := chain.text } := by
  have hu := chain.unquoted_tree
  rcases chain.tree_cases with ⟨name, ht⟩ | ⟨text, receiver, selector, ht⟩ <;>
    · rw [ht] at hu ⊢
      rw [← hu]
      simp [Node.placed, Node.map, Transition.toTarget, Identifier.tree]

end Chain

namespace NameScript

theorem readsHead (name : NameScript) :
    ReadsHead n name.inscription.layout name.inscription.tree := by
  cases name with
  | quoted plain => exact .string plain
  | bare chain => exact chain.readsHead

theorem readsArgument (name : NameScript) :
    ReadsArgument (n + 1) name.inscription.layout name.inscription.tree := by
  refine ⟨?_, name.readsHead.expression⟩
  cases name with
  | quoted plain => exact ⟨_, _, rfl, ⟨nofun, nofun, rfl⟩, nofun⟩
  | bare chain =>
    obtain ⟨first, rest⟩ := chain
    have hl : NameScript.inscription (.bare ⟨first, rest⟩) = Chain.inscription ⟨first, rest⟩ := rfl
    have hw := Chain.layout_eq ⟨first, rest⟩
    rw [Chain.layout] at hw
    rw [hl, hw]
    refine ⟨.identifier first.text, _, rfl, ⟨nofun, nofun, rfl⟩, ?_⟩
    have hn : some (Lexeme.operator ".") ≠ some (.operator "=") := by decide
    cases rest with
    | nil => exact fun h => by cases h
    | cons next rest => exact hn

theorem unquoted_tree (name : NameScript) :
    SyntaxTree.unquoted name.inscription.tree.placed = name.text := by
  cases name with
  | quoted plain =>
    simp [inscription, PlainText.tree, Node.placed, Node.map, SyntaxTree.unquoted, text]
  | bare chain => exact chain.unquoted_tree

theorem toTarget_tree (name : NameScript) (event : String) :
    Transition.toTarget event name.inscription.tree.placed = { event, target := name.text } := by
  cases name with
  | quoted plain =>
    simp [inscription, PlainText.tree, Node.placed, Node.map, Transition.toTarget,
      SyntaxTree.unquoted, text]
  | bare chain => exact chain.toTarget_tree event

theorem quiet (name : NameScript) : name.inscription.tree.Quiet n := by
  cases name with
  | quoted plain => exact .leaf (Node.ofNode?_placed nofun) rfl
  | bare chain => exact chain.quiet

end NameScript

theorem ReadsName.statement {callee : Identifier} (h : ReadsName n (callee.piece :: f) tree) :
    ReadsStatement (n + 1) (callee.piece :: f) tree :=
  h.head.expression.statement rfl rfl

theorem ReadsName.bareLambda (callee : Identifier) {body : Inscription}
    (h : ReadsLambda n body.layout body.tree) :
    ReadsName n (Inscription.heading callee [] [] [] body).layout
      (Inscription.heading callee [] [] [] body).tree :=
  .lambda callee .nil h

theorem ReadsName.arguments (callee : Identifier) (h : ReadsValues n f values) :
    ReadsName n (Inscription.call callee f values).layout (Inscription.call callee f values).tree :=
  .call callee .nil h.arguments

namespace HeadingScript

theorem reads (script : HeadingScript) (callee : Identifier) {body : Inscription}
    (h : ReadsLambda (n + 1) body.layout body.tree) :
    ReadsName (n + 1) (script.inscription callee body).layout
      (script.inscription callee body).tree := by
  cases script with
  | named name => exact .callLambda callee .nil (ReadsValues.last name.readsArgument).arguments h
  | typed chain => exact .lambda callee (.chain chain) h

theorem declaredName?_eq (script : HeadingScript) (callee : String)
    (trailing : Option SyntaxTree) :
    BuilderCall.declaredName? ⟨callee, script.types.map Node.placed,
      script.values.map Node.placed, trailing⟩ = some script.text := by
  cases script with
  | named name =>
    have ha : name.inscription.argument.placed.argumentExpression =
        name.inscription.tree.placed := by
      simp [Inscription.argument, Node.placed, Node.map, Node.argumentExpression]
    simp [types, values, BuilderCall.declaredName?, BuilderCall.argument?, ha, name.unquoted_tree,
      text]
  | typed chain =>
    have hi : (Node.typeArgument chain.layout.text).placed.info.text = chain.text := by
      rw [Node.placed, Node.info_map, Node.info]
      exact text_eq chain.chars_layout
    simp [types, BuilderCall.declaredName?, hi, text]

theorem quiet (script : HeadingScript) (callee : Identifier) {body : Inscription}
    (h : body.tree.Quiet (n + 1)) : (script.inscription callee body).tree.Quiet (n + 2) := by
  have hb : ∀ lambda ∈ some body.tree, lambda.Quiet (n + 1) := by
    intro lambda hl
    cases hl
    exact h
  cases script with
  | named name =>
    exact .call [] (List.forall_mem_singleton.2 (.valueArgument name.quiet)) hb
  | typed chain => exact .call [chain.layout.text] (List.forall_mem_nil _) hb

end HeadingScript

namespace ArgumentScript

theorem readsArgument (script : ArgumentScript) :
    ReadsArgument (n + 1) script.inscription.layout script.inscription.tree := by
  cases script with
  | identifier name =>
    exact ⟨⟨_, _, rfl, ⟨nofun, nofun, rfl⟩, nofun⟩, (ReadsName.bare name).head.expression⟩
  | number numeral =>
    exact ⟨⟨_, _, rfl, ⟨nofun, nofun, rfl⟩, nofun⟩, (ReadsHead.number numeral).expression⟩

theorem quiet (script : ArgumentScript) : script.inscription.tree.Quiet n := by
  cases script with
  | identifier name => exact .identifier name
  | number numeral => exact .leaf (Node.ofNode?_placed nofun) rfl

theorem text_layout (script : ArgumentScript) : script.inscription.layout.text = script.text :=
  text_eq script.chars_inscription

end ArgumentScript

theorem readsValues_argumentsLayout (first : ArgumentScript) (rest : List ArgumentScript) :
    ReadsValues (n + 1) (argumentsLayout first rest)
      ((first :: rest).map fun argument => argument.inscription.argument) := by
  induction rest generalizing first with
  | nil => exact .last first.readsArgument
  | cons second rest ih => exact .cons first.readsArgument (ih second)

namespace TargetScript

theorem readsArgument (script : TargetScript) :
    ReadsArgument (n + 2) script.inscription.layout script.inscription.tree := by
  cases script with
  | plain name => exact name.readsArgument
  | call function first rest =>
    have hr := ReadsName.arguments (n := n + 1) function (readsValues_argumentsLayout first rest)
    exact ⟨⟨_, _, rfl, ⟨nofun, nofun, rfl⟩, nofun⟩, hr.head.expression⟩

theorem toTarget_tree (script : TargetScript) (event : String) :
    Transition.toTarget event script.inscription.tree.placed =
      { event, target := script.text, arguments := script.arguments } := by
  cases script with
  | plain name => exact name.toTarget_tree event
  | call function first rest =>
    have ha (argument : ArgumentScript) :
        argument.inscription.argument.placed.info.text = argument.text := by
      rw [Inscription.argument, Node.placed, Node.info_map, Node.info]
      exact argument.text_layout
    rw [inscription, Inscription.call, Node.placed, Node.map_call, Transition.toTarget,
      List.map_map, List.map_map]
    have hm := List.map_congr_left fun argument (_ : argument ∈ first :: rest) => ha argument
    have hf : (function.tree.map Place.ofText).info.text = function.text := by
      rw [Node.info_map]
      rfl
    rw [hf]
    exact congrArg (fun arguments => Transition.mk event function.text arguments none []) hm

theorem quiet (script : TargetScript) : script.inscription.tree.Quiet (n + 2) := by
  cases script with
  | plain name => exact name.quiet
  | call function first rest =>
    refine .call [] (List.forall_mem_map.2 fun argument _ => ?_) nofun
    exact .valueArgument argument.quiet

end TargetScript

theorem ReadsStatement.inline {line : Inscription} (h : ReadsStatement n line.layout line.tree)
    (hn : Neat [' '] line.layout) : ReadsLambda (n + 1) line.inline.layout line.inline.tree :=
  .inline h (noParameters_of_not_mem (Neat.space (neat_append.2 ⟨hn, Neat.nil.space⟩)).arrow)

namespace TransitionScript

theorem readsValues (script : TransitionScript) : ReadsValues (n + 2) script.movesLayout
    (script.target.inscription.argument ::
      (script.sideEffect.map fun name => name.inscription.argument).toList) := by
  obtain ⟨event, target, sideEffect⟩ := script
  cases sideEffect with
  | none => exact .last target.readsArgument
  | some name => exact .cons target.readsArgument (.last name.readsArgument)

theorem readsMove (script : TransitionScript) :
    ReadsStatement (n + 3) script.move.layout script.move.tree :=
  (ReadsName.arguments Word.transitionTo script.readsValues).statement

theorem reads (script : TransitionScript) :
    ReadsStatement (n + 5) script.inscription.layout script.inscription.tree :=
  (script.event.reads Word.on (script.readsMove.inline (script.closed_move _))).statement

theorem transition?_move (script : TransitionScript) (state event : String) :
    (BuilderCall.all [script.move.tree.placed]).filterMap (·.transition? state event) =
      [{ script.transition with event }] := by
  obtain ⟨_, target, sideEffect⟩ := script
  have ha (line : Inscription) : line.argument.placed.argumentExpression = line.tree.placed := by
    simp [Inscription.argument, Node.placed, Node.map, Node.argumentExpression]
  have hc (heading : HeadingScript) :
      BuilderCall.ofNode? (move ⟨heading, target, sideEffect⟩).tree.placed =
        some ⟨"transitionTo", [], (target.inscription.argument ::
          (sideEffect.map fun name => name.inscription.argument).toList).map Node.placed, none⟩ :=
    BuilderCall.ofNode?_placed ..
  cases sideEffect with
  | none =>
    simp [BuilderCall.all, hc, BuilderCall.transition?, BuilderCall.argument?, ha,
      target.toTarget_tree, transition]
  | some name =>
    simp [BuilderCall.all, hc, BuilderCall.transition?, BuilderCall.argument?, ha,
      target.toTarget_tree, name.unquoted_tree, transition]

theorem quiet_move (script : TransitionScript) : script.move.tree.Quiet 4 := by
  refine .call [] (List.forall_mem_cons.2 ⟨.valueArgument script.target.quiet, ?_⟩) nofun
  intro value hm
  obtain ⟨name, _, rfl⟩ := Option.map_eq_some_iff.1 (Option.mem_toList.1 hm)
  exact .valueArgument name.quiet

theorem quiet (script : TransitionScript) : script.inscription.tree.Quiet 7 :=
  script.event.quiet Word.on (.lambda (.block (List.forall_mem_singleton.2 script.quiet_move)))

end TransitionScript

/-- The tree is a call that changes a state. -/
def Changes (limit depth : Nat) (tree : Node String) (change : State → State) : Prop :=
  ∃ call, BuilderCall.ofNode? tree.placed = some call ∧
    ∀ state, State.extend limit depth state call = .ok (change state)

theorem State.extend_on {call : BuilderCall} {state : State} {transitions : List Transition}
    (hc : call.name = "on")
    (he : call.declaredName? = some event) (hb : call.body? = some handler)
    (hh : handlerTransitions limit (depth + 1) state.name event handler = .ok transitions) :
    State.extend limit depth state call =
      .ok { state with transitions := state.transitions ++ transitions } := by
  rw [State.extend, hc, he, hb]
  dsimp only
  rw [hh]
  rfl

def Crossing.callee : Crossing → Identifier
  | enter => Word.onEnter
  | exit => Word.onExit

theorem State.extend_crossing {call : BuilderCall} {state : State} {crossing : Crossing}
    (hc : call.name = crossing.callee.text) (hb : call.body? = some block) :
    State.extend limit depth state call = .ok (crossing.add [block.info.text] state) := by
  cases crossing <;> rw [State.extend, hc, hb] <;> rfl

theorem changes_handler {event : String} {types values : List (Node String)} {move : Inscription}
    {transition : Transition}
    (hn : ∀ trailing, BuilderCall.declaredName? ⟨Word.on.text, types.map Node.placed,
      values.map Node.placed, trailing⟩ = some event)
    (hm : ∀ state, (BuilderCall.all [move.tree.placed]).filterMap (·.transition? state event) =
      [transition])
    (hd : depth + 1 ≤ limit) (layout : Layout) :
    Changes limit depth (Inscription.heading Word.on layout types values move.inline).tree
      fun state => { state with transitions := state.transitions ++ [transition] } := by
  refine ⟨_, BuilderCall.ofNode?_placed .., fun state => ?_⟩
  have hb : BuilderCall.body? ⟨Word.on.text, types.map Node.placed, values.map Node.placed,
      some move.inline.tree.placed⟩ = some (Node.block move.layout.text [move.tree]).placed := by
    simp [BuilderCall.body?, Inscription.inline, Node.placed, Node.map, Node.lambdaBody?]
  have hs : (Node.block move.layout.text [move.tree]).placed.statements = [move.tree.placed] := by
    simp [Node.placed, Node.map, Node.statements]
  have hh : handlerTransitions limit (depth + 1) state.name event
      (Node.block move.layout.text [move.tree]).placed = .ok [transition] := by
    rw [handlerTransitions, checkDepth, if_pos hd, hs, hm]
    rfl
  exact State.extend_on rfl (hn _) hb hh

theorem TransitionScript.changes (script : TransitionScript) (hd : depth + 1 ≤ limit) :
    Changes limit depth script.inscription.tree fun state =>
      { state with transitions := state.transitions ++ [script.transition] } :=
  changes_handler (script.event.declaredName?_eq Word.on.text)
    (fun state => script.transition?_move state script.event.text) hd script.event.layout

namespace PlainText

variable (callee : Identifier) (plain : PlainText)

theorem readsStatement : ReadsStatement (n + 1) [plain.piece] plain.tree :=
  (ReadsHead.string plain).expression.statement rfl rfl

theorem readsAction :
    ReadsStatement (n + 3) (plain.action callee).layout (plain.action callee).tree := by
  have hl : ReadsLambda (n + 2) (Inscription.mk [plain.piece] plain.tree).inline.layout
      (Inscription.mk [plain.piece] plain.tree).inline.tree :=
    plain.readsStatement.inline (plain.neat (.cons (by decide)) .nil)
  exact (ReadsName.bareLambda callee hl).statement

theorem quiet_action : (plain.action callee).tree.Quiet 3 := by
  refine .call [] (List.forall_mem_nil _) fun lambda hl => ?_
  cases hl
  exact .lambda (.block (List.forall_mem_singleton.2 (.leaf (Node.ofNode?_placed nofun) rfl)))

theorem body?_action : BuilderCall.body? ⟨callee.text, [], [],
    some (Inscription.mk [plain.piece] plain.tree).inline.tree.placed⟩ =
      some (Node.block (Layout.text [plain.piece]) [plain.tree]).placed := by
  simp [BuilderCall.body?, Inscription.inline, Node.placed, Node.map, Node.lambdaBody?]

theorem info_action : (Node.block (Layout.text [plain.piece]) [plain.tree]).placed.info.text =
    plain.quoted := by
  rw [Node.placed, Node.info_map]
  exact text_eq (List.append_nil plain.quoted.toList)

theorem changes_action (crossing : Crossing) :
    Changes limit depth (plain.action crossing.callee).tree (crossing.add [plain.quoted]) := by
  refine ⟨_, BuilderCall.ofNode?_placed .., fun state => ?_⟩
  rw [← plain.info_action]
  exact State.extend_crossing rfl (plain.body?_action crossing.callee)

end PlainText

namespace StateScript

theorem reads_inscriptions (script : StateScript) : ∀ line ∈ script.inscriptions,
    ReadsStatement (n + 5) line.layout line.tree :=
  script.forall_mem_inscriptions (·.reads) (·.readsAction Word.onEnter) (·.readsAction Word.onExit)

theorem quiet_inscriptions (script : StateScript) : ∀ line ∈ script.inscriptions,
    line.tree.Quiet 7 :=
  script.forall_mem_inscriptions (·.quiet)
    (fun plain => (plain.quiet_action Word.onEnter).mono (by decide))
    (fun plain => (plain.quiet_action Word.onExit).mono (by decide))

def fill (limit depth : Nat) (lines : List Inscription) (state : State) : Except Fault State :=
  (BuilderCall.all ((lines.map Inscription.tree).map Node.placed)).foldlM (State.extend limit depth)
    state

theorem fill_append (limit depth : Nat) (front back : List Inscription) (state : State) :
    fill limit depth (front ++ back) state =
      fill limit depth front state >>= fill limit depth back := by
  rw [fill, List.map_append, List.map_append, BuilderCall.all, List.filterMap_append,
    List.foldlM_append]
  rfl

/-- What each of the lines adds to the state is gathered in their order. -/
theorem fill_gathers {values : List α} {line : α → Inscription} {item : α → β}
    {g : List β → State → State} (hnil : ∀ state, g [] state = state)
    (happend : ∀ front back state, g back (g front state) = g (front ++ back) state)
    (h : ∀ value ∈ values, Changes limit depth (line value).tree (g [item value]))
    (state : State) :
    fill limit depth (values.map line) state = .ok (g (values.map item) state) := by
  induction values generalizing state with
  | nil => exact congrArg Except.ok (hnil state).symm
  | cons value values ih =>
    obtain ⟨⟨call, hc, hs⟩, h⟩ := List.forall_mem_cons.1 h
    have ih := ih h (g [item value] state)
    rw [happend] at ih
    rw [fill, BuilderCall.all] at ih ⊢
    rw [List.map_cons, List.map_cons, List.map_cons, List.filterMap_cons_some hc, List.foldlM_cons,
      hs]
    exact ih

theorem fill_handlers {values : List α} {line : α → Inscription} {transition : α → Transition}
    (h : ∀ value ∈ values, Changes limit depth (line value).tree fun state =>
      { state with transitions := state.transitions ++ [transition value] }) (state : State) :
    fill limit depth (values.map line) state =
      .ok { state with transitions := state.transitions ++ values.map transition } :=
  fill_gathers (g := fun items state =>
      { state with transitions := state.transitions ++ items })
    (fun _ => by rw [List.append_nil]) (fun _ _ _ => by rw [List.append_assoc]) h state

theorem fill_actions (limit depth : Nat) (crossing : Crossing) (plains : List PlainText)
    (state : State) :
    fill limit depth (plains.map (PlainText.action crossing.callee)) state =
      .ok (crossing.add (plains.map PlainText.quoted) state) :=
  fill_gathers (g := crossing.add) crossing.add_nil crossing.add_add
    (fun plain _ => plain.changes_action crossing) state

theorem fill_inscriptions (script : StateScript) (hd : depth + 1 ≤ limit) :
    fill limit depth script.inscriptions { name := script.heading.text } = .ok script.state := by
  rw [inscriptions, fill_append, fill_handlers fun script _ => script.changes hd, bind_eq_ok]
  refine ⟨_, rfl, ?_⟩
  rw [fill_append, bind_eq_ok]
  exact ⟨_, fill_actions limit depth .enter script.onEnter _,
    fill_actions limit depth .exit script.onExit _⟩

theorem state?_eq (script : StateScript) (whole body : String) (hd : depth + 1 ≤ limit) :
    BuilderCall.state? limit depth ⟨Word.state.text, script.heading.types.map Node.placed,
      script.heading.values.map Node.placed, some (Node.lambda whole none
        (.block body (script.inscriptions.map Inscription.tree))).placed⟩ =
          .ok (some script.state) := by
  have hn := script.heading.declaredName?_eq Word.state.text (some (Node.lambda whole none
    (.block body (script.inscriptions.map Inscription.tree))).placed)
  have hb : BuilderCall.body? ⟨Word.state.text, script.heading.types.map Node.placed,
      script.heading.values.map Node.placed, some (Node.lambda whole none
        (.block body (script.inscriptions.map Inscription.tree))).placed⟩ =
      some (Node.block body (script.inscriptions.map Inscription.tree)).placed := by
    simp [BuilderCall.body?, Node.placed, Node.map, Node.lambdaBody?]
  have hs : (Node.block body (script.inscriptions.map Inscription.tree)).placed.statements =
      (script.inscriptions.map Inscription.tree).map Node.placed := by
    rw [Node.placed, Node.map, Node.statements]
    rfl
  have hf := script.fill_inscriptions hd
  rw [fill] at hf
  rw [BuilderCall.state?, checkDepth, if_pos (by omega), hn, hb]
  dsimp only
  rw [hs, hf]
  rfl

end StateScript

theorem blank_spaces (width : Nat) : Layout.Blank (List.replicate width .space) :=
  fun _ hm => .inl (List.eq_of_mem_replicate hm)

/-- Lines of their own in braces, where each of them ends by itself. -/
theorem ReadsLambda.indented {lines : List Inscription} (outer width : Nat)
    (h : ∀ line ∈ lines, ReadsStatement n line.layout line.tree)
    (hc : ∀ line ∈ lines, line.Closed) :
    ReadsLambda (n + 1)
      (Inscription.block (List.replicate width .space)
        (.word .lineBreak :: List.replicate outer .space) lines).layout
      (Inscription.block (List.replicate width .space)
        (.word .lineBreak :: List.replicate outer .space) lines).tree := by
  have hn : Neat [] (stack (List.replicate width .space) (lines.map Inscription.layout) ++
      .word .lineBreak :: List.replicate outer .space) :=
    Inscription.neat_stack (neat_spaces width) (neat_trail outer) hc
  exact .block (blank_spaces width) (blank_spaces outer).lineBreak h
    (noParameters_of_not_mem hn.arrow)

theorem BuilderCall.statement?_state {call : BuilderCall} (hc : call.name = "state")
    (hs : call.state? limit (depth + 1) = .ok (some state)) :
    call.statement? limit depth = .ok (some (.state state)) := by
  have hm : call.statement? limit depth = do
      let state ← call.state? limit (depth + 1)
      return state.map .state := by
    rw [statement?, hc]
    rfl
  rw [hm, hs]
  rfl

namespace StatementScript

theorem reads (width : Nat) (script : StatementScript) :
    ReadsStatement (n + 7) (script.inscription width).layout (script.inscription width).tree := by
  cases script with
  | initial name =>
    exact (ReadsName.arguments Word.initialState (.last name.readsArgument)).statement
  | state script =>
    have hl := ReadsLambda.indented width (width + width)
      (StateScript.reads_inscriptions (n := n) script) script.closed_inscriptions
    exact (script.heading.reads Word.state hl).statement

theorem quiet (width : Nat) (script : StatementScript) :
    (script.inscription width).tree.Quiet 10 := by
  cases script with
  | initial name =>
    exact .call [] (List.forall_mem_singleton.2 (.valueArgument name.quiet)) nofun
  | state script =>
    exact script.heading.quiet Word.state
      (.lambda (.block (List.forall_mem_map.2 script.quiet_inscriptions)))

theorem yields (width : Nat) (script : StatementScript) (hd : depth + 2 ≤ limit) :
    Yields limit depth (script.inscription width).tree (some script.statement) := by
  refine .inr ?_
  cases script with
  | initial name =>
    refine ⟨_, BuilderCall.ofNode?_placed .., ?_⟩
    have ha : name.inscription.argument.placed.argumentExpression =
        name.inscription.tree.placed := by
      simp [Inscription.argument, Node.placed, Node.map, Node.argumentExpression]
    simp [BuilderCall.statement?, Word.initialState, BuilderCall.argument?, ha, name.unquoted_tree,
      statement]
  | state script =>
    refine ⟨_, BuilderCall.ofNode?_placed .., ?_⟩
    exact BuilderCall.statement?_state rfl (script.state?_eq _ _ hd)

end StatementScript

/-- A builder reads as an access to the member that is called with the body. -/
theorem readsExpression_builder (h : ReadsLambda n f tree) :
    ReadsExpression (n + 1) (builderLayout ⟨f, tree⟩) (builderTree (builderLayout ⟨f, tree⟩).text
      (Inscription.heading Word.create [] [] [] ⟨f, tree⟩).layout.text tree) := by
  have hl : ReadsLambda n (Inscription.mk f tree).layout (Inscription.mk f tree).tree := h
  have hb := ReadsName.bareLambda Word.create hl
  exact (ReadsHead.member (ReadsName.bare Word.stateMachine).head hb).expression

theorem readsStatement_builder (h : ReadsLambda n f tree) :
    ReadsStatement (n + 1) (builderLayout ⟨f, tree⟩) (builderTree (builderLayout ⟨f, tree⟩).text
      (Inscription.heading Word.create [] [] [] ⟨f, tree⟩).layout.text tree) :=
  (readsExpression_builder h).statement rfl rfl

namespace MachineScript

theorem readsBody (width : Nat) (script : MachineScript) :
    ReadsLambda (n + 8) (script.body width).layout (script.body width).tree := by
  refine .indented 0 width (fun line hm => ?_) fun line hm => ?_
  · obtain ⟨statement, _, rfl⟩ := List.mem_map.1 hm
    exact statement.reads width
  · obtain ⟨statement, _, rfl⟩ := List.mem_map.1 hm
    exact statement.closed width

def tree (width : Nat) (script : MachineScript) : Node String :=
  builderTree (script.layout width).text
    (Inscription.heading Word.create [] [] [] (script.body width)).layout.text
    (script.body width).tree

theorem readsExpression (width : Nat) (script : MachineScript) :
    ReadsExpression (n + 9) (script.layout width) (script.tree width) :=
  readsExpression_builder (script.readsBody width)

theorem reads (width : Nat) (script : MachineScript) :
    ReadsStatement (n + 9) (script.layout width) (script.tree width) :=
  (script.readsExpression width).statement rfl rfl

theorem machinesAt_tree (width : Nat) (script : MachineScript) (hl : depth + 13 ≤ limit) :
    (script.tree width).placed.machinesAt limit depth = .ok [script.machine] := by
  have hb : (script.body width).tree = .lambda (script.body width).layout.text none
      (.block (Layout.text (core (List.replicate width .space)
        ((script.statements.map (StatementScript.inscription width)).map Inscription.layout)))
          (script.statements.map fun statement => (statement.inscription width).tree)) := by
    have hm : (script.statements.map (StatementScript.inscription width)).map Inscription.tree =
        script.statements.map fun statement => (statement.inscription width).tree :=
      List.map_map ..
    rw [← hm]
    rfl
  have hf : script.statements.filterMap (fun statement => some statement.statement) =
      script.statements.map StatementScript.statement :=
    congrFun List.filterMap_eq_map' _
  rw [tree, hb, machinesAt_builder (fun statement => some statement.statement) hl
    (fun statement _ => statement.quiet width)
    (fun statement _ => statement.yields width (by omega)), hf]
  rfl

end MachineScript

theorem readsFile_machinesLayout (width blank : Nat) (scripts : List MachineScript) :
    ReadsFile (n + 9) (machinesLayout width blank scripts)
      (scripts.map (MachineScript.tree width)) := by
  have hb : Layout.Blank (List.replicate blank (.word .lineBreak)) :=
    fun _ hm => .inr (List.eq_of_mem_replicate hm)
  cases scripts with
  | nil => exact .blank hb
  | cons script scripts =>
    have hs : ∀ line ∈ scripts.map fun script =>
        Inscription.mk (script.layout width) (script.tree width),
        ReadsStatement (n + 9) line.layout line.tree := by
      intro line hm
      obtain ⟨script, _, rfl⟩ := List.mem_map.1 hm
      exact script.reads width
    have hl : ReadsStatement (n + 9)
        (Inscription.mk (script.layout width) (script.tree width)).layout
        (Inscription.mk (script.layout width) (script.tree width)).tree := script.reads width
    have hr := (ReadsStatements.core .nil hl hs).file hb
    rw [List.map_map, List.map_map] at hr
    exact hr

theorem extractMachines_printMachines (width blank : Nat) (scripts : List MachineScript) :
    extractMachines {} (printMachines width blank scripts) =
      .ok (scripts.map MachineScript.machine) := by
  have hn := neat_machinesLayout width blank scripts
  rw [← text_machinesLayout]
  refine extractMachines_of_reads (readsFile_machinesLayout width blank scripts) hn.lexical hn.cr
    fun whole => machinesAt_file (fun script _ => ⟨rfl, ?_⟩) whole
  exact script.machinesAt_tree width (by decide)

/-- A transition that a script can declare. -/
structure Transition.Printable (transition : Transition) : Prop where
  event : Quotable transition.event
  plain : transition.arguments = [] → Quotable transition.target
  called : transition.arguments ≠ [] → ∃ name : Identifier, name.text = transition.target
  arguments : ∀ argument ∈ transition.arguments,
    (∃ name : Identifier, name.text = argument) ∨ ∃ numeral : Numeral, numeral.text = argument
  sideEffect : ∀ effect ∈ transition.sideEffect, Quotable effect
  conditions : transition.conditions = []

structure State.Printable (state : State) : Prop where
  name : Quotable state.name
  transitions : ∀ transition ∈ state.transitions, transition.Printable
  onEnter : ∀ action ∈ state.onEnter, ∃ plain : PlainText, plain.quoted = action
  onExit : ∀ action ∈ state.onExit, ∃ plain : PlainText, plain.quoted = action

def Statement.Printable : Statement → Prop
  | .initial name => Quotable name
  | .state declared => declared.Printable

def Machine.Printable (machine : Machine) : Prop :=
  ∀ statement ∈ machine.statements, statement.Printable

theorem exists_map_eq {f : α → β} {results : List β}
    (h : ∀ result ∈ results, ∃ value, f value = result) :
    ∃ values : List α, values.map f = results := by
  have hr : results ∈ Set.range (List.map f) := by
    rw [Set.range_list_map]
    exact h
  exact hr

theorem Quotable.exists_name {text : String} (h : Quotable text) :
    ∃ name : NameScript, name.text = text :=
  ⟨.quoted ⟨text, h⟩, rfl⟩

theorem Transition.Printable.exists_target {transition : Transition} (h : transition.Printable) :
    ∃ target : TargetScript, target.text = transition.target ∧
      target.arguments = transition.arguments := by
  have ha : ∀ argument ∈ transition.arguments,
      ∃ script : ArgumentScript, script.text = argument := by
    intro argument hm
    rcases h.arguments argument hm with ⟨name, hn⟩ | ⟨numeral, hn⟩
    · exact ⟨.identifier name, hn⟩
    · exact ⟨.number numeral, hn⟩
  obtain ⟨scripts, hs⟩ := exists_map_eq ha
  cases scripts with
  | nil =>
    obtain ⟨name, hn⟩ := (h.plain hs.symm).exists_name
    exact ⟨.plain name, hn, hs⟩
  | cons first rest =>
    have hne : transition.arguments ≠ [] := by
      rw [← hs]
      exact List.cons_ne_nil _ _
    obtain ⟨function, hf⟩ := h.called hne
    exact ⟨.call function first rest, hf, hs⟩

theorem Transition.Printable.exists_script {transition : Transition} (h : transition.Printable) :
    ∃ script : TransitionScript, script.transition = transition := by
  obtain ⟨target, ht, ha⟩ := h.exists_target
  have hs : ∃ name : Option NameScript, name.map NameScript.text = transition.sideEffect := by
    cases hs : transition.sideEffect with
    | none => exact ⟨none, rfl⟩
    | some effect =>
      obtain ⟨name, hn⟩ := (h.sideEffect effect hs).exists_name
      exact ⟨some name, congrArg some hn⟩
  obtain ⟨sideEffect, hs⟩ := hs
  refine ⟨⟨.named (.quoted ⟨transition.event, h.event⟩), target, sideEffect⟩, ?_⟩
  obtain ⟨event, _, _, _, conditions⟩ := transition
  obtain rfl : conditions = [] := h.conditions
  subst ht ha hs
  rfl

theorem State.Printable.exists_script {state : State} (h : state.Printable) :
    ∃ script : StateScript, script.state = state := by
  have ht : ∃ scripts : List TransitionScript,
      scripts.map TransitionScript.transition = state.transitions :=
    exists_map_eq fun transition hm => (h.transitions transition hm).exists_script
  obtain ⟨transitions, ht⟩ := ht
  obtain ⟨onEnter, hn⟩ := exists_map_eq h.onEnter
  obtain ⟨onExit, hx⟩ := exists_map_eq h.onExit
  refine ⟨⟨.named (.quoted ⟨state.name, h.name⟩), transitions, onEnter, onExit⟩, ?_⟩
  obtain ⟨name, _, _, _⟩ := state
  subst ht hn hx
  rfl

theorem Statement.Printable.exists_script {statement : Statement} (h : statement.Printable) :
    ∃ script : StatementScript, script.statement = statement := by
  cases statement with
  | initial name =>
    obtain ⟨script, hs⟩ := Quotable.exists_name h
    exact ⟨.initial script, congrArg Statement.initial hs⟩
  | state declared =>
    obtain ⟨script, hs⟩ := State.Printable.exists_script h
    exact ⟨.state script, congrArg Statement.state hs⟩

theorem Machine.Printable.exists_script {machine : Machine} (h : machine.Printable) :
    ∃ script : MachineScript, script.machine = machine := by
  have hs : ∃ scripts : List StatementScript,
      scripts.map StatementScript.statement = machine.statements :=
    exists_map_eq fun statement hm => (h statement hm).exists_script
  obtain ⟨statements, hs⟩ := hs
  exact ⟨⟨statements⟩, congrArg Machine.mk hs⟩

/-- Machines that are printed in any way are found again. -/
theorem extractMachines_of_printed {machines : List Machine}
    (h : ∀ machine ∈ machines, machine.Printable) :
    (∃ scripts : List MachineScript, scripts.map MachineScript.machine = machines) ∧
      ∀ scripts : List MachineScript, scripts.map MachineScript.machine = machines →
        ∀ width blank, extractMachines {} (printMachines width blank scripts) = .ok machines := by
  refine ⟨exists_map_eq fun machine hm => (h machine hm).exists_script, ?_⟩
  rintro scripts rfl width blank
  exact extractMachines_printMachines width blank scripts

def lamp : Machine where
  statements := [.state {
    name := "Off (0)"
    transitions := [{
      event := "Press.Long", target := "Lit", arguments := ["9"], sideEffect := some "log it" }]
    onEnter := ["\"wait\""] }]

theorem printable_lamp : lamp.Printable := by
  have ht : Transition.Printable {
      event := "Press.Long", target := "Lit", arguments := ["9"], sideEffect := some "log it" } := {
    event := by decide
    plain := nofun
    called := fun _ => ⟨⟨"Lit", by decide⟩, rfl⟩
    arguments := List.forall_mem_singleton.2 (.inr ⟨⟨"9", by decide, rfl⟩, rfl⟩)
    sideEffect := by
      rintro _ ⟨⟩
      decide
    conditions := rfl }
  exact List.forall_mem_singleton.2 ⟨by decide, List.forall_mem_singleton.2 ht,
    List.forall_mem_singleton.2 ⟨⟨"wait", by decide⟩, rfl⟩, List.forall_mem_nil _⟩

/-- The name is quoted, and the event is a type argument. -/
def lampScript : MachineScript where
  statements := [.state {
    heading := .named (.quoted ⟨"Off (0)", by decide⟩)
    transitions := [{
      event := .typed
        ⟨⟨"Press", by decide⟩, [⟨"Long", by decide⟩]⟩
      target := .call ⟨"Lit", by decide⟩
        (.number ⟨"9", by decide, rfl⟩) []
      sideEffect := some (.quoted ⟨"log it", by decide⟩) }]
    onEnter := [⟨"wait", by decide⟩]
    onExit := [] }]

theorem extractMachines_of_printed_lamp :
    printMachines 2 1 [lampScript] =
      "StateMachine.create \x7b\n" ++
      "  state(\"Off (0)\") \x7b\n" ++
      "    on<Press.Long> \x7b transitionTo(Lit(9), \"log it\") \x7d\n" ++
      "    onEnter \x7b \"wait\" \x7d\n" ++
      "  \x7d\n" ++
      "\x7d\n" ∧
    extractMachines {} (printMachines 2 1 [lampScript]) = .ok [lamp] := by
  have hp : ∀ machine ∈ [lamp], machine.Printable := List.forall_mem_singleton.2 printable_lamp
  exact ⟨by decide +kernel, (extractMachines_of_printed hp).2 [lampScript] rfl 2 1⟩

end StateDiagram
