import StateDiagram.Proofs.Coverage
import StateDiagram.Proofs.Provenance

namespace StateDiagram

set_option autoImplicit true

open Text

namespace Text

theorem takeBytes_prefix_chars (n : Nat) (cs : List Char) : takeBytes n cs <+: cs := by
  fun_induction takeBytes n cs with
  | case1 => exact List.prefix_rfl
  | case2 _ c _ _ ih => exact (List.prefix_cons_inj c).2 ih
  | case3 => exact List.nil_prefix

theorem dropBytes_suffix (n : Nat) (cs : List Char) : dropBytes n cs <:+ cs := by
  fun_induction dropBytes n cs with
  | case1 | case2 => exact List.suffix_rfl
  | case3 _ c cs _ ih => exact ih.trans (List.suffix_cons c cs)

theorem slice_infix_chars (start stop : Nat) (cs : List Char) : slice start stop cs <:+: cs :=
  (takeBytes_prefix_chars _ _).isInfix.trans (dropBytes_suffix start cs).isInfix

theorem StandsAt.isInfix {cs text : List Char} (h : StandsAt cs start text) : text <:+: cs := by
  obtain ⟨before, after, rfl, _⟩ := h
  rw [← List.append_assoc]
  exact List.infix_append ..

end Text

theorem stringContent_infix_text (text : String) :
    (stringContent text).toList <:+: text.toList := by
  rw [stringContent, String.toList_ofList]
  exact (List.take_prefix _ _).isInfix.trans (List.drop_suffix _ _).isInfix

theorem bareName_infix_text (text : String) : (bareName text).toList <:+: text.toList := by
  rw [bareName, String.toList_ofList]
  have hs := List.dropWhile_suffix (l := text.toList) (· == '\x60')
  have hp := List.dropWhile_suffix (l := (text.toList.dropWhile (· == '\x60')).reverse)
    (· == '\x60')
  rw [← List.reverse_prefix, List.reverse_reverse] at hp
  exact hp.isInfix.trans hs.isInfix

namespace Source

variable {source : Source} {tree : SyntaxTree} {outline : Outline} {text : String}

theorem slice_infix_chars (source : Source) (span : Span) :
    (source.slice span).toList <:+: source.text := by
  rw [slice, String.toList_ofList]
  exact Text.slice_infix_chars ..

theorem token_infix_chars (h : token ∈ source.tokens) :
    token.lexeme.text.toList <:+: source.text :=
  ((tiling_scan 0 source.text).standsAt [] rfl token h).2.1.isInfix

/-- The content of a string stands between the quotes of a token. -/
theorem exists_string (h : source.outline? limit = some outline)
    (hm : .stringLiteral span content ∈ outline.preorder) :
    ∃ token ∈ source.tokens, ∃ text, token.lexeme = .string text ∧
      content = stringContent text := by
  obtain ⟨⟨lexeme, place⟩, ht, hmarks⟩ := exists_mark h hm rfl rfl
  refine ⟨_, ht, ?_⟩
  cases Lexeme.marking (Bool.and_eq_true_iff.1 hmarks).1 with
  | string => exact ⟨_, rfl, rfl⟩

theorem infix_of_identifier (h : source.outline? limit = some outline)
    (hm : .identifier span name ∈ outline.preorder) : name.toList <:+: source.text := by
  obtain ⟨⟨lexeme, place⟩, ht, hmarks⟩ := exists_mark h hm rfl rfl
  have htext := token_infix_chars ht
  cases Lexeme.marking (Bool.and_eq_true_iff.1 hmarks).1 with
  | identifier => exact (bareName_infix_text _).trans htext

/-- The texts of a tree stand in the source, with and without the quotes of strings. -/
theorem infix_of_mem_texts (h : source.parse limit = .ok tree) (ht : text ∈ tree.texts) :
    text.toList <:+: source.text := by
  obtain ⟨outline, ho, rfl⟩ := parse_eq_ok_iff.1 h
  obtain ⟨node, hn, ht⟩ := SyntaxTree.mem_texts.1 ht
  rw [Node.preorder_map] at hn
  obtain ⟨inner, hi, rfl⟩ := List.mem_map.1 hn
  have hplace (he : text = (inner.map source.locate).info.text) :
      text.toList <:+: source.text := by
    rw [he, Node.info_map]
    exact source.slice_infix_chars inner.info
  rcases ht with ht | ht
  · exact hplace ht
  · cases inner with
    | stringLiteral span content =>
      obtain ⟨token, hm, raw, hl, rfl⟩ := exists_string ho hi
      rw [Node.map, SyntaxTree.unquoted] at ht
      have hraw := token_infix_chars hm
      rw [hl, Lexeme.text] at hraw
      rw [ht]
      exact (stringContent_infix_text raw).trans hraw
    | call info callee types values trailing =>
      rw [Node.map_call] at hplace ht
      exact hplace ht
    | _ =>
      simp only [Node.map] at hplace ht
      exact hplace ht

end Source

/-- A call in the handler of an event. -/
structure Move where
  event : String
  call : BuilderCall

def Move.transition? (state : String) (move : Move) : Option Transition :=
  move.call.transition? state move.event

namespace BuilderCall

def handled (call : BuilderCall) : List Move :=
  match call.name, call.declaredName?, call.body? with
  | "on", some event, some handler => (all handler.statements).map (Move.mk event)
  | _, _, _ => []

def moves (call : BuilderCall) : List Move :=
  call.body?.toList.flatMap fun body => (all body.statements).flatMap handled

end BuilderCall

/-- The state is the one that a call of the builder language declares. -/
structure State.DeclaredBy (state : State) (call : BuilderCall) : Prop where
  call_eq : call.name = "state"
  name_eq : call.declaredName? = some state.name
  /-- The transitions are those that the calls in the handlers declare. -/
  transitions_eq : state.transitions = call.moves.filterMap (Move.transition? state.name)
  /-- Staying is a transition of its own, which leads to the state itself. -/
  stays : ∀ move ∈ call.moves, move.call.name = "dontTransition" →
    ∃ transition ∈ state.transitions, move.transition? state.name = some transition ∧
      transition.event = move.event ∧ transition.target = state.name ∧ transition.arguments = []

theorem extended_name (state : State) (call : BuilderCall) :
    (state.extended call).name = state.name := by
  rw [State.extended]
  split <;> rfl

theorem extended_transitions (state : State) (call : BuilderCall) :
    (state.extended call).transitions =
      state.transitions ++ call.handled.filterMap (Move.transition? state.name) := by
  rw [State.extended, BuilderCall.handled]
  split
  · next event handler hn he hb =>
    simp only [hn, he, hb, List.filterMap_map]
    rfl
  · next hn _ => simp [hn]
  · next hn _ => simp [hn]
  · next hon =>
    split
    · next hn he hb => exact (hon _ _ hn he hb).elim
    · exact (List.append_nil _).symm

theorem foldl_extended_name (calls : List BuilderCall) (state : State) :
    (calls.foldl State.extended state).name = state.name := by
  induction calls generalizing state with
  | nil => rfl
  | cons call calls ih => rw [List.foldl_cons, ih, extended_name]

theorem foldl_extended_transitions (calls : List BuilderCall) (state : State) :
    (calls.foldl State.extended state).transitions = state.transitions ++
      (calls.flatMap BuilderCall.handled).filterMap (Move.transition? state.name) := by
  induction calls generalizing state with
  | nil => exact (List.append_nil _).symm
  | cons call calls ih =>
    rw [List.foldl_cons, ih, extended_name, extended_transitions, List.flatMap_cons,
      List.filterMap_append, List.append_assoc]

theorem Move.transition?_stay {move : Move} (h : move.call.name = "dontTransition")
    (state : String) : ∃ transition, move.transition? state = some transition ∧
      transition.event = move.event ∧ transition.target = state ∧ transition.arguments = [] := by
  rw [transition?, BuilderCall.transition?, h]
  exact ⟨_, rfl, rfl, rfl, rfl⟩

theorem conditions_of_transition? {call : BuilderCall} {transition : Transition}
    (h : call.transition? state event = some transition) : transition.conditions = [] := by
  rw [BuilderCall.transition?] at h
  split at h
  · obtain ⟨target, _, rfl⟩ := Option.map_eq_some_iff.1 h
    cases target <;> rfl
  · cases h
    rfl
  · cases h

theorem BuilderCall.declares {call : BuilderCall} {state : State} (hn : call.name = "state")
    (h : call.declaredState? = some state) : state.DeclaredBy call := by
  obtain ⟨name, hname, hs⟩ := Option.map_eq_some_iff.1 h
  have hstate : state.name = name ∧
      state.transitions = call.moves.filterMap (Move.transition? name) := by
    rw [← hs, moves]
    cases call.body? with
    | none => exact ⟨rfl, rfl⟩
    | some body =>
      rw [Option.toList_some, List.flatMap_singleton]
      exact ⟨foldl_extended_name .., foldl_extended_transitions ..⟩
  obtain ⟨rfl, ht⟩ := hstate
  refine ⟨hn, hname, ht, ?_⟩
  intro move hm hstay
  obtain ⟨transition, he, hevent, htarget, harguments⟩ := Move.transition?_stay hstay state.name
  rw [ht]
  exact ⟨transition, List.mem_filterMap.2 ⟨move, hm, he⟩, he, hevent, htarget, harguments⟩

theorem State.DeclaredBy.conditions_eq {state : State} {call : BuilderCall}
    (h : state.DeclaredBy call) :
    ∀ transition ∈ state.transitions, transition.conditions = [] := by
  intro transition hm
  rw [h.transitions_eq] at hm
  obtain ⟨move, _, ht⟩ := List.mem_filterMap.1 hm
  exact conditions_of_transition? ht

theorem BuilderCall.bind_declared? (call : BuilderCall) :
    call.declared?.bind Statement.state? =
      if call.name = "state" then call.declaredState? else none := by
  rw [declared?]
  split
  · next hn =>
    rw [hn, if_neg (by decide)]
    cases call.argument? 0 <;> rfl
  · next hn =>
    rw [if_pos hn]
    cases call.declaredState? <;> rfl
  · next hn => exact (if_neg hn).symm

theorem Machine.states_described (statements : List SyntaxTree) :
    (described statements).states = (BuilderCall.all statements).filterMap fun call =>
      if call.name = "state" then call.declaredState? else none := by
  rw [states, described, List.filterMap_filterMap]
  exact List.filterMap_congr fun call _ => call.bind_declared?

theorem exists_declaredBy {statements : List SyntaxTree} {state : State}
    (h : state ∈ (Machine.described statements).states) :
    ∃ call ∈ BuilderCall.all statements, state.DeclaredBy call := by
  rw [Machine.states_described] at h
  obtain ⟨call, hc, hd⟩ := List.mem_filterMap.1 h
  split at hd
  · next hn => exact ⟨call, hc, BuilderCall.declares hn hd⟩
  · cases hd

/-- All that an extracted machine carries is quoted from the normalized source, and nothing in it
is guarded. Its states are declared by calls in one body of the tree: their transitions are those
of the calls in their handlers, and a call that stays leads to the state it stands in. -/
theorem machines_verbatim {limits : Limits} {source : String} {machines : List Machine}
    (h : extractMachines limits source = .ok machines) :
    ∃ tree, SyntaxTree.parse limits.syntaxDepth source = .ok tree ∧ ∀ machine ∈ machines,
      (∀ text ∈ machine.texts, text.toList <:+: normalizeLineEndings source.toList) ∧
      (∀ transition ∈ machine.transitions, transition.conditions = []) ∧
      ∃ body ∈ tree.preorder, ∀ state ∈ machine.states,
        ∃ call ∈ BuilderCall.all body.statements, state.DeclaredBy call := by
  obtain ⟨tree, hp, hx⟩ := bind_eq_ok.1 h
  refine ⟨tree, hp, ?_⟩
  intro machine hm
  obtain ⟨body, hb, hbody⟩ := exists_body_of_machines hx hm
  have hdeclared : ∀ state ∈ machine.states, ∃ call ∈ BuilderCall.all body.statements,
      state.DeclaredBy call := by
    intro state hs
    rw [hbody] at hs
    exact exists_declaredBy hs
  refine ⟨?_, ?_, body, hb, hdeclared⟩
  · intro text ht
    exact Source.infix_of_mem_texts hp (texts_of_machines hx hm ht)
  · intro transition ht
    obtain ⟨state, hs, ht⟩ := List.mem_flatMap.1 ht
    obtain ⟨call, _, hd⟩ := hdeclared state hs
    exact hd.conditions_eq transition ht

/-- The name of the state is a raw string with a CR in it. -/
def stayingSource : String :=
  "StateMachine.create \x7bstate(\"\"\"a\rb\"\"\") \x7b on<E> \x7b dontTransition(f) \x7d \x7d\x7d"

def stayingState : State :=
  { name := "a\nb", transitions := [{ event := "E", target := "a\nb", sideEffect := some "f" }] }

/-- A handler stays in a state by its name, which is quoted without its quotes and its CR. -/
theorem machines_verbatim_stay :
    extractMachines {} stayingSource = .ok [⟨[.state stayingState]⟩] ∧
      (∀ text ∈ stayingState.texts, text.toList <:+: normalizeLineEndings stayingSource.toList) ∧
      ∃ call, stayingState.DeclaredBy call := by
  have hx : extractMachines {} stayingSource = .ok [⟨[.state stayingState]⟩] := by
    decide +kernel
  obtain ⟨tree, _, hall⟩ := machines_verbatim hx
  obtain ⟨htexts, _, body, _, hdeclared⟩ := hall _ List.mem_cons_self
  obtain ⟨call, _, hd⟩ := hdeclared stayingState List.mem_cons_self
  refine ⟨hx, ?_, call, hd⟩
  intro text ht
  exact htexts text (List.mem_append_left _ ht)

end StateDiagram
