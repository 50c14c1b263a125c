import Mathlib.Data.List.Forall2
import StateDiagram.Proofs.BalancedReading
import StateDiagram.Proofs.Enclosure
import StateDiagram.Proofs.Places
import StateDiagram.Proofs.Shape
import StateDiagram.Proofs.Verbatim

namespace StateDiagram

set_option autoImplicit true

variable {source : Source}

/-- Every lambda at or below the node was read behind a brace of the source. -/
def Node.Traced (source : Source) (node : Outline) : Prop :=
  ∀ lambda ∈ node.preorder, lambda.isLambda = true →
    ∃ n brace cursor next, brace.Heads source cursor ∧ brace.lexeme = .opening .curly ∧
      Derives source n (.lambda brace cursor lambda next)

namespace Node

variable {node : Outline}

theorem Traced.intro (hl : node.isLambda = false)
    (h : ∀ child ∈ node.children, child.Traced source) : node.Traced source := by
  intro lambda hm hlambda
  rcases mem_preorder.1 hm with rfl | ⟨child, hc, hm⟩
  · rw [hl] at hlambda
    cases hlambda
  · exact h child hc lambda hm hlambda

theorem Traced.leaf (hl : node.isLeaf = true) : node.Traced source := by
  cases node with
  | typeArgument | stringLiteral | identifier | literal | token =>
    exact .intro rfl (List.forall_mem_nil _)
  | _ => cases hl

theorem Traced.block {nodes : List Outline} (h : ∀ node ∈ nodes, node.Traced source)
    (span : Span) : Node.Traced source (.block span nodes) := .intro rfl h

theorem Traced.collapse {nodes : List Outline} (h : ∀ node ∈ nodes, node.Traced source) :
    ∀ node ∈ (StateDiagram.collapse nodes).toList, node.Traced source := by
  match nodes with
  | [] => exact List.forall_mem_nil _
  | [first] => exact h
  | first :: second :: more => exact List.forall_mem_singleton.2 (.intro rfl h)

theorem Traced.argument {nodes : List Outline} (h : ∀ node ∈ nodes, node.Traced source)
    (token : Token) (name : Option String) :
    ∀ node ∈ ((StateDiagram.collapse nodes).map (argumentOutline token name)).toList,
      node.Traced source := by
  intro node hm
  obtain ⟨expression, he, rfl⟩ := Option.map_eq_some_iff.1 (Option.mem_toList.1 hm)
  exact .intro rfl (List.forall_mem_singleton.2 (.collapse h expression (Option.mem_toList.2 he)))

end Node

/-- What is read from tokens of the source is traced. -/
def Phrase.Traced (source : Source) : Phrase → Prop
  | .expression token cursor node _ | .primary token cursor node _ =>
    token.Heads source cursor → node.Traced source
  | .lambda token cursor node _ =>
    token.Heads source cursor → token.lexeme = .opening .curly → node.Traced source
  | .named _ _ cursor node _ | .group _ _ cursor node _ =>
    cursor.rest <:+ source.tokens → node.Traced source
  | .suffixes node cursor result _ =>
    cursor.rest <:+ source.tokens → node.Traced source → result.Traced source
  | .callArguments cursor nodes _ =>
    cursor.rest <:+ source.tokens → ∀ node ∈ nodes.getD [], node.Traced source
  | .trailingLambda cursor trailing _ =>
    cursor.rest <:+ source.tokens → ∀ node ∈ trailing.toList, node.Traced source
  | .valueArguments cursor nodes _ | .items _ _ cursor nodes _ | .statements _ cursor nodes _
  | .groupItems _ cursor nodes _ =>
    cursor.rest <:+ source.tokens → ∀ node ∈ nodes, node.Traced source

theorem Derives.traced (h : Derives source n phrase) : phrase.Traced source := by
  induction h with
  | expression hp _ ihp ihs => exact fun ht => ihs (hp.suffix.trans ht.tail) (ihp ht)
  | name _ _ ih | brackets _ _ _ ih => exact fun ht => ih ht.tail
  | braces hl _ ih => exact fun ht => ih ht hl
  | string | literal | symbol => exact fun _ => .leaf rfl
  | noSuffix => exact fun _ hn => hn
  | member hm hn _ ihn ihs =>
    intro hc hnode
    obtain ⟨_, _, _, _, ha⟩ := exists_of_memberAhead? hm
    have hnext := (ha.headed hc).tail
    refine ihs (hn.suffix.trans hnext) (.intro rfl ?_)
    exact List.forall_mem_cons.2 ⟨hnode, List.forall_mem_singleton.2 (ihn hnext)⟩
  | index _ hr _ _ hg _ ihg ihs =>
    intro hc hnode
    have hnext := (Cursor.Leads.head hr).suffix.trans hc
    refine ihs (hg.suffix.trans hnext) (.intro rfl ?_)
    exact List.forall_mem_cons.2 ⟨hnode, List.forall_mem_singleton.2 (ihg hnext)⟩
  | identifier => exact fun _ => .leaf rfl
  | call ht ha _ _ iha ihl =>
    intro hc
    have hbehind := (readTypeArguments_leads ht).suffix.trans hc
    refine .intro rfl (List.forall_mem_cons.2 ⟨.leaf rfl, ?_⟩)
    refine List.forall_mem_append.2 ⟨List.forall_mem_append.2 ⟨fun node hm => ?_, iha hbehind⟩,
      ihl (ha.suffix.trans hbehind)⟩
    obtain ⟨span, rfl⟩ := exists_typeArgument ht node hm
    exact .leaf rfl
  | noArguments | noLambda | argumentsEnd | argumentsClose | itemsEnd | itemsStop | itemsBreak
  | statementsEnd | statementsClose | groupEnd | groupClose =>
    exact fun _ => List.forall_mem_nil _
  | arguments hr _ _ ih | argumentsSkip hr _ _ ih | itemsContinue hr _ _ _ ih
  | statementsSkip hr _ _ ih | groupSkip hr _ _ ih =>
    exact fun hc => ih ((Cursor.Leads.head hr).suffix.trans hc)
  | trailing hr ht _ ih => exact fun hc => List.forall_mem_singleton.2 (ih (.past hc hr) ht)
  | argument _ _ hi _ ihi iha =>
    intro hc
    have hname := (readArgumentName_leads _).suffix.trans hc
    exact List.forall_mem_append.2 ⟨.argument (ihi hname) _ _, iha (hi.suffix.trans hname)⟩
  | item hr _ he _ ihe ihi | groupItem hr _ _ he _ ihe ihi =>
    intro hc
    have hh := Token.Heads.past hc hr
    exact List.forall_mem_cons.2 ⟨ihe hh, ihi (he.suffix.trans hh.tail)⟩
  | stray hr _ _ _ ih =>
    exact fun hc => List.forall_mem_cons.2 ⟨.leaf rfl, ih ((Cursor.Leads.head hr).suffix.trans hc)⟩
  | statement _ _ hi _ ihi ihs =>
    intro hc
    exact List.forall_mem_append.2 ⟨.collapse (ihi hc), ihs (hi.suffix.trans hc)⟩
  | lambda hp hs ih =>
    intro hh hl lambda hm hlambda
    have hbody := ih ((readParameters_leads hp).suffix.trans hh.tail)
    rcases Node.mem_preorder.1 hm with rfl | ⟨block, hblock, hm⟩
    · exact ⟨_, _, _, _, hh, hl, .lambda hp hs⟩
    · cases List.mem_singleton.1 hblock
      exact Node.Traced.block hbody _ lambda hm hlambda
  | group _ ih => exact fun hc => .intro rfl (ih hc)

/-- The lambda stands between two braces that close each other, and runs the given one of the
tokens between them. -/
inductive Source.Frames (source : Source) : Span → Option String → List Token → Prop where
  | intro (ht : source.tokens = front ++ brace :: (inside ++ close :: back))
      (hb : brace.lexeme = .opening .curly) (hc : close.lexeme = .closing .curly)
      (hn : Token.nest [] inside = true) (hr : Runs parameters inside code) :
      Frames source ⟨brace.span.start, close.span.stop⟩ parameters code

/-- The text from the first to the last of the tokens that are code. -/
def Source.snippet (source : Source) (tokens : List Token) : String :=
  ((Span.ofTokens? (Token.code tokens)).map source.slice).getD ""

/-- The text is that of what the lambda runs, and is empty if and only if there is no code. -/
def Source.Snips (source : Source) (lambda : Span) (parameters : Option String) (text : String) :
    Prop :=
  ∃ tokens, source.Frames lambda parameters tokens ∧ text = source.snippet tokens ∧
    (text = "" ↔ ∀ token ∈ tokens, token.lexeme.isCode = false)

theorem Runs.suffix (h : Runs parameters inside code) : code <:+ inside := by
  cases h with
  | all => exact List.suffix_rfl
  | behind => exact (List.suffix_cons ..).trans (List.suffix_append ..)

theorem Source.Frames.sublist (h : source.Frames span parameters code) :
    code.Sublist source.tokens := by
  cases h with
  | intro ht _ _ _ hr =>
    rw [ht]
    refine hr.suffix.sublist.trans ?_
    exact (List.sublist_append_left ..).trans
      ((List.sublist_cons_self ..).trans (List.sublist_append_right ..))

theorem Source.Frames.stop_le_lastEnd (h : source.Frames span parameters code) :
    span.stop ≤ source.lastEnd := by
  cases h with
  | @intro front brace inside close back _ _ ht =>
    rw [List.append_cons, ← List.append_assoc] at ht
    exact (source.sound_tokens.heads ht).stop_le_lastEnd

theorem Source.slice_ne_empty (h : span.Within source) (hlt : span.start < span.stop) :
    source.slice span ≠ "" := by
  obtain ⟨before, inside, after, ht, hstart, hstop⟩ := h.exists_text
  intro he
  have hslice := Text.slice_append before inside after
  rw [← ht, hstop, hstart] at hslice
  have hnil : inside = [] := by
    have htext := congrArg String.toList he
    rw [slice, hslice, String.toList_ofList] at htext
    exact htext
  rw [hnil, Text.byteSize_nil] at hstop
  omega

theorem Source.within_ofTokens? {tokens : List Token} (h : tokens.Sublist source.tokens)
    (hs : Span.ofTokens? tokens = some span) : span.Within source ∧ span.start < span.stop := by
  have htokens := source.sound_tokens.tokens
  have hordered := source.sound_tokens.ordered.sublist h
  cases tokens with
  | nil => cases hs
  | cons first more =>
    have hlast := List.getLast?_eq_some_getLast (List.cons_ne_nil first more)
    generalize (first :: more).getLast (List.cons_ne_nil first more) = last at hlast
    have hm := List.mem_of_getLast? hlast
    simp only [Span.ofTokens?, hlast, Option.some.injEq] at hs
    subst hs
    obtain ⟨hfirst, hwithin⟩ := htokens first (h.subset List.mem_cons_self)
    obtain ⟨hlt, hw⟩ := htokens last (h.subset hm)
    have hle : first.span.start < last.span.stop := by
      rcases List.mem_cons.1 hm with rfl | hm
      · exact hfirst
      · have := (List.pairwise_cons.1 hordered).1 last hm
        omega
    exact ⟨⟨Nat.le_of_lt hle, hwithin.boundary_start, hw.boundary_stop⟩, hle⟩

theorem Token.code_eq_nil_iff {tokens : List Token} :
    code tokens = [] ↔ ∀ token ∈ tokens, token.lexeme.isCode = false := by
  rw [code, List.filter_eq_nil_iff]
  simp only [Bool.not_eq_true]

theorem Source.snippet_eq_empty_iff {tokens : List Token} (h : tokens.Sublist source.tokens) :
    source.snippet tokens = "" ↔ ∀ token ∈ tokens, token.lexeme.isCode = false := by
  have hsub : (Token.code tokens).Sublist source.tokens := List.filter_sublist.trans h
  rw [← Token.code_eq_nil_iff, snippet]
  cases hc : Token.code tokens with
  | nil => exact iff_of_true rfl rfl
  | cons first more =>
    have hlast := List.getLast?_eq_some_getLast (List.cons_ne_nil first more)
    obtain ⟨span, hs⟩ : ∃ span, Span.ofTokens? (first :: more) = some span := by
      simp only [Span.ofTokens?, hlast]
      exact ⟨_, rfl⟩
    obtain ⟨hw, hlt⟩ := within_ofTokens? (hc ▸ hsub) hs
    rw [hs]
    exact iff_of_false (slice_ne_empty hw hlt) (List.cons_ne_nil first more)

theorem Source.slice_eq_snippet (source : Source) (tokens : List Token) (offset : Nat) :
    source.slice ((Span.ofTokens? (Token.code tokens)).getD ⟨offset, offset⟩) =
      source.snippet tokens := by
  rw [snippet]
  cases Span.ofTokens? (Token.code tokens) with
  | none => exact source.slice_self offset
  | some span => rfl

/-- Where all brackets are balanced, every lambda stands between its own braces. -/
theorem Source.snips_of_outline? {outline block : Outline}
    (h : source.outline? limit = some outline) (hn : Token.nest [] source.tokens = true)
    (hm : .lambda span parameters block ∈ outline.preorder) :
    source.Snips span parameters (source.slice block.info) := by
  obtain ⟨statements, _, rfl, hd⟩ := outline?_eq_some_iff.1 h
  have htraced : Node.Traced source (.file ⟨0, source.size⟩ statements) :=
    .intro rfl (hd.traced List.suffix_rfl)
  obtain ⟨n, brace, cursor, next, hh, hb, hl⟩ := htraced _ hm rfl
  obtain ⟨front, hfront⟩ := hh.suffix
  rw [← hfront] at hn
  obtain ⟨opened, hn⟩ := Token.exists_nest hn
  rw [Token.nest_opening hb] at hn
  obtain ⟨inside, close, hf⟩ := hl.balanced opened ⟨hh.span.sound, hn⟩
  obtain ⟨_, place, nodes, code, offset, he, hruns, hplace⟩ := hf.block
  obtain ⟨-, rfl, rfl⟩ := Node.lambda.inj he
  have hframes : source.Frames span parameters code := by
    have hspan : span = ⟨brace.span.start, close.span.stop⟩ :=
      congr (congrArg Span.mk (hl.spanned hh.span).start_eq) hf.stop_eq
    rw [hspan]
    exact .intro (hfront.symm.trans (by rw [hf.rest_eq])) hb hf.close_eq hf.nest hruns
  have htext : source.slice (Node.block place nodes).info = source.snippet code :=
    hplace ▸ source.slice_eq_snippet code offset
  refine ⟨code, hframes, htext, ?_⟩
  rw [htext]
  exact snippet_eq_empty_iff hframes.sublist

/-- All nodes below the node stand in it, and its children stand in it one behind the other. -/
structure SyntaxTree.Encloses (node : SyntaxTree) : Prop where
  start_le : ∀ inner ∈ node.preorder, node.info.span.start ≤ inner.info.span.start
  stop_le : ∀ inner ∈ node.preorder, inner.info.span.stop ≤ node.info.span.stop
  ordered : node.children.Pairwise fun child next => child.info.span.stop ≤ next.info.span.start

/-- Where all brackets are balanced, no lambda reaches over the last token, and all spans nest. -/
theorem Source.encloses_of_parse {tree : SyntaxTree} (h : source.parse limit = .ok tree)
    (hn : Token.nest [] source.tokens = true) :
    ∀ node ∈ tree.preorder, SyntaxTree.Encloses node := by
  obtain ⟨outline, ho, rfl⟩ := parse_eq_ok_iff.1 h
  have hnests := nests_of_outline? ho
  have hstops := (Node.stops_iff hnests).2 fun call hc _ lambda hl hempty => by
    cases lambda with
    | lambda span parameters block =>
      obtain ⟨_, hf, _⟩ := snips_of_outline? ho hn (Node.mem_preorder_trans hc hl)
      exact hf.stop_le_lastEnd
    | _ => cases hempty
  simp only [Node.preorder_map, List.forall_mem_map]
  intro node hm
  refine ⟨?_, ?_, ?_⟩
  · simp only [Node.preorder_map, List.forall_mem_map, Node.info_map, locate]
    have hnode : ∀ inner ∈ node.preorder, inner.Nests source :=
      fun inner hi => hnests inner (Node.mem_preorder_trans hm hi)
    exact fun inner hi => Node.start_le_of_mem_preorder hnode hi
  · simp only [Node.preorder_map, List.forall_mem_map, Node.info_map, locate]
    exact fun inner hi => Node.stop_le_of_mem_preorder hstops hm hi
  · simp only [Node.children_map, List.pairwise_map, Node.info_map, locate]
    exact (hnests node hm).ordered

theorem Source.snips_of_parse {tree block : SyntaxTree} (h : source.parse limit = .ok tree)
    (hn : Token.nest [] source.tokens = true)
    (hm : .lambda place parameters block ∈ tree.preorder) :
    source.Snips place.span parameters block.info.text := by
  obtain ⟨outline, ho, rfl⟩ := parse_eq_ok_iff.1 h
  rw [Node.preorder_map] at hm
  obtain ⟨node, hnode, he⟩ := List.mem_map.1 hm
  cases node with
  | lambda span name body =>
    rw [Node.map] at he
    obtain ⟨rfl, rfl, rfl⟩ := Node.lambda.inj he
    rw [Node.info_map]
    exact snips_of_outline? ho hn hnode
  | call span callee types values trailing =>
    rw [Node.map_call] at he
    cases he
  | _ => simp at he

namespace BuilderCall

/-- The block of the call if it is of the given name. -/
def blockOf? (name : String) (call : BuilderCall) : Option SyntaxTree :=
  if call.name = name then call.body? else none

def blocks (name : String) (call : BuilderCall) : List SyntaxTree :=
  call.body?.toList.flatMap fun body => (all body.statements).filterMap (blockOf? name)

def declaringStates (body : SyntaxTree) : List BuilderCall :=
  (all body.statements).filter fun call => call.name = "state" && call.declaredName?.isSome

end BuilderCall

/-- The snippets of the state are the texts of the blocks in the call that declares it. -/
structure State.Snips (state : State) (call : BuilderCall) : Prop where
  name_eq : call.declaredName? = some state.name
  onEnter_eq : state.onEnter = (call.blocks "onEnter").map (·.info.text)
  onExit_eq : state.onExit = (call.blocks "onExit").map (·.info.text)

theorem BuilderCall.blockOf?_eq_none {call : BuilderCall} {name : String}
    (h : ∀ block, call.name = name → call.body? = some block → False) :
    call.blockOf? name = none := by
  rw [blockOf?]
  split
  · next hn => exact Option.eq_none_iff_forall_ne_some.2 fun block hb => h block hn hb
  · rfl

theorem extended_snippets (crossing : Crossing) (state : State) (call : BuilderCall) :
    crossing.snippets (state.extended call) =
      crossing.snippets state ++ (call.blockOf? crossing.word).toList.map (·.info.text) := by
  have h := state.extension call
  generalize state.extended call = next at h ⊢
  cases h with
  | handler hn =>
    have hother : call.blockOf? crossing.word = none := by
      rw [BuilderCall.blockOf?, hn, if_neg (by cases crossing <;> decide)]
    rw [hother, Option.toList_none, List.map_nil, List.append_nil]
    cases crossing <;> rfl
  | crossing found hn hb =>
    rw [BuilderCall.blockOf?, hn, hb]
    cases crossing <;> cases found <;> simp [Crossing.snippets, Crossing.add, Crossing.word]
  | none h =>
    rw [BuilderCall.blockOf?_eq_none (h crossing)]
    exact (List.append_nil _).symm

theorem foldl_extended (crossing : Crossing) (calls : List BuilderCall) (state : State) :
    crossing.snippets (calls.foldl State.extended state) = crossing.snippets state ++
      (calls.filterMap (BuilderCall.blockOf? crossing.word)).map (·.info.text) := by
  induction calls generalizing state with
  | nil => exact (List.append_nil _).symm
  | cons call calls ih =>
    rw [List.foldl_cons, ih, extended_snippets, List.append_assoc, ← List.map_append,
      List.filterMap_cons]
    cases call.blockOf? crossing.word <;> rfl

theorem BuilderCall.blocks_of_none {call : BuilderCall} (hb : call.body? = none) (name : String) :
    call.blocks name = [] := by
  rw [blocks, hb]
  rfl

theorem BuilderCall.blocks_of_body {call : BuilderCall} {body : SyntaxTree}
    (hb : call.body? = some body) (name : String) :
    call.blocks name = (all body.statements).filterMap (blockOf? name) := by
  rw [blocks, hb, Option.toList_some, List.flatMap_singleton]

theorem BuilderCall.snips {call : BuilderCall} {state : State}
    (h : call.declaredState? = some state) : state.Snips call := by
  obtain ⟨name, hname, rfl⟩ := Option.map_eq_some_iff.1 h
  cases hb : call.body? with
  | none => exact ⟨hname, by rw [blocks_of_none hb]; rfl, by rw [blocks_of_none hb]; rfl⟩
  | some body =>
    refine ⟨?_, ?_, ?_⟩
    · rw [foldl_extended_name]
      exact hname
    · rw [blocks_of_body hb]
      exact foldl_extended .enter _ _
    · rw [blocks_of_body hb]
      exact foldl_extended .exit _ _

/-- A machine has one state for each call that declares one. -/
theorem snips_described (body : SyntaxTree) :
    List.Forall₂ State.Snips (Machine.described body.statements).states
      (BuilderCall.declaringStates body) := by
  rw [Machine.states_described, BuilderCall.declaringStates]
  induction BuilderCall.all body.statements with
  | nil => exact .nil
  | cons call calls ih =>
    rw [List.filterMap_cons, List.filter_cons]
    by_cases hn : call.name = "state"
    · rw [if_pos hn]
      have hname : call.declaredState?.isSome = call.declaredName?.isSome := Option.isSome_map
      cases hs : call.declaredState? with
      | none =>
        rw [if_neg (by simp [← hname, hs])]
        exact ih
      | some state =>
        rw [if_pos (by simp [hn, ← hname, hs])]
        exact .cons (BuilderCall.snips hs) ih
    · rw [if_neg hn, if_neg (by simp [hn])]
      exact ih

theorem Builder.exists_bodies {builders : List (Place × Builder)} {machines : List Machine}
    (h : Builder.machines builders = .ok machines) :
    ∃ bodies : List SyntaxTree, builders.map (·.2.body?) = bodies.map some ∧
      machines = bodies.map fun body => Machine.described body.statements := by
  induction builders generalizing machines with
  | nil =>
    cases h
    exact ⟨[], rfl, rfl⟩
  | cons found builders ih =>
    rw [Builder.machines, List.mapM_cons] at h
    obtain ⟨first, hf, h⟩ := bind_eq_ok.1 h
    obtain ⟨more, hm, h⟩ := bind_eq_ok.1 h
    cases h
    obtain ⟨bodies, hb, rfl⟩ := ih hm
    rw [machine] at hf
    split at hf
    · cases hf
    · next body hbody =>
      cases hf
      exact ⟨body :: bodies, by rw [List.map_cons, List.map_cons, hbody, hb], rfl⟩

namespace BuilderCall

variable {call : BuilderCall} {tree node body block : SyntaxTree}

theorem exists_lambda (h : ofNode? node = some call) (hb : call.body? = some block) :
    ∃ place parameters, .lambda place parameters block ∈ node.preorder := by
  obtain ⟨child, hm, hl⟩ := exists_argumentBody hb
  have hlambda : child.argumentExpression ∈ node.preorder :=
    Node.mem_preorder_trans (Node.mem_preorder_of_child (children_of_builderCall h child hm))
      child.argumentExpression_mem_preorder
  generalize child.argumentExpression = lambda at hl hlambda
  cases lambda with
  | lambda place parameters body =>
    cases hl
    exact ⟨place, parameters, hlambda⟩
  | _ => cases hl

theorem block_mem_preorder (h : .lambda place parameters block ∈ tree.preorder) :
    block ∈ tree.preorder :=
  Node.mem_preorder_trans h (Node.mem_preorder_of_child (List.mem_singleton_self block))

theorem exists_lambda_of_mem_all (hm : body ∈ tree.preorder) (hc : call ∈ all body.statements)
    (hb : call.body? = some block) :
    ∃ place parameters, .lambda place parameters block ∈ tree.preorder := by
  obtain ⟨node, hn, ho⟩ := List.mem_filterMap.1 hc
  obtain ⟨_, hchild⟩ := listsExpressions_of_mem_statements hn
  obtain ⟨place, parameters, hl⟩ := exists_lambda ho hb
  exact ⟨place, parameters,
    Node.mem_preorder_trans hm (Node.mem_preorder_trans (Node.mem_preorder_of_child hchild) hl)⟩

theorem exists_lambda_of_mem_blocks {name : String} (hm : body ∈ tree.preorder)
    (hc : call ∈ all body.statements) (hb : block ∈ call.blocks name) :
    ∃ place parameters, .lambda place parameters block ∈ tree.preorder := by
  obtain ⟨inner, hi, hb⟩ := List.mem_flatMap.1 hb
  obtain ⟨place, parameters, hl⟩ := exists_lambda_of_mem_all hm hc (Option.mem_toList.1 hi)
  obtain ⟨found, hf, hb⟩ := List.mem_filterMap.1 hb
  rw [blockOf?] at hb
  split at hb
  · exact exists_lambda_of_mem_all (block_mem_preorder hl) hf hb
  · cases hb

theorem mem_preorder_of_blockOf? {name : String}
    (h : (ofNode? node).bind (blockOf? name) = some block) : block ∈ node.preorder := by
  obtain ⟨found, hf, h⟩ := Option.bind_eq_some_iff.1 h
  rw [blockOf?] at h
  split at h
  · obtain ⟨_, _, hl⟩ := exists_lambda hf h
    exact block_mem_preorder hl
  · cases h

/-- The blocks stand in the source one behind the other, as the calls do. -/
theorem ordered_blocks (h : ∀ node ∈ tree.preorder, SyntaxTree.Encloses node)
    (hm : body ∈ tree.preorder) (hc : call ∈ all body.statements) (name : String) :
    (call.blocks name).Pairwise fun block next => block.info.span.stop ≤ next.info.span.start := by
  cases hb : call.body? with
  | none =>
    rw [blocks_of_none hb]
    exact .nil
  | some inner =>
    obtain ⟨_, _, hl⟩ := exists_lambda_of_mem_all hm hc hb
    have hinner : inner ∈ tree.preorder := block_mem_preorder hl
    have hencloses {node : SyntaxTree} (hnode : node ∈ inner.statements) :
        SyntaxTree.Encloses node := by
      obtain ⟨_, hchild⟩ := listsExpressions_of_mem_statements hnode
      exact h node (Node.mem_preorder_trans hinner (Node.mem_preorder_of_child hchild))
    have hordered : inner.statements.Pairwise fun node next =>
        node.info.span.stop ≤ next.info.span.start := by
      cases inner with
      | file | block => exact (h _ hinner).ordered
      | _ => exact .nil
    rw [blocks_of_body hb, all, List.filterMap_filterMap, List.pairwise_filterMap]
    refine hordered.imp_of_mem ?_
    intro node next hnode hnext hle first hfirst second hsecond
    calc first.info.span.stop
      _ ≤ node.info.span.stop := (hencloses hnode).stop_le first (mem_preorder_of_blockOf? hfirst)
      _ ≤ next.info.span.start := hle
      _ ≤ second.info.span.start :=
        (hencloses hnext).start_le second (mem_preorder_of_blockOf? hsecond)

end BuilderCall

/-- Where all brackets of a source are balanced, the block of every lambda has the text of what
the lambda runs, from the first token to the last that is neither a line break nor a semicolon.
Each machine has the states that are declared in the body of its builder, and each state has one
snippet for every call in its own body that brings such a block, in the order of the source. -/
theorem snippets_exact {limit : Nat} {text : String} {tree : SyntaxTree}
    (h : SyntaxTree.parse limit text = .ok tree)
    (hn : Token.nest [] (Source.ofString text).tokens = true) :
    (∀ place parameters block, .lambda place parameters block ∈ tree.preorder →
      (Source.ofString text).Snips place.span parameters block.info.text) ∧
    ∀ depth machines, tree.machines depth = .ok machines → ∃ bodies : List SyntaxTree,
      tree.builders.map (·.2.body?) = bodies.map some ∧
      List.Forall₂ (fun machine body =>
        List.Forall₂ State.Snips machine.states (BuilderCall.declaringStates body))
        machines bodies ∧
      ∀ body ∈ bodies, ∀ call ∈ BuilderCall.declaringStates body, ∀ name,
        ((call.blocks name).Pairwise fun block next =>
          block.info.span.stop ≤ next.info.span.start) ∧
        ∀ block ∈ call.blocks name,
          ∃ place parameters, .lambda place parameters block ∈ tree.preorder ∧
            (Source.ofString text).Snips place.span parameters block.info.text := by
  have hsnips : ∀ place parameters block, .lambda place parameters block ∈ tree.preorder →
      (Source.ofString text).Snips place.span parameters block.info.text :=
    fun place parameters block hm => Source.snips_of_parse h hn hm
  refine ⟨hsnips, fun depth machines hx => ?_⟩
  have hbuilders : Builder.machines tree.builders = .ok machines := by
    rcases settles_machinesAt depth 0 tree with he | ⟨_, he⟩
    · exact he.symm.trans hx
    · cases he.symm.trans hx
  obtain ⟨bodies, hbodies, rfl⟩ := Builder.exists_bodies hbuilders
  refine ⟨bodies, hbodies, ?_, fun body hb call hc name => ?_⟩
  · rw [List.forall₂_map_left_iff]
    exact List.forall₂_same.2 fun body _ => snips_described body
  · have hbody : body ∈ tree.preorder := by
      have hsome : some body ∈ tree.builders.map (·.2.body?) :=
        hbodies ▸ List.mem_map_of_mem hb
      obtain ⟨found, hf, hs⟩ := List.mem_map.1 hsome
      obtain ⟨node, hnode, ho, _⟩ := SyntaxTree.mem_builders.1 hf
      exact Node.mem_preorder_trans hnode (Builder.body_mem_preorder ho hs)
    have hall := List.mem_of_mem_filter hc
    refine ⟨BuilderCall.ordered_blocks (Source.encloses_of_parse h hn) hbody hall name, ?_⟩
    intro block hm
    obtain ⟨place, parameters, hl⟩ := BuilderCall.exists_lambda_of_mem_blocks hbody hall hm
    exact ⟨place, parameters, hl, hsnips place parameters block hl⟩

/-- A state that is entered through a lambda with a parameter and left through an empty one. -/
def trimmedSource : String :=
  "StateMachine.create \x7b state<A> \x7b\n" ++
  "  onEnter \x7b x -> /* a */\n f(\x7b;\x7d) ; // b\n g ; /* c */ \x7d\n" ++
  "  onExit \x7b ; \x7d\n\x7d \x7d"

def trimmedState : State :=
  { name := "A", onEnter := ["f(\x7b;\x7d) ; // b\n g"], onExit := [""] }

/-- What is at the edges of a snippet is left out, and what is within it is kept. -/
theorem snippets_exact_trimmed : ∃ tree, SyntaxTree.parse 256 trimmedSource = .ok tree ∧
    Token.nest [] (Source.ofString trimmedSource).tokens = true ∧
    (∀ place parameters block, .lambda place parameters block ∈ tree.preorder →
      (Source.ofString trimmedSource).Snips place.span parameters block.info.text) ∧
    tree.machines 256 = .ok [⟨[.state trimmedState]⟩] := by
  have hx : extractMachines {} trimmedSource = .ok [⟨[.state trimmedState]⟩] := by
    decide +kernel
  have hn : Token.nest [] (Source.ofString trimmedSource).tokens = true := by decide +kernel
  obtain ⟨tree, hp, hx⟩ := bind_eq_ok.1 hx
  exact ⟨tree, hp, hn, (snippets_exact hp hn).1, hx⟩

end StateDiagram
