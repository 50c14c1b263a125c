import StateDiagram.Proofs.CallText
import StateDiagram.Proofs.Hiding
import StateDiagram.Proofs.HiddenMachine

namespace StateDiagram

set_option autoImplicit true

open Text

/-- Something that is no part of parameters stands in front of every arrow. -/
def Unarrowed (tokens : List Token) : Prop :=
  ∀ front arrow back, tokens = front ++ arrow :: back → arrow.lexeme = .operator "->" →
    ∃ token ∈ front, token.lexeme.isParameter = false

namespace Unarrowed

variable {token : Token} {tokens more : List Token} {opened : List Bracket}

theorem nil : Unarrowed [] := by
  intro front arrow back h
  cases front <;> cases h

theorem append (h : Unarrowed tokens) (hm : Unarrowed more) : Unarrowed (tokens ++ more) := by
  intro front arrow back he ha
  rcases List.append_eq_append_iff.1 he with ⟨others, rfl, hback⟩ | ⟨others, hfront, hback⟩
  · obtain ⟨token, hmem, ht⟩ := hm others arrow back hback ha
    exact ⟨token, List.mem_append_right _ hmem, ht⟩
  · cases others with
    | nil =>
      rw [List.append_nil] at hfront
      obtain ⟨token, hmem, -⟩ := hm [] arrow back hback.symm ha
      cases hmem
    | cons first others =>
      obtain ⟨rfl, rfl⟩ := List.cons.inj hback
      exact h front arrow others hfront ha

theorem of_forall (h : ∀ token ∈ tokens, token.lexeme ≠ .operator "->") : Unarrowed tokens := by
  rintro front arrow back rfl ha
  exact (h arrow (by simp) ha).elim

theorem cons (ht : token.lexeme ≠ .operator "->") (h : Unarrowed tokens) :
    Unarrowed (token :: tokens) :=
  append (of_forall (List.forall_mem_singleton.2 ht)) h

theorem declaration (h : Unarrowed tokens) (word name : String)
    (verb less type greater brace : Span) :
    Unarrowed (⟨.identifier word, verb⟩ :: ⟨.operator "<", less⟩ :: ⟨.identifier name, type⟩ ::
      ⟨.operator ">", greater⟩ :: ⟨.opening .curly, brace⟩ :: tokens) := by
  have hless : Lexeme.operator "<" ≠ .operator "->" := by decide
  have hgreater : Lexeme.operator ">" ≠ .operator "->" := by decide
  exact .cons nofun (.cons hless (.cons nofun (.cons hgreater (.cons nofun h))))

theorem shift (h : Unarrowed tokens) (k : Nat) : Unarrowed (tokens.map (Token.shift k)) := by
  intro front arrow back he ha
  obtain ⟨front, back, rfl, rfl, hback⟩ := List.map_eq_append_iff.1 he
  obtain ⟨arrow, back, rfl, rfl, rfl⟩ := List.map_eq_cons_iff.1 hback
  obtain ⟨token, hm, ht⟩ := h front arrow back rfl ha
  exact ⟨token.shift k, List.mem_map_of_mem hm, ht⟩

/-- Parameters open no brace that hides what stands behind them. -/
theorem mem_outside {front back : List Token} (ho : opened.any (· == .curly) = false)
    (hp : ∀ token ∈ front, token.lexeme.isParameter = true) :
    token ∈ Token.outside (· == .curly) opened (front ++ token :: back) := by
  induction front generalizing opened with
  | nil =>
    rw [List.nil_append, Token.outside, ho]
    exact List.mem_cons_self
  | cons first front ih =>
    obtain ⟨hfirst, hp⟩ := List.forall_mem_cons.1 hp
    rw [List.cons_append]
    cases hl : first.lexeme with
    | opening bracket =>
      obtain rfl := Lexeme.round_of_isParameter hfirst (.inl hl)
      rw [outside_opening hl]
      apply List.mem_append_right
      exact ih (by rw [List.any_cons, ho]; rfl) hp
    | closing bracket =>
      rw [outside_closing hl]
      apply List.mem_append_right
      apply ih _ hp
      cases opened with
      | nil => rfl
      | cons inner outer => exact (Bool.or_eq_false_iff.1 ho).2
    | _ =>
      rw [outside_of_not_isBracket (by rw [hl]; rfl)]
      exact List.mem_append_right _ (ih ho hp)

theorem of_outside (h : ∀ token ∈ Token.outside (· == .curly) [] tokens,
    token.lexeme ≠ .operator "->") : Unarrowed tokens := by
  rintro front arrow back rfl ha
  by_contra hn
  apply h arrow (mem_outside rfl ?_) ha
  intro token hm
  cases hp : token.lexeme.isParameter with
  | false => exact (hn ⟨token, hm, hp⟩).elim
  | true => rfl

end Unarrowed

theorem unarrowed_inPlace {parts : List String}
    (h : ∀ part ∈ parts, Unarrowed (Token.tokenize part))
    (offset : Nat) : Unarrowed (Token.inPlace offset parts) := by
  induction parts generalizing offset with
  | nil => exact .nil
  | cons part parts ih =>
    obtain ⟨hpart, h⟩ := List.forall_mem_cons.1 h
    exact (hpart.shift offset).append (ih h _)

theorem readParameters_of_unarrowed (source : Source) {cursor : Cursor}
    (h : Unarrowed cursor.rest) : readParameters source cursor = (none, cursor) := by
  cases hread : readParameters source cursor with
  | mk parameters next =>
    cases parametersRead hread with
    | none => rfl
    | list hp =>
      obtain ⟨token, hm, ht⟩ := h _ _ _ hp.rest_eq hp.arrow_eq
      rw [hp.inside_eq token hm] at ht
      cases ht

section

variable {source : Source} {node : Outline} {text word type : String} {span verb : Span}
  {rest behind : List Token} {stop prior : Nat}

def declarationOutline (whole verb type lambda body : Span) (word : String) (line : Outline) :
    Outline :=
  .call whole (.identifier verb (bareName word)) [.typeArgument type] []
    (some (.lambda lambda none (.block body [line])))

theorem derives_inBraces {close : Span}
    (h : Derives source n (.named text span ⟨span.stop, rest⟩ node
      ⟨stop, ⟨.closing .curly, close⟩ :: behind⟩))
    (ha : Unarrowed (⟨.identifier text, span⟩ :: rest)) (brace : Span) :
    ∃ lambda body, Derives source (n + 2) (.lambda ⟨.opening .curly, brace⟩
      ⟨brace.stop, ⟨.identifier text, span⟩ :: rest⟩ (.lambda lambda none (.block body [node]))
        ⟨close.stop, behind⟩) := by
  have hend : EndsStatement (⟨.closing .curly, close⟩ :: behind) :=
    (EndsBody.closing rfl).endsStatement
  have hclose : Derives source (n + 1) (.statements (some .curly)
      ⟨stop, ⟨.closing .curly, close⟩ :: behind⟩ [] ⟨stop, ⟨.closing .curly, close⟩ :: behind⟩) :=
    .statementsClose rfl rfl rfl
  have hexpression := h.expression_of_named (hend.settled.endsExpression stop)
  have hstatements := derives_onlyStatement hexpression hend hclose brace.stop
  have hp : readParameters source ⟨brace.stop, ⟨.identifier text, span⟩ :: rest⟩ =
      (none, ⟨brace.stop, ⟨.identifier text, span⟩ :: rest⟩) :=
    readParameters_of_unarrowed source ha
  exact ⟨_, _, .lambda hp hstatements⟩

theorem readTypeArguments_single {less : Span} (hl : less.start = prior) (name : String)
    (type greater brace : Span) (rest : List Token) :
    readTypeArguments ⟨prior, ⟨.operator "<", less⟩ :: ⟨.identifier name, type⟩ ::
      ⟨.operator ">", greater⟩ :: ⟨.opening .curly, brace⟩ :: rest⟩ =
        ([.typeArgument type], ⟨greater.stop, ⟨.opening .curly, brace⟩ :: rest⟩) := by
  have hin : ∀ token ∈ [(⟨.identifier name, type⟩ : Token)], token.lexeme.inType :=
    List.forall_mem_singleton.2 (.inl ⟨name, rfl⟩)
  have hclose : closeAngle 0 (⟨.identifier name, type⟩ :: ⟨.operator ">", greater⟩ ::
      ⟨.opening .curly, brace⟩ :: rest) =
        some ([⟨.identifier name, type⟩], ⟨.operator ">", greater⟩,
          ⟨.opening .curly, brace⟩ :: rest) := closeAngle_append hin rfl
  have hopens : opensCall (⟨.opening .curly, brace⟩ :: rest) = true :=
    opensCall_of_opening (.inr rfl) rest
  have hsegments :
      (typeSegments 0 [⟨.identifier name, type⟩]).filterMap Span.ofTokens? = [type] := by
    rw [typeSegments_of_inType hin]
    rfl
  exact Eq.trans (readTypeArguments_of_closeAngle rfl hl hclose hopens) (by rw [hsegments]; rfl)

theorem derives_declaration {close : Span} (word : String) (verb less : Span) (name : String)
    (type greater brace : Span)
    (h : Derives source n (.named text span ⟨span.stop, rest⟩ node
      ⟨stop, ⟨.closing .curly, close⟩ :: behind⟩))
    (ha : Unarrowed (⟨.identifier text, span⟩ :: rest)) (hl : less.start = verb.stop) :
    ∃ lambda body, Derives source (n + 2) (.named word verb ⟨verb.stop, ⟨.operator "<", less⟩ ::
      ⟨.identifier name, type⟩ :: ⟨.operator ">", greater⟩ :: ⟨.opening .curly, brace⟩ ::
        ⟨.identifier text, span⟩ :: rest⟩
      (declarationOutline ⟨verb.start, close.stop⟩ verb type lambda body word node)
      ⟨close.stop, behind⟩) := by
  obtain ⟨lambda, body, hd⟩ := derives_inBraces h ha brace
  have ht := readTypeArguments_single hl name type greater brace
    (⟨.identifier text, span⟩ :: rest)
  have hround : ¬ (Cursor.mk greater.stop
      (⟨.opening .curly, brace⟩ :: ⟨.identifier text, span⟩ :: rest)).opens .round := by
    apply Cursor.not_opens_cons rfl
    exact nofun
  exact ⟨lambda, body, .call ht (.noArguments hround) (.trailing rfl rfl hd) rfl⟩

end

namespace Source

variable {source : Source}

theorem buildersIn_move (whole verb argument target callee : Span) (name : String)
    (nodes : List Outline) :
    source.buildersIn (moveOutline whole verb argument target callee name nodes) =
      source.buildersIn (.call target (.identifier callee (bareName name)) [] nodes none) := by
  have hmove := source.buildersIn_call whole verb "transitionTo" []
    [.valueArgument argument none (.call target (.identifier callee (bareName name)) [] nodes none)]
    none
  rw [List.flatMap_singleton, buildersIn_valueArgument, Option.toList_none, List.flatMap_nil,
    List.append_nil] at hmove
  exact hmove

theorem buildersIn_declaration (whole verb type lambda body : Span) (word : String)
    (line : Outline) :
    source.buildersIn (declarationOutline whole verb type lambda body word line) =
      source.buildersIn line := by
  have hcall := source.buildersIn_call whole verb (bareName word) [type] []
    (some (.lambda lambda none (.block body [line])))
  rw [List.flatMap_nil, List.nil_append, Option.toList_some, List.flatMap_singleton,
    buildersIn_lambda, List.flatMap_singleton] at hcall
  exact hcall

end Source

theorem ofNode?_declaration (whole verb type lambda body : Span) (word : String)
    (line : Outline) (f : Span → Place) :
    BuilderCall.ofNode? ((declarationOutline whole verb type lambda body word line).map f) =
      some ⟨bareName word, [.typeArgument (f type)], [],
        some (.lambda (f lambda) none (.block (f body) [line.map f]))⟩ := by
  simp [declarationOutline, Node.map_call, BuilderCall.ofNode?, Node.identifierName?]

theorem described_handler {line : Outline} {f : Span → Place} {transition : Transition}
    (whole verb type lambda body whole' verb' type' lambda' body' : Span)
    (h : ∀ state, (BuilderCall.all [line.map f]).filterMap
      (·.transition? state (f type').text) = [transition]) :
    Machine.described [(declarationOutline whole verb type lambda body "state"
      (declarationOutline whole' verb' type' lambda' body' "on" line)).map f] =
        ⟨[.state { name := (f type).text, transitions := [transition] }]⟩ := by
  have hstate : bareName "state" = "state" := by decide +kernel
  have hon : bareName "on" = "on" := by decide +kernel
  have hall (word : String) (whole verb type lambda body : Span) (line : Outline) :
      BuilderCall.all [(declarationOutline whole verb type lambda body word line).map f] =
        [⟨bareName word, [.typeArgument (f type)], [],
          some (.lambda (f lambda) none (.block (f body) [line.map f]))⟩] := by
    simp [BuilderCall.all, ofNode?_declaration]
  simp [Machine.described, hall, hstate, hon, BuilderCall.declared?, BuilderCall.declaredState?,
    BuilderCall.declaredName?, BuilderCall.body?, Node.lambdaBody?, Node.statements, State.extended,
    Node.info, h]

def builderOutline (whole machine call create lambda body : Span) (line : Outline) : Outline :=
  .memberAccess whole (.identifier machine "StateMachine")
    (.call call (.identifier create "create") [] []
      (some (.lambda lambda none (.block body [line])))) false

section

variable {source : Source} {line : Outline} {text : String} {span machine dot create brace : Span}
  {rest : List Token} {stop : Nat}

theorem outline?_builder {close : Span}
    (ht : source.tokens = ⟨.identifier "StateMachine", machine⟩ :: ⟨.operator ".", dot⟩ ::
      ⟨.identifier "create", create⟩ :: ⟨.opening .curly, brace⟩ :: ⟨.identifier text, span⟩ :: rest)
    (h : Derives source n (.named text span ⟨span.stop, rest⟩ line
      ⟨stop, [⟨.closing .curly, close⟩]⟩))
    (ha : Unarrowed (⟨.identifier text, span⟩ :: rest))
    (hl : 2 * openings source.tokens + 1 ≤ limit) :
    ∃ whole call lambda body, source.outline? limit = some (.file ⟨0, source.size⟩
      [builderOutline whole machine call create lambda body line]) := by
  obtain ⟨lambda, body, hd⟩ := derives_inBraces h ha brace
  have hround : ¬ (Cursor.mk create.stop
      (⟨.opening .curly, brace⟩ :: ⟨.identifier text, span⟩ :: rest)).opens .round := by
    apply Cursor.not_opens_cons rfl
    exact nofun
  have hnone : readTypeArguments ⟨create.stop,
      ⟨.opening .curly, brace⟩ :: ⟨.identifier text, span⟩ :: rest⟩ =
        ([], ⟨create.stop, ⟨.opening .curly, brace⟩ :: ⟨.identifier text, span⟩ :: rest⟩) := by
    apply readTypeArguments_of_head
    rintro _ ⟨⟩
    exact nofun
  have hcreate : Derives source (n + 2) (.named "create" create ⟨create.stop,
      ⟨.opening .curly, brace⟩ :: ⟨.identifier text, span⟩ :: rest⟩
      (.call ⟨create.start, close.stop⟩ (.identifier create "create") [] []
        (some (.lambda lambda none (.block body [line])))) ⟨close.stop, []⟩) :=
    .call hnone (.noArguments hround) (.trailing rfl rfl hd) rfl
  have hends := EndsBody.nil.endsStatement
  have hexpression := hends.settled.endsExpression close.stop
  have hitem := Source.derives_create machine create Layout.Blank.nil 0 dot hcreate
    (.noSuffix hexpression.member hexpression.index)
  have hend : Derives source (n + 2 + 1) (.statements none ⟨close.stop, []⟩ []
      ⟨close.stop, []⟩) := .statementsEnd rfl
  have hstatements := derives_onlyStatement hitem hends hend 0
  exact ⟨_, _, _, _, Derives.outline? (ht ▸ hstatements) hl⟩

/-- The machine of such a builder stands behind those that are built in its line. -/
theorem machines_builder (source : Source) (whole machine call create lambda body place : Span)
    (line : Outline) :
    Builder.machines (source.buildersIn (.file place
      [builderOutline whole machine call create lambda body line])) = .ok machines ↔
        ∃ inner, Builder.machines (source.buildersIn line) = .ok inner ∧
          machines = inner ++ [Machine.described [line.map (Place.ofText ∘ source.slice)]] := by
  obtain ⟨place, hcreate⟩ := source.buildersIn_create whole machine call create []
    (.lambda lambda none (.block body [line]))
  have hcreate :
      source.buildersIn (builderOutline whole machine call create lambda body line) = _ :=
    hcreate
  rw [Source.buildersIn_file, List.flatMap_singleton, hcreate, Source.buildersIn_lambda,
    List.flatMap_singleton, Builder.machines_insert]
  have hmachine : Builder.machine (place,
      ⟨[], some ((Node.lambda lambda none (.block body [line])).map source.slice).placed⟩) =
        .ok (Machine.described [line.map (Place.ofText ∘ source.slice)]) := by
    rw [Node.placed, Node.map_map, Node.map, Node.map, List.map_singleton]
    exact Builder.machine_eq_ok.2 ⟨_, rfl, rfl⟩
  constructor
  · rintro ⟨inner, found, behind, hinner, hfound, hbehind, rfl⟩
    cases hmachine.symm.trans hfound
    cases hbehind
    exact ⟨inner, hinner, rfl⟩
  · rintro ⟨inner, hinner, rfl⟩
    exact ⟨inner, _, [], hinner, hmachine, rfl, rfl⟩

end

/-- A builder of a machine with a state, and in it a handler that moves to a state with
arguments. -/
def handlerParts (state event name : String) (trailing : Bool) (arguments : List String) :
    List String :=
  "StateMachine.create \x7b state<" :: state :: "> \x7b on<" :: event :: "> \x7b " ::
    (transitionParts name trailing arguments ++ [" \x7d \x7d \x7d"])

def handlerFront (state event : String) (type type' : Span) (k k' : Nat) : List Token :=
  [⟨.identifier "StateMachine", ⟨0, 12⟩⟩, ⟨.operator ".", ⟨12, 13⟩⟩,
    ⟨.identifier "create", ⟨13, 19⟩⟩, ⟨.opening .curly, ⟨20, 21⟩⟩,
    ⟨.identifier "state", ⟨22, 27⟩⟩, ⟨.operator "<", ⟨27, 28⟩⟩, ⟨.identifier state, type⟩,
    ⟨.operator ">", Span.shift k ⟨0, 1⟩⟩, ⟨.opening .curly, Span.shift k ⟨2, 3⟩⟩,
    ⟨.identifier "on", Span.shift k ⟨4, 6⟩⟩, ⟨.operator "<", Span.shift k ⟨6, 7⟩⟩,
    ⟨.identifier event, type'⟩,
    ⟨.operator ">", Span.shift k' ⟨0, 1⟩⟩, ⟨.opening .curly, Span.shift k' ⟨2, 3⟩⟩]

theorem tokenize_create : Token.tokenize "StateMachine.create \x7b state<" =
    [⟨.identifier "StateMachine", ⟨0, 12⟩⟩, ⟨.operator ".", ⟨12, 13⟩⟩,
      ⟨.identifier "create", ⟨13, 19⟩⟩, ⟨.opening .curly, ⟨20, 21⟩⟩,
      ⟨.identifier "state", ⟨22, 27⟩⟩, ⟨.operator "<", ⟨27, 28⟩⟩] := by
  decide +kernel

theorem tokenize_on : Token.tokenize "> \x7b on<" =
    [⟨.operator ">", ⟨0, 1⟩⟩, ⟨.opening .curly, ⟨2, 3⟩⟩, ⟨.identifier "on", ⟨4, 6⟩⟩,
      ⟨.operator "<", ⟨6, 7⟩⟩] := by
  decide +kernel

theorem tokenize_body : Token.tokenize "> \x7b " =
    [⟨.operator ">", ⟨0, 1⟩⟩, ⟨.opening .curly, ⟨2, 3⟩⟩] := by
  decide +kernel

theorem tokenize_closing : Token.tokenize " \x7d \x7d \x7d" =
    [⟨.closing .curly, ⟨1, 2⟩⟩, ⟨.closing .curly, ⟨3, 4⟩⟩, ⟨.closing .curly, ⟨5, 6⟩⟩] := by
  decide +kernel

section

variable {source : Source} {state event name : String} {trailing : Bool} {arguments : List String}

theorem slice_name {parts : List String} {offset : Nat}
    (h : StandsAt source.text offset (String.join (name :: parts)).toList) :
    source.slice ⟨offset, offset + byteSize name.toList⟩ = name :=
  (congrArg String.ofList (standsAt_join h).1.slice_eq).trans String.ofList_toList

theorem exists_handlerFront (hs : NameText state) (he : NameText event)
    (h : StandsAt source.text 0
      (String.join (handlerParts state event name trailing arguments)).toList) :
    ∃ type type' k k' offset, Token.inPlace 0 (handlerParts state event name trailing arguments) =
        handlerFront state event type type' k k' ++ Token.inPlace offset
          (transitionParts name trailing arguments ++ [" \x7d \x7d \x7d"]) ∧
      source.slice type = state ∧ source.slice type' = event ∧
      StandsAt source.text offset
        (String.join (transitionParts name trailing arguments ++ [" \x7d \x7d \x7d"])).toList := by
  have hstate := (standsAt_join h).2
  have hevent := (standsAt_join (standsAt_join hstate).2).2
  let k := 0 + byteSize "StateMachine.create \x7b state<".toList + byteSize state.toList
  refine ⟨_, _, k, k + byteSize "> \x7b on<".toList + byteSize event.toList, _, ?_,
    slice_name hstate, slice_name hevent, (standsAt_join (standsAt_join hevent).2).2⟩
  rw [handlerParts, Token.inPlace, tokenize_create, inPlace_cons hs.tokens, Token.inPlace,
    tokenize_on, inPlace_cons he.tokens, Token.inPlace, tokenize_body]
  rfl

theorem mem_block_preorder (lambda body : Span) (line : Outline) :
    line ∈ (Node.lambda lambda none (.block body [line])).preorder :=
  Node.mem_preorder_trans (Node.lambdaBody_mem_preorder rfl)
    (Node.mem_preorder_of_child (List.mem_singleton_self line))

theorem mem_declaration_preorder (whole verb type lambda body : Span) (word : String)
    (line : Outline) :
    line ∈ (declarationOutline whole verb type lambda body word line).preorder := by
  apply Node.mem_preorder_trans _ (mem_block_preorder lambda body line)
  apply Node.mem_preorder_of_child
  simp [declarationOutline, Node.children]

theorem mem_move_preorder (whole verb argument target callee : Span) (name : String)
    (nodes : List Outline) :
    Node.call target (.identifier callee (bareName name)) [] nodes none ∈
      (moveOutline whole verb argument target callee name nodes).preorder := by
  apply Node.mem_preorder_trans _ (Node.argumentExpression_mem_preorder
    (.valueArgument argument none (.call target (.identifier callee (bareName name)) [] nodes none)))
  apply Node.mem_preorder_of_child
  simp [moveOutline, Node.children]

/-- The line is a state with a handler that makes the call, and describes the machine. -/
structure HandlerLine (source : Source) (machine : Machine) (line call : Outline) : Prop where
  described : Machine.described [line.map (Place.ofText ∘ source.slice)] = machine
  buildersIn : source.buildersIn line = source.buildersIn call
  mem : call ∈ line.preorder

def handlerMachine (state event name : String) (arguments : List String) : Machine :=
  ⟨[.state { name := state, transitions := [{ event, target := name, arguments }] }]⟩

theorem handlerLine {type type' callee : Span} {nodes : List Outline}
    (ht : source.slice type = state) (ht' : source.slice type' = event)
    (hc : source.slice callee = name) (hn : AreArguments source arguments nodes)
    (whole verb lambda body whole' verb' lambda' body' move word argument target : Span) :
    HandlerLine source (handlerMachine state event name (arguments.map verbatim))
      (declarationOutline whole verb type lambda body "state"
        (declarationOutline whole' verb' type' lambda' body' "on"
          (moveOutline move word argument target callee name nodes)))
      (.call target (.identifier callee (bareName name)) [] nodes none) where
  described := by
    have htext (span : Span) : ((Place.ofText ∘ source.slice) span).text = source.slice span := rfl
    have harguments := (hn.valueArguments htext).texts_eq
    rw [List.map_map] at harguments
    have hmoves : ∀ state, (BuilderCall.all [(moveOutline move word argument target callee name
        nodes).map (Place.ofText ∘ source.slice)]).filterMap
          (·.transition? state ((Place.ofText ∘ source.slice) type').text) =
            [{ event, target := name, arguments := arguments.map verbatim }] := by
      intro state
      rw [transition?_move, htext, htext, ht', hc, ← harguments]
      simp [Node.info_map]
    rw [described_handler _ _ _ _ _ _ _ _ _ _ hmoves, htext, ht]
    rfl
  buildersIn := by
    rw [Source.buildersIn_declaration, Source.buildersIn_declaration, Source.buildersIn_move]
  mem := Node.mem_preorder_trans (mem_declaration_preorder ..)
    (Node.mem_preorder_trans (mem_declaration_preorder ..) (mem_move_preorder ..))

theorem unarrowed_sign : ∀ sign ∈ ["(", ", ", ",", ")"], Unarrowed (Token.tokenize sign) := by
  intro sign hm
  apply Unarrowed.of_forall
  simp only [List.mem_cons, List.not_mem_nil, or_false] at hm
  rcases hm with rfl | rfl | rfl | rfl <;> decide +kernel

theorem unarrowed_transitionParts (hf : NameText name)
    (ha : ∀ text ∈ arguments, ArgumentText text) (trailing : Bool) (offset : Nat) :
    Unarrowed (Token.inPlace offset
      (transitionParts name trailing arguments ++ [" \x7d \x7d \x7d"])) := by
  apply unarrowed_inPlace
  have hname : Unarrowed (Token.tokenize name) := by
    rw [hf.tokens]
    exact .cons nofun .nil
  have hcall := forall_callParts hname (fun text hm => .of_outside (ha text hm).arrowless)
    unarrowed_sign trailing
  intro part hm
  rcases List.mem_append.1 hm with hm | hm
  · rcases List.mem_cons.1 hm with rfl | hm
    · rw [tokenize_transitionTo]
      exact .cons nofun (.cons nofun .nil)
    rcases List.mem_append.1 hm with hm | hm
    · exact hcall part hm
    · obtain rfl := List.mem_singleton.1 hm
      exact unarrowed_sign ")" (by simp)
  · obtain rfl := List.mem_singleton.1 hm
    rw [tokenize_closing]
    exact .cons nofun (.cons nofun (.cons nofun .nil))

theorem outline?_handlerParts (hs : NameText state) (he : NameText event) (hf : NameText name)
    (hne : arguments ≠ []) (ha : ∀ text ∈ arguments, ArgumentText text)
    (h : StandsAt source.text 0
      (String.join (handlerParts state event name trailing arguments)).toList)
    (ht : source.tokens = Token.inPlace 0 (handlerParts state event name trailing arguments))
    (hl : 2 * openings source.tokens + 1 ≤ limit) :
    ∃ whole machine call create lambda body line target callee nodes,
      source.outline? limit = some (.file ⟨0, source.size⟩
        [builderOutline whole machine call create lambda body line]) ∧
      HandlerLine source (handlerMachine state event name (arguments.map verbatim)) line
        (.call target (.identifier callee (bareName name)) [] nodes none) ∧
      source.slice callee = name ∧ AreArguments source arguments nodes := by
  obtain ⟨type, type', k, k', offset, htokens, htype, htype', hmove⟩ := exists_handlerFront hs he h
  have hsuffix : Token.inPlace offset (transitionParts name trailing arguments ++
      [" \x7d \x7d \x7d"]) <:+ source.tokens := by
    rw [ht, htokens]
    exact List.suffix_append ..
  have hends (stop : Nat) : EndsStatement (Token.inPlace stop [" \x7d \x7d \x7d"]) := by
    rw [Token.inPlace, tokenize_closing]
    exact (EndsBody.closing rfl).endsStatement
  obtain ⟨stop, verb, callee, rest, hrest, hslice, -, hd⟩ := exists_move hf hne ha hmove hsuffix
    fun stop => (hends stop).not_opens .curly stop
  obtain ⟨nodes, argument, target, hnodes, hd⟩ := hd _ (Nat.le_refl _)
  have hunarrowed := unarrowed_transitionParts hf ha trailing offset
  rw [hrest] at htokens hunarrowed
  rw [Token.inPlace, tokenize_closing] at hd
  obtain ⟨lambda', body', hon⟩ := derives_declaration "on" (Span.shift k ⟨4, 6⟩)
    (Span.shift k ⟨6, 7⟩) event type' (Span.shift k' ⟨0, 1⟩) (Span.shift k' ⟨2, 3⟩) hd hunarrowed
    rfl
  have hline := hunarrowed.declaration "on" event (Span.shift k ⟨4, 6⟩) (Span.shift k ⟨6, 7⟩) type'
    (Span.shift k' ⟨0, 1⟩) (Span.shift k' ⟨2, 3⟩)
  obtain ⟨lambda, body, hstate⟩ := derives_declaration "state" ⟨22, 27⟩ ⟨27, 28⟩ state type
    (Span.shift k ⟨0, 1⟩) (Span.shift k ⟨2, 3⟩) hon hline rfl
  have hfront := hline.declaration "state" state ⟨22, 27⟩ ⟨27, 28⟩ type (Span.shift k ⟨0, 1⟩)
    (Span.shift k ⟨2, 3⟩)
  rw [htokens] at ht
  obtain ⟨whole, call, outer, inner, ho⟩ := outline?_builder ht hstate hfront hl
  exact ⟨_, _, _, _, _, _, _, _, _, _, ho, handlerLine htype htype' hslice hnodes .., hslice,
    hnodes⟩

end

end StateDiagram
