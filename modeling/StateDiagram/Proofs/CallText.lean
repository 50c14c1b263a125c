import StateDiagram.Proofs.InPlace
import StateDiagram.Proofs.Threshold

namespace StateDiagram

set_option autoImplicit true

open Text

/-- A text that is a single name. -/
structure NameText (text : String) : Prop where
  cr : '\r' ∉ text.toList
  tokens : Token.tokenize text = [⟨.identifier text, ⟨0, byteSize text.toList⟩⟩]

/-- A name and the arguments that it is called with. -/
def callParts (name : String) (trailing : Bool) (arguments : List String) : List String :=
  name :: "(" :: argumentParts trailing arguments

/-- The nodes are arguments of a call, and their texts are the given ones, verbatim. -/
def AreArguments (source : Source) (arguments : List String) (nodes : List Outline) : Prop :=
  List.Forall₂ (fun text node => (∃ span name expression, node = .valueArgument span name expression) ∧
    source.slice node.info = verbatim text) arguments nodes

theorem inPlace_open (offset : Nat) (parts : List String) :
    Token.inPlace offset ("(" :: parts) =
      ⟨.opening .round, ⟨offset, offset + 1⟩⟩ :: Token.inPlace (offset + 1) parts :=
  inPlace_cons (by decide +kernel) ..

theorem areArguments_of_covering {source : Source} {arguments : List String}
    {tokens : List (List Token)} {nodes : List Outline}
    (ha : ∀ text ∈ arguments, ArgumentText text)
    (ht : List.Forall₂ source.Has arguments tokens) (hn : List.Forall₂ Covering tokens nodes) :
    AreArguments source arguments nodes := by
  induction ht generalizing nodes with
  | nil =>
    cases hn
    exact .nil
  | cons hhas _ ih =>
    cases hn with
    | cons hcovers hn =>
      obtain ⟨htext, ha⟩ := List.forall_mem_cons.1 ha
      obtain ⟨k, rfl, hs⟩ := hhas
      refine .cons ⟨?_, hcovers.slice_eq htext hs⟩ (ih ha hn)
      obtain ⟨span, name, expression, he, _⟩ := hcovers
      exact ⟨span, name, expression, he⟩

section

variable {source : Source} {name : String} {arguments after : List String} {trailing : Bool}
  {offset : Nat}

theorem Source.sound_of_suffix (source : Source) {token : Token} {rest : List Token}
    (h : token :: rest <:+ source.tokens) : (Cursor.past token rest).Sound source := by
  obtain ⟨front, hf⟩ := h
  exact (source.sound_tokens.heads hf.symm).sound

theorem exists_call (hf : NameText name) (hne : arguments ≠ [])
    (ha : ∀ text ∈ arguments, ArgumentText text)
    (hs : StandsAt source.text offset
      (String.join (callParts name trailing arguments ++ after)).toList)
    (hc : Token.inPlace offset (callParts name trailing arguments ++ after) <:+ source.tokens)
    (hb : ∀ stop, ¬ (Cursor.mk stop (Token.inPlace stop after)).opens .curly) :
    ∃ stop callee opener rest,
      Token.inPlace offset (callParts name trailing arguments ++ after) =
        ⟨.identifier name, callee⟩ :: ⟨.opening .round, opener⟩ :: rest ∧
      source.slice callee = name ∧ StandsAt source.text stop (String.join after).toList ∧
      ∀ n, 2 * rest.length ≤ n → ∃ nodes, AreArguments source arguments nodes ∧
        Derives source n (.named name callee ⟨callee.stop, ⟨.opening .round, opener⟩ :: rest⟩
          (.call ⟨callee.start, stop⟩ (.identifier callee (bareName name)) [] nodes none)
          ⟨stop, Token.inPlace stop after⟩) := by
  have hparts : callParts name trailing arguments ++ after =
      name :: "(" :: (argumentParts trailing arguments ++ after) := rfl
  rw [hparts] at hs hc ⊢
  obtain ⟨hname, hs⟩ := standsAt_join hs
  obtain ⟨-, hs⟩ := standsAt_join hs
  obtain ⟨stop, tokens, hlist, hhas, hafter⟩ := exists_argumentList trailing hne ha hs
  rw [inPlace_cons hf.tokens, inPlace_open] at hc ⊢
  have hslice : source.slice ⟨offset, offset + byteSize name.toList⟩ = name :=
    (congrArg String.ofList hname.slice_eq).trans String.ofList_toList
  refine ⟨stop + 1, _, _, _, rfl, hslice, hafter, ?_⟩
  intro n hn
  have hsound := source.sound_of_suffix ((List.suffix_cons ..).trans hc)
  obtain ⟨nodes, hnodes, hd⟩ := hlist.exists_named rfl rfl (hb _) hsound hn name _
  exact ⟨nodes, areArguments_of_covering ha hhas hnodes, hd⟩

/-- The call of a name that moves to a state. -/
def transitionParts (name : String) (trailing : Bool) (arguments : List String) : List String :=
  "transitionTo(" :: (callParts name trailing arguments ++ [")"])

end

section

variable {source : Source} {token first : Token} {rest behind : List Token} {node : Outline}
  {stop prior : Nat}

/-- A call that ends in front of what ends an expression. -/
theorem Derives.expression_of_named
    (h : Derives source n (.named text span ⟨span.stop, rest⟩ node ⟨stop, behind⟩))
    (he : (Cursor.mk stop behind).EndsExpression) :
    Derives source (n + 1) (.expression ⟨.identifier text, span⟩
      (.past ⟨.identifier text, span⟩ rest) node ⟨stop, behind⟩) :=
  .expression (.name rfl h) (.noSuffix he.member he.index)

theorem derives_onlyArgument
    (h : Derives source n (.named text span ⟨span.stop, first :: rest⟩ node
      ⟨stop, token :: behind⟩))
    (hf : first.lexeme = .opening .round) (ht : token.lexeme = .closing .round) (prior : Nat) :
    Derives source (n + 1)
      (.valueArguments ⟨prior, ⟨.identifier text, span⟩ :: first :: rest⟩
        [.valueArgument ⟨span.start, node.info.stop⟩ none node] (.past token behind)) := by
  have hplain : Lexeme.isPlain (.identifier text) = true := rfl
  have hends : EndsStatement (token :: behind) := (EndsBody.closing ht).endsStatement
  have hexpression := h.expression_of_named (hends.settled.endsExpression stop)
  have hname : readArgumentName ⟨prior, ⟨.identifier text, span⟩ :: first :: rest⟩ =
      (none, ⟨prior, ⟨.identifier text, span⟩ :: first :: rest⟩) := by
    apply readArgumentName_of_head
    rintro _ _ _ ⟨⟩
    rw [hf]
    exact nofun
  have hitems : Derives source (n + 1) (.items .argument false
      (readArgumentName ⟨prior, ⟨.identifier text, span⟩ :: first :: rest⟩).2 [node]
      ⟨stop, token :: behind⟩) := by
    rw [hname]
    exact .item rfl (Lexeme.starts_of_isPlain hplain .argument) hexpression
      (.itemsStop rfl (.inl (by rw [ht]; rfl)))
  have hclose : Derives source (n + 1) (.valueArguments ⟨stop, token :: behind⟩ []
      (if Bracket.round = .round then .past token behind else ⟨stop, token :: behind⟩)) :=
    .argumentsClose rfl ht
  rw [if_pos rfl] at hclose
  have hargument := Derives.argument rfl (Lexeme.starts_of_isPlain hplain .argument) hitems hclose
  rwa [hname] at hargument

def moveOutline (whole verb argument target callee : Span) (name : String)
    (nodes : List Outline) : Outline :=
  .call whole (.identifier verb "transitionTo") []
    [.valueArgument argument none (.call target (.identifier callee (bareName name)) [] nodes none)]
    none

theorem tokenize_transitionTo : Token.tokenize "transitionTo(" =
    [⟨.identifier "transitionTo", ⟨0, 12⟩⟩, ⟨.opening .round, ⟨12, 13⟩⟩] := by
  decide +kernel

theorem transitionParts_append (name : String) (trailing : Bool) (arguments after : List String) :
    transitionParts name trailing arguments ++ after =
      "transitionTo(" :: (callParts name trailing arguments ++ ")" :: after) := by
  rw [transitionParts, List.cons_append, List.append_assoc]
  rfl

theorem inPlace_transitionTo (offset : Nat) (parts : List String) :
    Token.inPlace offset ("transitionTo(" :: parts) =
      ⟨.identifier "transitionTo", Span.shift offset ⟨0, 12⟩⟩ ::
        ⟨.opening .round, Span.shift offset ⟨12, 13⟩⟩ ::
          Token.inPlace (offset + byteSize "transitionTo(".toList) parts := by
  rw [Token.inPlace, tokenize_transitionTo]
  rfl

theorem exists_move {name : String} {arguments after : List String} {trailing : Bool}
    {offset : Nat} (hf : NameText name) (hne : arguments ≠ [])
    (ha : ∀ text ∈ arguments, ArgumentText text)
    (hs : StandsAt source.text offset
      (String.join (transitionParts name trailing arguments ++ after)).toList)
    (hc : Token.inPlace offset (transitionParts name trailing arguments ++ after) <:+
      source.tokens)
    (hb : ∀ stop, ¬ (Cursor.mk stop (Token.inPlace stop after)).opens .curly) :
    ∃ stop verb callee rest,
      Token.inPlace offset (transitionParts name trailing arguments ++ after) =
        ⟨.identifier "transitionTo", verb⟩ :: rest ∧
      source.slice callee = name ∧ StandsAt source.text stop (String.join after).toList ∧
      ∀ n, 2 * rest.length ≤ n → ∃ nodes argument target, AreArguments source arguments nodes ∧
        Derives source (n + 1) (.named "transitionTo" verb ⟨verb.stop, rest⟩
          (moveOutline ⟨verb.start, stop⟩ verb argument target callee name nodes)
          ⟨stop, Token.inPlace stop after⟩) := by
  rw [transitionParts_append] at hs hc ⊢
  obtain ⟨-, hs⟩ := standsAt_join hs
  rw [inPlace_transitionTo] at hc ⊢
  have hround (stop : Nat) :
      ¬ (Cursor.mk stop (Token.inPlace stop (")" :: after))).opens .curly := by
    rw [inPlace_round]
    apply Cursor.not_opens_cons rfl
    intro h
    cases h
  have hsuffix := ((List.suffix_cons ..).trans (List.suffix_cons ..)).trans hc
  obtain ⟨stop, callee, opener, rest, hrest, hslice, hstands, hcall⟩ :=
    exists_call hf hne ha hs hsuffix hround
  obtain ⟨-, hafter⟩ := standsAt_join hstands
  rw [hrest]
  refine ⟨stop + 1, _, callee, _, rfl, hslice, hafter, ?_⟩
  intro n hn
  have hle : 2 * rest.length ≤ n := by
    simp only [List.length_cons] at hn
    omega
  obtain ⟨nodes, hnodes, hd⟩ := hcall n hle
  rw [inPlace_round] at hd
  have hvalues := derives_onlyArgument hd rfl rfl (Span.shift offset ⟨12, 13⟩).stop
  have hend : ¬ (Cursor.past ⟨.closing .round, ⟨stop, stop + 1⟩⟩
      (Token.inPlace (stop + 1) after)).opens .curly := hb (stop + 1)
  refine ⟨nodes, _, _, hnodes, .call (readTypeArguments_of_head ?_)
    (.arguments rfl rfl hvalues) (.noLambda hend) rfl⟩
  intro token ht he
  cases ht
  cases he

/-- The transition is the same whatever places the nodes are given. -/
theorem transition?_move (whole verb argument target callee : Span) (name : String)
    (nodes : List Outline) (f : Span → Place) (state event : String) :
    (BuilderCall.all [(moveOutline whole verb argument target callee name nodes).map f]).filterMap
      (·.transition? state event) =
        [{ event, target := (f callee).text,
           arguments := nodes.map fun node => (f node.info).text }] := by
  have hcallee : (Node.identifier (f callee) (bareName name)).info = f callee := rfl
  simp [moveOutline, Node.map_call, BuilderCall.all, BuilderCall.ofNode?, BuilderCall.transition?,
    BuilderCall.argument?, Transition.toTarget, Node.identifierName?, Node.argumentExpression,
    Node.info_map, hcallee]

theorem derives_onlyItem
    (h : Derives source n (.expression ⟨.identifier text, span⟩
      (.past ⟨.identifier text, span⟩ rest) node ⟨stop, behind⟩))
    (he : EndsStatement behind) (prior : Nat) :
    Derives source n (.items .statement false ⟨prior, ⟨.identifier text, span⟩ :: rest⟩ [node]
      ⟨stop, behind⟩) := by
  have hend : Derives source n (.items .statement false ⟨stop, behind⟩ [] ⟨stop, behind⟩) :=
    he.derives stop
  rw [← Bool.and_false node.isToken] at hend
  exact .item rfl (Lexeme.starts_of_isPlain rfl .statement) h hend

theorem derives_onlyStatement
    (h : Derives source n (.expression ⟨.identifier text, span⟩
      (.past ⟨.identifier text, span⟩ rest) node ⟨stop, behind⟩))
    (he : EndsStatement behind)
    (hs : Derives source n (.statements close ⟨stop, behind⟩ [] ⟨stop, behind⟩)) (prior : Nat) :
    Derives source n (.statements close ⟨prior, ⟨.identifier text, span⟩ :: rest⟩ [node]
      ⟨stop, behind⟩) :=
  .statement rfl (Lexeme.starts_of_isPlain rfl .statement) (derives_onlyItem h he prior) hs

end

theorem mem_of_mem_intersperse {sep part : String} {parts : List String}
    (h : part ∈ parts.intersperse sep) : part = sep ∨ part ∈ parts := by
  induction parts with
  | nil => cases h
  | cons first parts ih =>
    cases parts with
    | nil => exact .inr h
    | cons second parts =>
      rw [List.intersperse_cons_cons] at h
      rcases List.mem_cons.1 h with rfl | h
      · exact .inr List.mem_cons_self
      · rcases List.mem_cons.1 h with rfl | h
        · exact .inl rfl
        · exact (ih h).imp_right (List.mem_cons_of_mem _)

theorem forall_callParts {P : String → Prop} {name : String} {arguments : List String}
    (hf : P name) (ha : ∀ text ∈ arguments, P text) (hs : ∀ sign ∈ ["(", ", ", ",", ")"], P sign)
    (trailing : Bool) : ∀ part ∈ callParts name trailing arguments, P part := by
  intro part hm
  rcases List.mem_cons.1 hm with rfl | hm
  · exact hf
  rcases List.mem_cons.1 hm with rfl | hm
  · exact hs _ (by simp)
  rcases List.mem_append.1 hm with hm | hm
  · rcases List.mem_append.1 hm with hm | hm
    · rcases mem_of_mem_intersperse hm with rfl | hm
      · exact hs _ (by simp)
      · exact ha part hm
    · cases trailing with
      | false => cases hm
      | true =>
        obtain rfl := List.mem_singleton.1 hm
        exact hs _ (by simp)
  · obtain rfl := List.mem_singleton.1 hm
    exact hs _ (by simp)

section

variable {parts : List String}

theorem text_join (h : ∀ part ∈ parts, '\r' ∉ part.toList) :
    (Source.ofString (String.join parts)).text = (String.join parts).toList := by
  rw [Source.ofString_of_not_mem]
  rw [String.toList_join, List.mem_flatMap]
  rintro ⟨part, hm, hr⟩
  exact h part hm hr

theorem tokens_join (h : ∀ part ∈ parts, '\r' ∉ part.toList)
    (ht : Token.tokenize (String.join parts) = Token.inPlace 0 parts) :
    (Source.ofString (String.join parts)).tokens = Token.inPlace 0 parts := by
  rw [Source.tokens, text_join h]
  exact ht

theorem standsAt_join_self (h : ∀ part ∈ parts, '\r' ∉ part.toList) :
    StandsAt (Source.ofString (String.join parts)).text 0 (String.join parts).toList := by
  rw [text_join h]
  exact ⟨[], [], by rw [List.append_nil, List.nil_append], rfl⟩

end

/-- The statements of a source that are read under some limit are read under any sufficient one. -/
theorem Derives.outline? {source : Source}
    (h : Derives source n (.statements none ⟨0, source.tokens⟩ nodes next))
    (hl : 2 * openings source.tokens + 1 ≤ limit) :
    source.outline? limit = some (.file ⟨0, source.size⟩ nodes) :=
  Source.outline?_of_allows (Source.outline?_eq_some_iff.2 ⟨nodes, next, rfl, h⟩) (.inr hl)

/-- The nodes are arguments of a call, and their texts are the given ones. -/
structure ValueArguments (texts : List String) (nodes : List SyntaxTree) : Prop where
  shape : ∀ node ∈ nodes, ∃ place name expression, node = .valueArgument place name expression
  texts_eq : nodes.map (·.info.text) = texts

theorem AreArguments.valueArguments {source : Source} {f : Span → Place}
    (h : AreArguments source arguments nodes) (hf : ∀ span, (f span).text = source.slice span) :
    ValueArguments (arguments.map verbatim) (nodes.map (Node.map f)) := by
  induction h with
  | nil => exact ⟨nofun, rfl⟩
  | @cons text node _ _ hnode _ ih =>
    obtain ⟨⟨span, name, expression, rfl⟩, ht⟩ := hnode
    refine ⟨List.forall_mem_cons.2 ⟨⟨f span, name, expression.map f, by rw [Node.map]⟩, ih.shape⟩,
      ?_⟩
    rw [List.map_cons, List.map_cons, List.map_cons, ih.texts_eq, Node.info_map, hf, ht]

/-- A source that is a call has that call as its only statement. -/
theorem outline?_callParts {source : Source} {name : String} {arguments : List String}
    {trailing : Bool} (hf : NameText name) (hne : arguments ≠ [])
    (ha : ∀ text ∈ arguments, ArgumentText text)
    (hs : StandsAt source.text 0 (String.join (callParts name trailing arguments)).toList)
    (ht : source.tokens = Token.inPlace 0 (callParts name trailing arguments))
    (hl : 2 * openings source.tokens + 1 ≤ limit) :
    ∃ place callee nodes, source.outline? limit = some (.file ⟨0, source.size⟩
        [.call place (.identifier callee (bareName name)) [] nodes none]) ∧
      source.slice callee = name ∧ AreArguments source arguments nodes := by
  have hsuffix : Token.inPlace 0 (callParts name trailing arguments ++ []) <:+ source.tokens := by
    rw [List.append_nil]
    exact ht ▸ List.suffix_rfl
  rw [← List.append_nil (callParts name trailing arguments)] at hs
  have hend (stop : Nat) : ¬ (Cursor.mk stop (Token.inPlace stop [])).opens .curly := nofun
  obtain ⟨stop, callee, opener, rest, hrest, hslice, -, hcall⟩ :=
    exists_call hf hne ha hs hsuffix hend
  obtain ⟨nodes, hnodes, hd⟩ := hcall _ (Nat.le_refl _)
  have hnone : Derives source (2 * rest.length + 1) (.statements none
      ⟨stop, Token.inPlace stop []⟩ [] ⟨stop, Token.inPlace stop []⟩) := .statementsEnd rfl
  have hends := EndsBody.nil.endsStatement
  have hexpression := hd.expression_of_named (hends.settled.endsExpression stop)
  have hstatements := derives_onlyStatement hexpression hends hnone 0
  rw [← hrest, List.append_nil, ← ht] at hstatements
  exact ⟨_, callee, nodes, hstatements.outline? hl, hslice, hnodes⟩

/-- A call with any arguments is parsed as one, with these arguments. -/
theorem parse_callParts {name : String} {arguments : List String} {trailing : Bool}
    (hf : NameText name) (hne : arguments ≠ []) (ha : ∀ text ∈ arguments, ArgumentText text)
    (ht : Token.tokenize (String.join (callParts name trailing arguments)) =
      Token.inPlace 0 (callParts name trailing arguments))
    (hl : 2 * openings (Token.tokenize (String.join (callParts name trailing arguments))) + 1 ≤
      limit) :
    ∃ whole place callee nodes,
      SyntaxTree.parse limit (String.join (callParts name trailing arguments)) =
        .ok (.file whole [.call place (.identifier callee (bareName name)) [] nodes none]) ∧
      callee.text = name ∧ ValueArguments (arguments.map verbatim) nodes := by
  have hcr : ∀ part ∈ callParts name trailing arguments, '\r' ∉ part.toList :=
    forall_callParts hf.cr (fun text hm => (ha text hm).cr) (by decide) trailing
  have htokens := tokens_join hcr ht
  rw [ht, ← htokens] at hl
  obtain ⟨place, callee, nodes, ho, hslice, hnodes⟩ :=
    outline?_callParts hf hne ha (standsAt_join_self hcr) htokens hl
  have hp := Source.parse_eq_ok_iff.2 ⟨_, ho, rfl⟩
  rw [Node.map, List.map_singleton, Node.map_call, Node.map] at hp
  exact ⟨_, _, _, _, hp, hslice, hnodes.valueArguments fun _ => rfl⟩

theorem EndsStatement.not_opens (h : EndsStatement behind) (bracket : Bracket) (stop : Nat) :
    ¬ (Cursor.mk stop behind).opens bracket := by
  apply Cursor.not_opens
  intro token hm
  rcases h.head token hm with ht | ht
  · rw [ht]
    rfl
  · cases hl : token.lexeme <;> rw [hl] at ht <;> first | rfl | cases ht

theorem EndsStatement.inPlace {text : String} (h : EndsStatement (Token.tokenize text))
    (offset : Nat) : EndsStatement (Token.inPlace offset [text]) := by
  rw [Token.inPlace, Token.inPlace]
  constructor
  · intro token hm
    rw [List.append_nil, List.head?_map] at hm
    obtain ⟨first, hfirst, rfl⟩ := Option.map_eq_some_iff.1 hm
    exact h.head first hfirst
  · exact (leadsOn_within rfl _).trans h.leads

/-- Wherever the move to a state stands and a statement ends behind it, it is read as a statement
of its own, and the transition has the state as its target and the arguments verbatim. -/
theorem readSequence_move {source : Source} {name : String} {arguments : List String}
    {trailing : Bool} {offset : Nat} {behind : String} (hf : NameText name)
    (hne : arguments ≠ []) (ha : ∀ text ∈ arguments, ArgumentText text)
    (hs : StandsAt source.text offset
      (String.join (transitionParts name trailing arguments ++ [behind])).toList)
    (hc : Token.inPlace offset (transitionParts name trailing arguments ++ [behind]) <:+
      source.tokens)
    (he : EndsStatement (Token.tokenize behind))
    (hl : 2 * openings (Token.inPlace offset
      (transitionParts name trailing arguments ++ [behind])) + 1 ≤ limit) (prior : Nat) :
    ∃ move stop, readSequence (expressionWithin source limit) .statement
        ⟨prior, Token.inPlace offset (transitionParts name trailing arguments ++ [behind])⟩ =
          some (some move, ⟨stop, Token.inPlace stop [behind]⟩) ∧
      ∀ state event, (BuilderCall.all [move.map source.locate]).filterMap
        (·.transition? state event) =
          [{ event, target := name, arguments := arguments.map verbatim }] := by
  obtain ⟨stop, verb, callee, rest, hrest, hslice, -, hmove⟩ := exists_move hf hne ha hs hc
    fun stop => (he.inPlace stop).not_opens .curly stop
  obtain ⟨nodes, argument, target, hnodes, hd⟩ := hmove _ (Nat.le_refl _)
  have hends := he.inPlace stop
  have hexpression := hd.expression_of_named (hends.settled.endsExpression stop)
  rw [hrest] at hl
  have hitems := (derives_onlyItem hexpression hends prior).relax (.inr hl)
  have hread : sequenceItems (expressionWithin source limit) .statement false
      ⟨prior, ⟨.identifier "transitionTo", verb⟩ :: rest⟩ =
        some ([moveOutline ⟨verb.start, stop⟩ verb argument target callee name nodes],
          ⟨stop, Token.inPlace stop [behind]⟩) := hitems.isRead
  refine ⟨moveOutline ⟨verb.start, stop⟩ verb argument target callee name nodes, stop, ?_, ?_⟩
  · rw [hrest, readSequence, hread]
    rfl
  · intro state event
    have hlocate (span : Span) : (source.locate span).text = source.slice span := rfl
    have htexts := (hnodes.valueArguments hlocate).texts_eq
    rw [List.map_map] at htexts
    rw [transition?_move, hlocate, hslice, ← htexts]
    simp [Node.info_map]

end StateDiagram
