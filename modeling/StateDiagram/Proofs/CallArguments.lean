import StateDiagram.Proofs.HandlerText

namespace StateDiagram

set_option autoImplicit true

open Text

section

variable {state event name : String} {arguments : List String} {trailing : Bool}

theorem mem_builder_preorder {found line : Outline} (h : found ∈ line.preorder)
    (whole machine call create lambda body place : Span) :
    found ∈ (Node.file place
      [builderOutline whole machine call create lambda body line]).preorder := by
  have hblock := Node.mem_preorder_trans (mem_block_preorder lambda body line) h
  apply Node.mem_preorder_trans (Node.mem_preorder_of_child (List.mem_singleton_self _))
  apply Node.mem_preorder_trans (Node.mem_preorder_of_child
    (List.mem_cons_of_mem _ (List.mem_singleton_self _)))
  apply Node.mem_preorder_trans (Node.mem_preorder_of_child _) hblock
  simp [Node.children]

theorem HandlerLine.extractMachines {limits : Limits} {text : String} {machine : Machine}
    {line moved : Outline} {place whole name call create lambda body : Span}
    (h : HandlerLine (Source.ofString text) machine line moved)
    (ho : (Source.ofString text).outline? limits.syntaxDepth = some (.file place
      [builderOutline whole name call create lambda body line]))
    (hd : limits.syntaxDepth ≤ limits.extractionDepth) :
    ∃ tree, SyntaxTree.parse limits.syntaxDepth text = .ok tree ∧
      moved.map (Source.ofString text).locate ∈ tree.preorder ∧
      ∀ machines, StateDiagram.extractMachines limits text = .ok machines ↔
        ∃ inner, Builder.machines (SyntaxTree.builders (moved.map (Source.ofString text).locate)) =
            .ok inner ∧ machines = inner ++ [machine] := by
  refine ⟨_, Source.parse_eq_ok_iff.2 ⟨_, ho, rfl⟩, ?_, ?_⟩
  · rw [Node.preorder_map]
    exact List.mem_map_of_mem (mem_builder_preorder h.mem ..)
  · intro machines
    rw [extractMachines_eq_ok_iff ho hd, machines_builder, h.buildersIn, h.described]
    simp only [Source.machines_buildersIn]

theorem forall_transitionParts (hf : NameText name) (ha : ∀ text ∈ arguments, ArgumentText text)
    (trailing : Bool) : ∀ part ∈ transitionParts name trailing arguments, '\r' ∉ part.toList := by
  have hcall : ∀ part ∈ callParts name trailing arguments, '\r' ∉ part.toList :=
    forall_callParts hf.cr (fun text hm => (ha text hm).cr) (by decide) trailing
  simp only [transitionParts, List.forall_mem_cons, List.forall_mem_append]
  exact ⟨by decide +kernel, hcall, by decide +kernel, List.forall_mem_nil _⟩

theorem forall_handlerParts (hs : NameText state) (he : NameText event) (hf : NameText name)
    (ha : ∀ text ∈ arguments, ArgumentText text) (trailing : Bool) :
    ∀ part ∈ handlerParts state event name trailing arguments, '\r' ∉ part.toList := by
  have hmove := forall_transitionParts hf ha trailing
  simp only [handlerParts, List.forall_mem_cons, List.forall_mem_append]
  exact ⟨by decide +kernel, hs.cr, by decide +kernel, he.cr, by decide +kernel, hmove,
    by decide +kernel, List.forall_mem_nil _⟩

/-- The machine of a handler that moves to a state with arguments, behind those that are built in
the arguments. -/
theorem extractMachines_handlerParts (hs : NameText state) (he : NameText event)
    (hf : NameText name) (hne : arguments ≠ []) (ha : ∀ text ∈ arguments, ArgumentText text)
    (ht : Token.tokenize (String.join (handlerParts state event name trailing arguments)) =
      Token.inPlace 0 (handlerParts state event name trailing arguments))
    (limits : Limits)
    (hl : 2 * openings (Token.tokenize (String.join
      (handlerParts state event name trailing arguments))) + 1 ≤ limits.syntaxDepth)
    (hd : limits.syntaxDepth ≤ limits.extractionDepth) :
    ∃ (tree : SyntaxTree) (place callee : Place) (nodes : List SyntaxTree),
      SyntaxTree.parse limits.syntaxDepth
        (String.join (handlerParts state event name trailing arguments)) = .ok tree ∧
      Node.call place (.identifier callee (bareName name)) [] nodes none ∈ tree.preorder ∧
      callee.text = name ∧ ValueArguments (arguments.map verbatim) nodes ∧
      ∀ machines, extractMachines limits
          (String.join (handlerParts state event name trailing arguments)) = .ok machines ↔
        ∃ inner, Builder.machines (SyntaxTree.builders
            (.call place (.identifier callee (bareName name)) [] nodes none)) = .ok inner ∧
          machines = inner ++ [handlerMachine state event name (arguments.map verbatim)] := by
  have hcr := forall_handlerParts hs he hf ha trailing
  have htokens := tokens_join hcr ht
  rw [ht, ← htokens] at hl
  obtain ⟨_, _, _, _, _, _, _, _, _, _, ho, hline, hslice, hnodes⟩ :=
    outline?_handlerParts hs he hf hne ha (standsAt_join_self hcr) htokens hl
  obtain ⟨tree, hp, hmem, hmachines⟩ := hline.extractMachines ho hd
  rw [Node.map_call, Node.map] at hmem hmachines
  exact ⟨tree, _, _, _, hp, hmem, hslice, hnodes.valueArguments fun _ => rfl, hmachines⟩

/-- Wherever in a text the move to a state is written as a statement, it is read as one, and gives
the transition to the state with the arguments as they are written. -/
theorem readSequence_transitionParts {before behind : String} (hf : NameText name)
    (hne : arguments ≠ []) (ha : ∀ text ∈ arguments, ArgumentText text)
    (hbefore : '\r' ∉ before.toList) (hbehind : '\r' ∉ behind.toList)
    (ht : Token.tokenize (String.join (before :: (transitionParts name trailing arguments ++ [behind])))
      = Token.inPlace 0 (before :: (transitionParts name trailing arguments ++ [behind])))
    (he : EndsStatement (Token.tokenize behind))
    (hl : 2 * openings (Token.inPlace (byteSize before.toList)
      (transitionParts name trailing arguments ++ [behind])) + 1 ≤ limit) (prior : Nat) :
    ∃ move stop, readSequence (expressionWithin (Source.ofString (String.join
        (before :: (transitionParts name trailing arguments ++ [behind])))) limit) .statement
        ⟨prior, Token.inPlace (byteSize before.toList)
          (transitionParts name trailing arguments ++ [behind])⟩ =
            some (some move, ⟨stop, Token.inPlace stop [behind]⟩) ∧
      ∀ state event, (BuilderCall.all [move.map (Source.ofString (String.join
          (before :: (transitionParts name trailing arguments ++ [behind])))).locate]).filterMap
            (·.transition? state event) =
              [{ event, target := name, arguments := arguments.map verbatim }] := by
  have hcr : ∀ part ∈ before :: (transitionParts name trailing arguments ++ [behind]),
      '\r' ∉ part.toList := by
    simp only [List.forall_mem_cons, List.forall_mem_append]
    exact ⟨hbefore, forall_transitionParts hf ha trailing, hbehind, List.forall_mem_nil _⟩
  have htokens := tokens_join hcr ht
  have hstands := (standsAt_join (standsAt_join_self hcr)).2
  rw [Nat.zero_add] at hstands
  rw [Token.inPlace, Nat.zero_add] at htokens
  have hsuffix := htokens ▸ List.suffix_append _ _
  exact readSequence_move hf hne ha hstands hsuffix he hl prior

/-- The arguments of a call are split exactly at the commas between them and kept verbatim, with or
without a comma behind the last of them, and so the transition to a call with arguments keeps them,
wherever it stands as a statement and when it stands in the handler of a state. -/
theorem callArguments_verbatim (hf : NameText name) (hne : arguments ≠ [])
    (ha : ∀ text ∈ arguments, ArgumentText text) (trailing : Bool) :
    (∀ limit : Nat,
      let parts := callParts name trailing arguments
      let text := String.join parts
      Token.tokenize text = Token.inPlace 0 parts → 2 * openings (Token.tokenize text) + 1 ≤ limit →
        ∃ whole place callee nodes, SyntaxTree.parse limit text =
            .ok (.file whole [.call place (.identifier callee (bareName name)) [] nodes none]) ∧
          callee.text = name ∧ ValueArguments (arguments.map verbatim) nodes) ∧
    (∀ (before behind : String) (limit prior : Nat),
      let parts := transitionParts name trailing arguments ++ [behind]
      let text := String.join (before :: parts)
      let source := Source.ofString text
      let tokens := Token.inPlace (byteSize before.toList) parts
      '\r' ∉ before.toList → '\r' ∉ behind.toList →
        Token.tokenize text = Token.inPlace 0 (before :: parts) →
        EndsStatement (Token.tokenize behind) → 2 * openings tokens + 1 ≤ limit →
        ∃ move stop, readSequence (expressionWithin source limit) .statement ⟨prior, tokens⟩ =
            some (some move, ⟨stop, Token.inPlace stop [behind]⟩) ∧
          ∀ state event, (BuilderCall.all [move.map source.locate]).filterMap
            (·.transition? state event) =
              [{ event, target := name, arguments := arguments.map verbatim }]) ∧
    ∀ (state event : String) (limits : Limits), NameText state → NameText event →
      let parts := handlerParts state event name trailing arguments
      let text := String.join parts
      Token.tokenize text = Token.inPlace 0 parts →
        2 * openings (Token.tokenize text) + 1 ≤ limits.syntaxDepth →
        limits.syntaxDepth ≤ limits.extractionDepth →
        ∃ (tree : SyntaxTree) (place callee : Place) (nodes : List SyntaxTree),
          let call := Node.call place (.identifier callee (bareName name)) [] nodes none
          SyntaxTree.parse limits.syntaxDepth text = .ok tree ∧ call ∈ tree.preorder ∧
            callee.text = name ∧ ValueArguments (arguments.map verbatim) nodes ∧
            ∀ machines, extractMachines limits text = .ok machines ↔
              ∃ inner, Builder.machines (SyntaxTree.builders call) = .ok inner ∧
                machines = inner ++ [handlerMachine state event name (arguments.map verbatim)] := by
  constructor
  · intro limit parts text ht hl
    exact parse_callParts hf hne ha ht hl
  constructor
  · intro before behind limit prior parts text source tokens hbefore hbehind ht he hl
    exact readSequence_transitionParts hf hne ha hbefore hbehind ht he hl prior
  · intro state event limits hs he parts text ht hl hd
    exact extractMachines_handlerParts hs he hf hne ha ht limits hl hd

end

/-- A call with commas of its own and an arrow in its braces, and an argument with a name. -/
def nestedArguments : List String := ["g(x, y) \x7b a -> b \x7d", "n = 5"]

theorem nameText_F : NameText "F" := ⟨by decide +kernel, by decide +kernel⟩

theorem argumentText_nestedArguments : ∀ text ∈ nestedArguments, ArgumentText text := by
  have hlong {text : String} (hl : (Token.visible (Token.tokenize text)).length ≠ 2)
      (name : String) :
      (Token.visible (Token.tokenize text)).map Token.lexeme ≠
        [.identifier name, .operator "="] := by
    intro h
    apply hl
    rw [← List.length_map, h]
    rfl
  intro text hm
  rcases List.mem_pair.1 hm with rfl | rfl
  · exact ⟨by decide +kernel, by decide +kernel, by decide +kernel, by decide +kernel,
      by decide +kernel, hlong (by decide +kernel)⟩
  · exact ⟨by decide +kernel, by decide +kernel, by decide +kernel, by decide +kernel,
      by decide +kernel, hlong (by decide +kernel)⟩

theorem callArguments_verbatim_nestedArguments :
    (∃ whole place callee nodes, SyntaxTree.parse 9 "F(g(x, y) \x7b a -> b \x7d, n = 5,)" =
        .ok (.file whole [.call place (.identifier callee "F") [] nodes none]) ∧
      callee.text = "F" ∧ ValueArguments nestedArguments nodes) ∧
    ∃ call : SyntaxTree, ∀ machines, extractMachines {} ("StateMachine.create \x7b state<S> \x7b " ++
        "on<E> \x7b transitionTo(F(g(x, y) \x7b a -> b \x7d, n = 5,)) \x7d \x7d \x7d") =
          .ok machines ↔ ∃ inner, Builder.machines (SyntaxTree.builders call) = .ok inner ∧
            machines = inner ++ [handlerMachine "S" "E" "F" nestedArguments] := by
  have hverbatim : nestedArguments.map verbatim = nestedArguments := by decide +kernel
  obtain ⟨hcall, -, hhandler⟩ :=
    callArguments_verbatim nameText_F (by decide) argumentText_nestedArguments true
  rw [hverbatim] at hcall hhandler
  constructor
  · exact hcall 9 (by decide +kernel) (by decide +kernel)
  · obtain ⟨_, _, _, _, _, _, _, _, hmachines⟩ := hhandler "S" "E" {} ⟨by decide +kernel,
      by decide +kernel⟩ ⟨by decide +kernel, by decide +kernel⟩ (by decide +kernel)
      (by decide +kernel) (by decide +kernel)
    exact ⟨_, hmachines⟩

end StateDiagram
