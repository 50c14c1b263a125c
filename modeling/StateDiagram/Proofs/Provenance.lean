import StateDiagram.Proofs.Limit

namespace StateDiagram

set_option autoImplicit true

def Transition.texts (transition : Transition) : List String :=
  transition.event :: transition.target :: (transition.arguments ++
    transition.sideEffect.toList ++ transition.conditions.map Condition.expression)

def State.texts (state : State) : List String :=
  state.name :: (state.transitions.flatMap Transition.texts ++ state.onEnter ++ state.onExit)

def Statement.texts : Statement → List String
  | .initial name => [name]
  | .state declared => declared.texts

def Machine.texts (machine : Machine) : List String := machine.statements.flatMap Statement.texts

/-- The texts of the nodes of a tree, with and without the quotes of strings. -/
def SyntaxTree.texts (tree : SyntaxTree) : List String :=
  tree.preorder.flatMap fun node => [node.info.text, SyntaxTree.unquoted node]

namespace SyntaxTree

variable {tree node : SyntaxTree}

theorem mem_texts {text : String} : text ∈ tree.texts ↔
    ∃ node ∈ tree.preorder, text = node.info.text ∨ text = SyntaxTree.unquoted node := by
  simp [texts]

theorem text_mem_texts (tree : SyntaxTree) : tree.info.text ∈ tree.texts :=
  mem_texts.2 ⟨tree, Node.mem_preorder_self tree, .inl rfl⟩

theorem unquoted_mem_texts (tree : SyntaxTree) : tree.unquoted ∈ tree.texts :=
  mem_texts.2 ⟨tree, Node.mem_preorder_self tree, .inr rfl⟩

theorem texts_subset_of_mem (h : node ∈ tree.preorder) : node.texts ⊆ tree.texts := by
  intro text ht
  obtain ⟨inner, hi, ht⟩ := mem_texts.1 ht
  exact mem_texts.2 ⟨inner, Node.mem_preorder_trans h hi, ht⟩

theorem texts_subset_of_child (h : node ∈ tree.children) : node.texts ⊆ tree.texts :=
  texts_subset_of_mem (Node.mem_preorder_of_child h)

end SyntaxTree

namespace BuilderCall

variable {call : BuilderCall} {node body : SyntaxTree} {name : String}

/-- The texts that stand in the arguments of the call. -/
def texts (call : BuilderCall) : List String :=
  (call.typeArguments ++ call.valueArguments ++ call.trailing.toList).flatMap SyntaxTree.texts

theorem texts_subset (h : node ∈ call.typeArguments ++ call.valueArguments ++
    call.trailing.toList) : node.texts ⊆ call.texts :=
  fun _ ht => List.mem_flatMap.2 ⟨node, h, ht⟩

theorem texts_of_ofNode? (h : ofNode? node = some call) : call.texts ⊆ node.texts := by
  cases node with
  | call place callee types values trailing =>
    obtain ⟨name, _, rfl⟩ := Option.map_eq_some_iff.1 h
    intro text ht
    obtain ⟨child, hc, ht⟩ := List.mem_flatMap.1 ht
    exact SyntaxTree.texts_subset_of_child (List.mem_cons_of_mem _ hc) ht
  | _ => cases h

theorem texts_of_mem_all (h : call ∈ all body.statements) : call.texts ⊆ body.texts := by
  obtain ⟨node, hm, ho⟩ := List.mem_filterMap.1 h
  obtain ⟨_, hc⟩ := listsExpressions_of_mem_statements hm
  exact List.Subset.trans (texts_of_ofNode? ho) (SyntaxTree.texts_subset_of_child hc)

theorem texts_argument (h : call.argument? index = some node) : node.texts ⊆ call.texts := by
  obtain ⟨argument, ha, rfl⟩ := Option.map_eq_some_iff.1 h
  apply List.Subset.trans
    (SyntaxTree.texts_subset_of_mem argument.argumentExpression_mem_preorder)
  apply texts_subset
  exact List.mem_append_left _ (List.mem_append_right _ (List.mem_of_getElem? ha))

theorem text_declaredName (h : call.declaredName? = some name) : name ∈ call.texts := by
  rw [declaredName?] at h
  split at h
  · next first more ht =>
    cases h
    apply texts_subset _ (SyntaxTree.text_mem_texts first)
    rw [ht, List.append_assoc]
    exact List.mem_append_left _ List.mem_cons_self
  · obtain ⟨argument, ha, rfl⟩ := Option.map_eq_some_iff.1 h
    exact texts_argument ha (SyntaxTree.unquoted_mem_texts argument)

theorem texts_body (h : call.body? = some body) : body.texts ⊆ call.texts := by
  obtain ⟨child, hm, hl⟩ := exists_argumentBody h
  apply List.Subset.trans (SyntaxTree.texts_subset_of_mem (Node.argumentBody_mem_preorder hl))
  apply texts_subset
  rw [List.append_assoc]
  exact List.mem_append_right _ hm

end BuilderCall

variable {call : BuilderCall} {body : SyntaxTree} {text state event : String}

theorem Transition.mem_texts {transition : Transition} : text ∈ transition.texts ↔
    text = transition.event ∨ text = transition.target ∨ text ∈ transition.arguments ∨
      text ∈ transition.sideEffect ∨ text ∈ transition.conditions.map Condition.expression := by
  simp only [texts, List.mem_cons, List.mem_append, Option.mem_toList, Option.mem_def,
    or_assoc]

theorem texts_toTarget {target : SyntaxTree}
    (h : text ∈ (Transition.toTarget event target).texts) :
    text = event ∨ text ∈ target.texts := by
  have hunquoted (h : text ∈ Transition.texts { event, target := target.unquoted }) :
      text = event ∨ text ∈ target.texts := by
    rcases Transition.mem_texts.1 h with h | rfl | h | h | h
    · exact .inl h
    · exact .inr target.unquoted_mem_texts
    all_goals cases h
  cases target with
  | call place callee types values trailing =>
    have hchild (child : SyntaxTree)
        (hc : child ∈ (Node.call place callee types values trailing).children) :
        child.info.text ∈ SyntaxTree.texts (.call place callee types values trailing) :=
      SyntaxTree.texts_subset_of_child hc child.text_mem_texts
    rcases Transition.mem_texts.1 h with h | rfl | h | h | h
    · exact .inl h
    · exact .inr (hchild callee List.mem_cons_self)
    · obtain ⟨value, hv, rfl⟩ := List.mem_map.1 h
      refine .inr (hchild value ?_)
      exact List.mem_cons_of_mem _ (List.mem_append_left _ (List.mem_append_right _ hv))
    all_goals cases h
  | _ => exact hunquoted h

theorem texts_transition {transition : Transition}
    (h : call.transition? state event = some transition) (ht : text ∈ transition.texts) :
    text = state ∨ text = event ∨ text ∈ call.texts := by
  have hargument {index : Nat} (h : text ∈ (call.argument? index).map SyntaxTree.unquoted) :
      text ∈ call.texts := by
    obtain ⟨argument, ha, rfl⟩ := Option.map_eq_some_iff.1 h
    exact BuilderCall.texts_argument ha argument.unquoted_mem_texts
  rw [BuilderCall.transition?] at h
  split at h
  · obtain ⟨target, ha, rfl⟩ := Option.map_eq_some_iff.1 h
    have htarget (h : text ∈ (Transition.toTarget event target).texts) :
        text = state ∨ text = event ∨ text ∈ call.texts :=
      .inr ((texts_toTarget h).imp_right fun h => BuilderCall.texts_argument ha h)
    rcases Transition.mem_texts.1 ht with h | h | h | h | h
    · exact htarget (Transition.mem_texts.2 (.inl h))
    · exact htarget (Transition.mem_texts.2 (.inr (.inl h)))
    · exact htarget (Transition.mem_texts.2 (.inr (.inr (.inl h))))
    · exact .inr (.inr (hargument h))
    · exact htarget (Transition.mem_texts.2 (.inr (.inr (.inr (.inr h)))))
  · cases h
    rcases Transition.mem_texts.1 ht with h | h | h | h | h
    · exact .inr (.inl h)
    · exact .inl h
    · cases h
    · exact .inr (.inr (hargument h))
    · cases h
  · cases h

theorem State.mem_texts {declared : State} : text ∈ declared.texts ↔
    text = declared.name ∨ (∃ transition ∈ declared.transitions, text ∈ transition.texts) ∨
      text ∈ declared.onEnter ∨ text ∈ declared.onExit := by
  simp only [texts, List.mem_cons, List.mem_append, List.mem_flatMap, or_assoc]

theorem Crossing.mem_texts_add {crossing : Crossing} {more : List String} {declared : State} :
    text ∈ (crossing.add more declared).texts ↔ text ∈ declared.texts ∨ text ∈ more := by
  cases crossing <;> simp only [State.texts, add, List.mem_cons, List.mem_append] <;> grind

/-- A call adds texts of its own to a state only. -/
theorem texts_extended {declared : State} (h : text ∈ (declared.extended call).texts) :
    text ∈ declared.texts ∨ text ∈ call.texts := by
  have hext := declared.extension call
  generalize declared.extended call = next at h hext
  cases hext with
  | @handler event handler _ hn hb =>
    have hhandler := BuilderCall.texts_body hb
    rcases State.mem_texts.1 h with h | ⟨transition, hm, ht⟩ | h | h
    · exact .inl (State.mem_texts.2 (.inl h))
    · rcases List.mem_append.1 hm with hm | hm
      · exact .inl (State.mem_texts.2 (.inr (.inl ⟨transition, hm, ht⟩)))
      · obtain ⟨inner, hi, hs⟩ := List.mem_filterMap.1 hm
        rcases texts_transition hs ht with rfl | rfl | ht
        · exact .inl List.mem_cons_self
        · exact .inr (BuilderCall.text_declaredName hn)
        · exact .inr (hhandler (BuilderCall.texts_of_mem_all hi ht))
    · exact .inl (State.mem_texts.2 (.inr (.inr (.inl h))))
    · exact .inl (State.mem_texts.2 (.inr (.inr (.inr h))))
  | @crossing block _ _ hb =>
    refine (Crossing.mem_texts_add.1 h).imp_right fun hm => ?_
    cases List.mem_singleton.1 hm
    exact BuilderCall.texts_body hb block.text_mem_texts
  | none => exact .inl h

theorem texts_foldl_extended {calls : List BuilderCall} {declared : State}
    (h : text ∈ (calls.foldl State.extended declared).texts) :
    text ∈ declared.texts ∨ ∃ call ∈ calls, text ∈ call.texts := by
  induction calls generalizing declared with
  | nil => exact .inl h
  | cons call calls ih =>
    rcases ih h with h | ⟨later, hm, h⟩
    · rcases texts_extended h with h | h
      · exact .inl h
      · exact .inr ⟨call, List.mem_cons_self, h⟩
    · exact .inr ⟨later, List.mem_cons_of_mem _ hm, h⟩

theorem texts_declaredState {declared : State} (h : call.declaredState? = some declared)
    (ht : text ∈ declared.texts) : text ∈ call.texts := by
  obtain ⟨name, hn, rfl⟩ := Option.map_eq_some_iff.1 h
  have hname (h : text ∈ State.texts { name }) : text ∈ call.texts := by
    cases List.mem_singleton.1 h
    exact BuilderCall.text_declaredName hn
  split at ht
  · exact hname ht
  · next body hb =>
    rcases texts_foldl_extended ht with h | ⟨inner, hm, h⟩
    · exact hname h
    · exact BuilderCall.texts_body hb (BuilderCall.texts_of_mem_all hm h)

theorem texts_declared {statement : Statement} (h : call.declared? = some statement)
    (ht : text ∈ statement.texts) : text ∈ call.texts := by
  rw [BuilderCall.declared?] at h
  split at h
  · obtain ⟨argument, ha, rfl⟩ := Option.map_eq_some_iff.1 h
    cases List.mem_singleton.1 ht
    exact BuilderCall.texts_argument ha argument.unquoted_mem_texts
  · obtain ⟨declared, hs, rfl⟩ := Option.map_eq_some_iff.1 h
    exact texts_declaredState hs ht
  · cases h

theorem texts_described (h : text ∈ (Machine.described body.statements).texts) :
    text ∈ body.texts := by
  obtain ⟨statement, hs, ht⟩ := List.mem_flatMap.1 h
  obtain ⟨call, hc, hd⟩ := List.mem_filterMap.1 hs
  exact BuilderCall.texts_of_mem_all hc (texts_declared hd ht)

theorem Builder.body_mem_preorder {node : SyntaxTree} {builder : Builder}
    (h : ofNode? node = some builder) (hb : builder.body? = some body) :
    body ∈ node.preorder := by
  obtain ⟨child, hm, hl⟩ := exists_argumentBody hb
  obtain ⟨selector, hs, hc⟩ := exists_selector h
  have hbody : body ∈ selector.preorder :=
    Node.mem_preorder_trans (Node.mem_preorder_of_child (hc child hm))
      (Node.argumentBody_mem_preorder hl)
  exact Node.mem_preorder_trans (Node.mem_preorder_of_child hs) hbody

theorem SyntaxTree.mem_builders {tree : SyntaxTree} {found : Place × Builder} :
    found ∈ tree.builders ↔
      ∃ node ∈ tree.preorder, Builder.ofNode? node = some found.2 ∧ node.info = found.1 := by
  obtain ⟨place, builder⟩ := found
  simp only [builders, List.mem_filterMap, Node.mem_postorder, Option.map_eq_some_iff,
    Prod.mk.injEq]
  constructor
  · rintro ⟨node, hn, _, ho, rfl, rfl⟩
    exact ⟨node, hn, ho, rfl⟩
  · rintro ⟨node, hn, ho, rfl⟩
    exact ⟨node, hn, builder, ho, rfl, rfl⟩

/-- Every machine is what the statements of some body in the tree describe. -/
theorem exists_body_of_machines {tree : SyntaxTree} {machines : List Machine} {machine : Machine}
    (h : tree.machines limit = .ok machines) (hm : machine ∈ machines) :
    ∃ body ∈ tree.preorder, machine = Machine.described body.statements := by
  rcases settles_machinesAt limit 0 tree with he | ⟨_, he⟩
  · rw [SyntaxTree.machines, he] at h
    obtain ⟨found, hf, hr⟩ := exists_of_mapM_ok h machine hm
    obtain ⟨node, hn, ho, _⟩ := SyntaxTree.mem_builders.1 hf
    rw [Builder.machine] at hr
    split at hr
    · cases hr
    · next body hb =>
      cases hr
      exact ⟨body, Node.mem_preorder_trans hn (Builder.body_mem_preorder ho hb), rfl⟩
  · rw [SyntaxTree.machines, he] at h
    cases h

theorem texts_of_machines {tree : SyntaxTree} {machines : List Machine} {machine : Machine}
    (h : tree.machines limit = .ok machines) (hm : machine ∈ machines) :
    machine.texts ⊆ tree.texts := by
  obtain ⟨body, hb, rfl⟩ := exists_body_of_machines h hm
  intro text ht
  exact SyntaxTree.texts_subset_of_mem hb (texts_described ht)

end StateDiagram
