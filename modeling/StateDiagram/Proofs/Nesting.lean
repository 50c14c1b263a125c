import StateDiagram.Proofs.Annotation
import StateDiagram.Proofs.Reading
import StateDiagram.Proofs.Result

namespace StateDiagram

set_option autoImplicit true

namespace Node

/-- The level that extraction counts for the node. -/
def toll (node : Node α) : Nat := if node.opensLevel then 1 else 0

/-- Whether the children of the node are statements or items that are read as expressions. -/
def listsExpressions : Node α → Bool
  | .file _ _ | .block _ _ | .group _ _ => true
  | _ => false

/-- The level that reading counts for a child of the node. Stray closing brackets are read
without one. -/
def childToll (node child : Node α) : Nat :=
  if node.listsExpressions && !child.isToken then 1 else 0

/-- The levels that reading the node uses up, apart from its own as an expression. -/
def height (node : Node α) : Nat :=
  node.toll +
    (node.children.attach.map fun ⟨child, _⟩ => node.childToll child + child.height).foldr max 0
termination_by sizeOf node
decreasing_by exact sizeOf_lt_of_mem_children ‹_›

theorem height_eq (node : Node α) :
    node.height = node.toll +
      (node.children.map fun child => node.childToll child + child.height).foldr max 0 := by
  rw [height]
  congr 2
  exact List.attach_map_val (f := fun child => node.childToll child + child.height)

theorem foldr_max_le_iff {heights : List Nat} :
    heights.foldr max 0 ≤ n ↔ ∀ height ∈ heights, height ≤ n := by
  induction heights with
  | nil => simp
  | cons height heights ih => rw [List.foldr_cons, Nat.max_le, ih, List.forall_mem_cons]

theorem height_le_iff {node : Node α} :
    node.height ≤ node.toll + n ↔
      ∀ child ∈ node.children, node.childToll child + child.height ≤ n := by
  rw [height_eq, Nat.add_le_add_iff_left, foldr_max_le_iff, List.forall_mem_map]

theorem toll_le_height (node : Node α) : node.toll ≤ node.height := by
  rw [height]
  exact Nat.le_add_right ..

theorem height_of_mem (node : Node α) {child : Node α} (h : child ∈ node.children) :
    node.toll + node.childToll child + child.height ≤ node.height := by
  obtain ⟨n, hn⟩ := Nat.exists_eq_add_of_le node.toll_le_height
  have := height_le_iff.1 (Nat.le_of_eq hn) child h
  omega

theorem height_le_of_mem {node child : Node α} (h : child ∈ node.children) :
    child.height ≤ node.height :=
  Nat.le_trans (Nat.le_add_left ..) (node.height_of_mem h)

theorem childToll_of_not_listsExpressions {node child : Node α}
    (h : node.listsExpressions = false) : node.childToll child = 0 := by
  rw [childToll, h]
  rfl

theorem childToll_of_listsExpressions {node child : Node α} (hl : node.listsExpressions = true)
    (hc : child.isToken = false) : node.childToll child = 1 := by
  rw [childToll, hl, hc]
  rfl

theorem height_le_toll_add {node : Node α} (hl : node.listsExpressions = false)
    (h : ∀ child ∈ node.children, child.height ≤ n) : node.height ≤ node.toll + n := by
  refine height_le_iff.2 fun child hc => ?_
  rw [childToll_of_not_listsExpressions hl, Nat.zero_add]
  exact h child hc

theorem height_le_of_children {node : Node α} (ho : node.opensLevel = false)
    (hl : node.listsExpressions = false) (h : ∀ child ∈ node.children, child.height ≤ n) :
    node.height ≤ n := by
  simpa [toll, ho] using height_le_toll_add hl h

theorem height_le_of_opensLevel {node : Node α} (ho : node.opensLevel = true)
    (hl : node.listsExpressions = false) (h : ∀ child ∈ node.children, child.height ≤ n) :
    node.height ≤ n + 1 := by
  simpa [toll, ho, Nat.add_comm] using height_le_toll_add hl h

theorem height_of_isToken {node : Node α} (h : node.isToken = true) : node.height = 0 := by
  cases node with
  | token info => exact Nat.le_zero.1 (height_le_of_children rfl rfl (List.forall_mem_nil _))
  | _ => cases h

theorem childToll_add_height_le {node child : Node α} (h : child.isToken ∨ child.height < n) :
    node.childToll child + child.height ≤ n := by
  by_cases ht : child.isToken = true
  · rw [height_of_isToken ht, childToll, ht]
    simp
  · have hc := h.resolve_left ht
    have : node.childToll child ≤ 1 := by unfold childToll; split <;> decide
    omega

theorem height_le_of_statements {node : Node α} (ho : node.opensLevel = false)
    (h : ∀ child ∈ node.children, child.isToken ∨ child.height < n) : node.height ≤ n := by
  have hle : node.height ≤ node.toll + n :=
    height_le_iff.2 fun child hc => childToll_add_height_le (h child hc)
  simpa [toll, ho] using hle

theorem height_group {items : List (Node α)} (h : ∀ node ∈ items, node.height < n) (info : α) :
    (group info items).height ≤ n + 1 := by
  rw [Nat.add_comm]
  exact height_le_iff.2 fun child hc => childToll_add_height_le (.inr (h child hc))

theorem childToll_map (f : α → β) (node child : Node α) :
    (node.map f).childToll (child.map f) = node.childToll child := by
  have hl : (node.map f).listsExpressions = node.listsExpressions := by
    cases node <;> simp [map_call, map, listsExpressions]
  rw [childToll, hl, isToken_map, ← childToll]

theorem height_map (f : α → β) (node : Node α) : (node.map f).height = node.height := by
  induction node using Node.induction with
  | step node ih =>
    rw [height_eq, height_eq, toll, opensLevel_map, ← toll, children_map, List.map_map]
    congr 2
    exact List.map_congr_left fun child hc => by
      rw [Function.comp_apply, childToll_map, ih child hc]

end Node

theorem height_collapse {nodes : List Outline} {node : Outline}
    (h : ∀ node ∈ nodes, node.height < n) (hc : collapse nodes = some node) : node.height < n := by
  match nodes with
  | [] => cases hc
  | [_] =>
    cases hc
    exact h node (List.mem_singleton_self node)
  | first :: second :: rest =>
    cases hc
    have hn := h first List.mem_cons_self
    exact Nat.lt_of_le_pred (by omega) (Node.height_le_of_children rfl rfl
      fun child hm => Nat.le_pred_of_lt (h child hm))

theorem height_argumentOutline {token : Token} {name : Option String} {expression : Outline}
    (h : expression.height < n) : (argumentOutline token name expression).height ≤ n := by
  refine Nat.le_trans (Node.height_le_of_opensLevel rfl rfl fun child hm => ?_)
    (Nat.succ_le_of_lt h)
  cases List.mem_singleton.1 hm
  exact Nat.le_refl _

theorem height_lambdaOutline {source : Source} {token : Token} {parameters : Option String}
    {body : List Outline} {stop : Cursor} (h : ∀ node ∈ body, node.isToken ∨ node.height < n) :
    (lambdaOutline source token parameters body stop).height ≤ n + 1 := by
  refine Node.height_le_of_opensLevel rfl rfl fun child hm => ?_
  cases List.mem_singleton.1 hm
  exact Node.height_le_of_statements rfl h

/-- The nodes of the phrase use up no more than the levels that are left. -/
def Phrase.Within (n : Nat) : Phrase → Prop
  | .expression _ _ node _ => node.height < n
  | .primary _ _ node _ | .named _ _ _ node _ | .lambda _ _ node _ | .group _ _ _ node _ =>
    node.height ≤ n
  | .suffixes node _ result _ => node.height ≤ n → result.height ≤ n
  | .callArguments _ nodes _ => ∀ node ∈ nodes.getD [], node.height ≤ n
  | .trailingLambda _ node _ => ∀ body ∈ node, body.height ≤ n
  | .valueArguments _ nodes _ => ∀ node ∈ nodes, node.height ≤ n
  | .items _ _ _ nodes _ | .groupItems _ _ nodes _ => ∀ node ∈ nodes, node.height < n
  | .statements _ _ nodes _ => ∀ node ∈ nodes, node.isToken ∨ node.height < n

theorem Derives.within (h : Derives source n phrase) : phrase.Within n := by
  induction h with
  | expression _ _ ihp ihs => exact Nat.lt_succ_of_le (ihs ihp)
  | name _ _ ih | braces _ _ ih | brackets _ _ _ ih => exact ih
  | string | literal | symbol | identifier =>
    exact Node.height_le_of_children rfl rfl (List.forall_mem_nil _)
  | noSuffix => exact id
  | member _ _ _ ihn ihs =>
    intro hn
    refine ihs (Node.height_le_of_children rfl rfl fun child hm => ?_)
    simp only [Node.children, List.mem_cons, List.not_mem_nil, or_false] at hm
    rcases hm with rfl | rfl
    · exact hn
    · exact ihn
  | index _ _ _ _ _ _ ihg ihs =>
    intro hn
    refine ihs (Node.height_le_of_children rfl rfl fun child hm => ?_)
    simp only [Node.children, List.mem_cons, List.not_mem_nil, or_false] at hm
    rcases hm with rfl | rfl
    · exact hn
    · exact ihg
  | call ht _ _ _ iha ihl =>
    refine Node.height_le_of_children rfl rfl fun child hm => ?_
    simp only [Node.children, List.mem_cons, List.mem_append, Option.mem_toList] at hm
    rcases hm with rfl | (hm | hm) | hm
    · exact Node.height_le_of_children rfl rfl (List.forall_mem_nil _)
    · obtain ⟨span, rfl⟩ := exists_typeArgument ht child hm
      exact Node.height_le_of_children rfl rfl (List.forall_mem_nil _)
    · exact iha child hm
    · exact ihl child hm
  | noArguments => exact List.forall_mem_nil _
  | arguments _ _ _ ih => exact ih
  | noLambda =>
    intro node hm
    cases hm
  | trailing _ _ _ ih =>
    intro node hm
    cases hm
    exact ih
  | argumentsEnd | argumentsClose | itemsEnd | itemsStop | itemsBreak | statementsEnd
  | statementsClose | groupEnd | groupClose => exact List.forall_mem_nil _
  | argumentsSkip _ _ _ ih | itemsContinue _ _ _ _ ih | statementsSkip _ _ _ ih
  | groupSkip _ _ _ ih => exact ih
  | argument _ _ _ _ ihi iha =>
    refine List.forall_mem_append.2 ⟨fun node hm => ?_, iha⟩
    obtain ⟨expression, hc, rfl⟩ := Option.map_eq_some_iff.1 (Option.mem_toList.1 hm)
    exact height_argumentOutline (height_collapse ihi hc)
  | item _ _ _ _ ihe ihi => exact List.forall_mem_cons.2 ⟨ihe, ihi⟩
  | stray _ _ _ _ ih => exact List.forall_mem_cons.2 ⟨.inl rfl, ih⟩
  | statement _ _ _ _ ihi ihs =>
    refine List.forall_mem_append.2 ⟨fun node hm => .inr ?_, ihs⟩
    exact height_collapse ihi (Option.mem_toList.1 hm)
  | lambda _ _ ih => exact height_lambdaOutline ih
  | group _ ih => exact Node.height_group ih _
  | groupItem _ _ _ _ _ ihe ihg => exact List.forall_mem_cons.2 ⟨ihe, ihg⟩

theorem height_of_parse {source : Source} {limit : Nat} {tree : SyntaxTree}
    (h : source.parse limit = .ok tree) : tree.height ≤ limit := by
  obtain ⟨outline, ho, rfl⟩ := Source.parse_eq_ok_iff.1 h
  obtain ⟨nodes, next, rfl, hs⟩ := Source.outline?_eq_some_iff.1 ho
  rw [Node.height_map]
  exact Node.height_le_of_statements rfl hs.within

/-- The only possible complaint is about a builder without a body. -/
def NotTooDeep (result : Except Fault α) : Prop :=
  ∀ fault, result = .error fault →
    ∃ problem location, fault = .malformedBuilder problem location

theorem NotTooDeep.ok (value : α) : NotTooDeep (.ok value) := nofun

theorem NotTooDeep.bind {result : Except Fault α} {next : α → Except Fault β}
    (h : NotTooDeep result) (hn : ∀ value, NotTooDeep (next value)) :
    NotTooDeep (result >>= next) := by
  cases result with
  | error fault =>
    intro _ he
    cases he
    exact h fault rfl
  | ok value => exact hn value

theorem NotTooDeep.map {result : Except Fault α} (f : α → β) (h : NotTooDeep result) :
    NotTooDeep (result.map f) := by
  cases result with
  | error fault =>
    intro _ he
    cases he
    exact h fault rfl
  | ok value => exact .ok (f value)

theorem NotTooDeep.bindClosed : BindClosed fun _ result _ => NotTooDeep result where
  ok := .ok
  bind := .bind

theorem NotTooDeep.mapM {α β : Type} {f : α → Except Fault β} {values : List α}
    (h : ∀ value ∈ values, NotTooDeep (f value)) : NotTooDeep (values.mapM f) :=
  bindClosed.mapM (g := f) h

theorem NotTooDeep.foldlM {α β : Type} {f : β → α → Except Fault β} {values : List α}
    (h : ∀ value ∈ values, ∀ state, NotTooDeep (f state value)) (state : β) :
    NotTooDeep (values.foldlM f state) :=
  bindClosed.foldlM (g := f) h state

theorem notTooDeep_checkDepth (h : depth ≤ limit) : NotTooDeep (checkDepth limit depth) := by
  rw [checkDepth, if_pos h]
  exact .ok ()

theorem isToken_of_builderCall {node : SyntaxTree} (h : BuilderCall.ofNode? node = some call) :
    node.isToken = false := by
  cases node with
  | token => cases h
  | _ => rfl

theorem children_of_builderCall {node : SyntaxTree} (h : BuilderCall.ofNode? node = some call) :
    ∀ child ∈ call.valueArguments ++ call.trailing.toList, child ∈ node.children := by
  cases node with
  | call place callee types values trailing =>
    obtain ⟨name, _, rfl⟩ := Option.map_eq_some_iff.1 h
    intro child hm
    rw [Node.children, List.append_assoc]
    exact List.mem_cons_of_mem _ (List.mem_append_right _ hm)
  | _ => cases h

theorem height_argumentExpression (node : Node α) :
    node.argumentExpression.height ≤ node.height := by
  cases node with
  | valueArgument info name expression =>
    exact Node.height_le_of_mem (List.mem_singleton_self expression)
  | _ => exact Nat.le_refl _

theorem height_lambdaBody {node body : Node α} (h : node.lambdaBody? = some body) :
    body.height + 1 ≤ node.height := by
  cases node with
  | lambda info parameters inner =>
    cases h
    have := Node.height_of_mem (.lambda info parameters body)
      (List.mem_singleton_self body)
    rw [Node.toll, Node.opensLevel, if_pos rfl] at this
    omega
  | _ => cases h

theorem argumentExpression_of_lambdaBody {node body : Node α} (h : node.lambdaBody? = some body) :
    node.argumentExpression = node := by
  cases node with
  | lambda => rfl
  | _ => cases h

/-- A body is the block of a trailing lambda, or else of a lambda among the arguments. -/
theorem exists_argument_of_lambdaBody {trailing last : Option SyntaxTree}
    {arguments : List SyntaxTree} {body : SyntaxTree}
    (hlast : ∀ lambda, last = some lambda → ∃ argument ∈ arguments,
      argument.argumentExpression = lambda)
    (h : (match trailing with
      | some trailing => some trailing
      | none => last).bind Node.lambdaBody? = some body) :
    ∃ child ∈ arguments ++ trailing.toList, child.argumentExpression.lambdaBody? = some body := by
  obtain ⟨lambda, hl, hb⟩ := Option.bind_eq_some_iff.1 h
  cases trailing with
  | some trailing =>
    cases hl
    exact ⟨lambda, List.mem_append_right _ (List.mem_singleton_self lambda),
      (argumentExpression_of_lambdaBody hb).symm ▸ hb⟩
  | none =>
    obtain ⟨argument, hm, rfl⟩ := hlast lambda hl
    exact ⟨argument, List.mem_append_left _ hm, hb⟩

theorem BuilderCall.exists_argumentBody {call : BuilderCall} {body : SyntaxTree}
    (h : call.body? = some body) :
    ∃ child ∈ call.valueArguments ++ call.trailing.toList,
      child.argumentExpression.lambdaBody? = some body := by
  refine exists_argument_of_lambdaBody (fun lambda hl => ?_) h
  obtain ⟨argument, hm, rfl⟩ := List.mem_map.1 (List.mem_of_find?_eq_some hl)
  exact ⟨argument, List.mem_reverse.1 hm, rfl⟩

theorem BuilderCall.height_body {node body : SyntaxTree} (h : BuilderCall.ofNode? node = some call)
    (hb : call.body? = some body) : body.height + 1 ≤ node.height := by
  obtain ⟨child, hm, hl⟩ := exists_argumentBody hb
  calc body.height + 1
    _ ≤ child.argumentExpression.height := height_lambdaBody hl
    _ ≤ child.height := height_argumentExpression child
    _ ≤ node.height := Node.height_le_of_mem (children_of_builderCall h child hm)

theorem listsExpressions_of_mem_statements {body node : Node α} (h : node ∈ body.statements) :
    body.listsExpressions = true ∧ node ∈ body.children := by
  cases body with
  | file | block => exact ⟨rfl, h⟩
  | _ => cases h

theorem BuilderCall.height_of_mem {body : SyntaxTree} (h : call ∈ BuilderCall.all body.statements) :
    ∃ node, BuilderCall.ofNode? node = some call ∧ node.height + 1 ≤ body.height := by
  obtain ⟨node, hm, ho⟩ := List.mem_filterMap.1 h
  obtain ⟨hl, hm⟩ := listsExpressions_of_mem_statements hm
  refine ⟨node, ho, ?_⟩
  have := Node.height_of_mem body hm
  rw [Node.childToll_of_listsExpressions hl (isToken_of_builderCall ho)] at this
  omega

theorem notTooDeep_handlerTransitions (h : depth ≤ limit) (state event : String)
    (body : SyntaxTree) : NotTooDeep (handlerTransitions limit depth state event body) :=
  (notTooDeep_checkDepth h).bind fun _ => .ok _

theorem notTooDeep_extend (h : depth + 1 ≤ limit) (state : State) (call : BuilderCall) :
    NotTooDeep (State.extend limit depth state call) := by
  rw [State.extend]
  split
  · split
    · exact NotTooDeep.bind (notTooDeep_handlerTransitions h _ _ _) fun _ => .ok _
    · exact .ok _
  · split <;> exact .ok _
  · split <;> exact .ok _
  · exact .ok _

theorem notTooDeep_state? {node : SyntaxTree} (hc : BuilderCall.ofNode? node = some call)
    (h : depth + node.height ≤ limit) : NotTooDeep (call.state? limit depth) := by
  refine (notTooDeep_checkDepth (by omega)).bind fun _ => ?_
  split
  · exact .ok _
  · split
    · exact .ok _
    · next body hb =>
      refine (NotTooDeep.foldlM (fun inner hi state => ?_) _).bind fun _ => .ok _
      -- A call in the body leaves a level for the handlers.
      obtain ⟨child, _, hch⟩ := BuilderCall.height_of_mem hi
      have := BuilderCall.height_body hc hb
      exact notTooDeep_extend (by omega) state inner

theorem notTooDeep_statement? {node : SyntaxTree} (hc : BuilderCall.ofNode? node = some call)
    (h : depth + 1 + node.height ≤ limit) : NotTooDeep (call.statement? limit depth) := by
  rw [BuilderCall.statement?]
  split
  · exact .ok _
  · exact (notTooDeep_state? hc h).bind fun _ => .ok _
  · exact .ok _

theorem notTooDeep_ofBody {body : SyntaxTree} (h : depth + body.height ≤ limit) :
    NotTooDeep (Machine.ofBody limit depth body) := by
  refine (notTooDeep_checkDepth (by omega)).bind fun _ => ?_
  refine (NotTooDeep.mapM fun call hm => ?_).bind fun _ => .ok _
  obtain ⟨node, hc, hn⟩ := BuilderCall.height_of_mem hm
  exact notTooDeep_statement? hc (by omega)

/-- The node of a builder selects the call that creates a machine. -/
inductive Builder.CreatedAt : Builder → SyntaxTree → Prop where
  | create (hr : receiver.hasName "StateMachine" = true) (hc : callee.hasName "create" = true) :
      CreatedAt ⟨values, lambda⟩
        (.memberAccess whole receiver (.call place callee types values lambda) safe)

theorem Builder.createdAt {node : SyntaxTree} (h : Builder.ofNode? node = some builder) :
    builder.CreatedAt node := by
  rw [Builder.ofNode?.eq_def] at h
  split at h
  · split at h
    · next hnames =>
      cases h
      obtain ⟨hr, hc⟩ := Bool.and_eq_true_iff.1 hnames
      exact .create hr hc
    · cases h
  · cases h

theorem Builder.exists_selector {node : SyntaxTree} (h : Builder.ofNode? node = some builder) :
    ∃ selector ∈ node.children,
      ∀ child ∈ builder.valueArguments ++ builder.trailing.toList, child ∈ selector.children := by
  cases Builder.createdAt h with
  | create =>
    refine ⟨_, List.mem_cons_of_mem _ List.mem_cons_self, fun child hm => ?_⟩
    rw [Node.children, List.append_assoc]
    exact List.mem_cons_of_mem _ (List.mem_append_right _ hm)

theorem Builder.exists_argumentBody {builder : Builder} {body : SyntaxTree}
    (h : builder.body? = some body) :
    ∃ child ∈ builder.valueArguments ++ builder.trailing.toList,
      child.argumentExpression.lambdaBody? = some body := by
  refine exists_argument_of_lambdaBody (fun lambda hl => ?_) h
  obtain ⟨argument, hg, rfl⟩ := Option.map_eq_some_iff.1 (Option.eq_some_of_filter_eq_some hl)
  exact ⟨argument, List.mem_of_getLast? hg, rfl⟩

theorem Builder.height_body {node body : SyntaxTree} (h : Builder.ofNode? node = some builder)
    (hb : builder.body? = some body) : body.height + 1 ≤ node.height := by
  obtain ⟨child, hm, hl⟩ := exists_argumentBody hb
  obtain ⟨selector, hs, hc⟩ := exists_selector h
  calc body.height + 1
    _ ≤ child.argumentExpression.height := height_lambdaBody hl
    _ ≤ child.height := height_argumentExpression child
    _ ≤ selector.height := Node.height_le_of_mem (hc child hm)
    _ ≤ node.height := Node.height_le_of_mem hs

theorem toll_of_builder {node : SyntaxTree} (h : Builder.ofNode? node = some builder) :
    node.toll = 0 := by
  cases node with
  | memberAccess => rfl
  | _ => cases h

theorem notTooDeep_ownMachines {node : SyntaxTree} (h : depth + node.height ≤ limit + node.toll) :
    NotTooDeep (node.ownMachines limit depth) := by
  rw [SyntaxTree.ownMachines]
  split
  · exact .ok []
  · next builder ho =>
    split
    · intro _ he
      cases he
      exact ⟨_, _, rfl⟩
    · next body hb =>
      have := Builder.height_body ho hb
      have := toll_of_builder ho
      exact (notTooDeep_ofBody (by omega)).map _

theorem notTooDeep_machinesAt {node : SyntaxTree} (h : depth + node.height ≤ limit + node.toll) :
    NotTooDeep (node.machinesAt limit depth) := by
  induction node using Node.induction generalizing depth with
  | step node ih =>
    have hd : depth ≤ limit := by
      have := node.toll_le_height
      omega
    rw [SyntaxTree.machinesAt]
    refine (notTooDeep_checkDepth hd).bind fun _ => NotTooDeep.bind (.mapM ?_) fun _ =>
      (notTooDeep_ownMachines h).bind fun _ => .ok _
    rintro ⟨child, hc⟩ _
    refine ih child hc ?_
    have := Node.height_of_mem node hc
    have : (if child.opensLevel then depth + 1 else depth) = depth + child.toll := by
      rw [Node.toll]
      split <;> rfl
    omega

/-- A tree that was read within a limit nests no deeper than that limit for extraction, though
extraction counts its levels on its own. -/
theorem machines_of_parse {limit allowance : Nat} {text : String} {tree : SyntaxTree}
    (h : SyntaxTree.parse limit text = .ok tree) (hl : limit ≤ allowance) :
    (∃ machines, tree.machines allowance = .ok machines) ∨
      ∃ problem location,
        tree.machines allowance = .error (.malformedBuilder problem location) := by
  have hh : tree.height ≤ limit := height_of_parse h
  have hd : NotTooDeep (tree.machines allowance) := notTooDeep_machinesAt (by omega)
  cases hm : tree.machines allowance with
  | ok machines => exact .inl ⟨machines, rfl⟩
  | error fault =>
    obtain ⟨problem, location, rfl⟩ := hd fault hm
    exact .inr ⟨problem, location, rfl⟩

/-- Six levels are just enough to read a handler. -/
theorem machines_of_parse_handler : ∃ tree,
    SyntaxTree.parse 6
        "StateMachine.create \x7b state<A> \x7b on<E> \x7b \x7d \x7d \x7d" = .ok tree ∧
      ((∃ machines, tree.machines 6 = .ok machines) ∨
        ∃ problem location, tree.machines 6 = .error (.malformedBuilder problem location)) := by
  have hp : (SyntaxTree.parse 6
      "StateMachine.create \x7b state<A> \x7b on<E> \x7b \x7d \x7d \x7d").isOk = true := by
    decide +kernel
  cases ht : SyntaxTree.parse 6
      "StateMachine.create \x7b state<A> \x7b on<E> \x7b \x7d \x7d \x7d" with
  | ok tree => exact ⟨tree, rfl, machines_of_parse ht (Nat.le_refl 6)⟩
  | error => rw [ht] at hp; cases hp

end StateDiagram
