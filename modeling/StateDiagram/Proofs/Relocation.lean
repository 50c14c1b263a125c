import StateDiagram.Proofs.Annotation
import StateDiagram.Proofs.Result

namespace StateDiagram

set_option autoImplicit true

def KeepsText (move : Place → Place) : Prop := ∀ place, (move place).text = place.text

variable {move : Place → Place}

theorem SyntaxTree.unquoted_map (h : KeepsText move) (node : SyntaxTree) :
    SyntaxTree.unquoted (node.map move) = node.unquoted := by
  cases node <;> simp [Node.map_call, Node.map, SyntaxTree.unquoted, Node.info, h _]

def BuilderCall.map (move : Place → Place) (call : BuilderCall) : BuilderCall where
  name := call.name
  typeArguments := call.typeArguments.map (Node.map move)
  valueArguments := call.valueArguments.map (Node.map move)
  trailing := call.trailing.map (Node.map move)

namespace BuilderCall

theorem ofNode?_map (node : SyntaxTree) :
    ofNode? (node.map move) = (ofNode? node).map (BuilderCall.map move) := by
  cases node with
  | call place callee types values trailing =>
    rw [Node.map_call, ofNode?, ofNode?, Node.identifierName?_map, Option.map_map]
    rfl
  | _ => simp [Node.map, ofNode?]

theorem all_map (statements : List SyntaxTree) :
    all (statements.map (Node.map move)) = (all statements).map (BuilderCall.map move) := by
  rw [all, all, List.filterMap_map, List.map_filterMap]
  exact congrArg (List.filterMap · statements) (funext ofNode?_map)

theorem argument?_map (call : BuilderCall) (index : Nat) :
    (call.map move).argument? index = (call.argument? index).map (Node.map move) := by
  rw [argument?, argument?, BuilderCall.map, List.getElem?_map, Option.map_map, Option.map_map]
  exact congrArg (Option.map · _) (funext fun node => Node.argumentExpression_map move node)

theorem declaredName?_map (h : KeepsText move) (call : BuilderCall) :
    (call.map move).declaredName? = call.declaredName? := by
  obtain ⟨name, types, values, trailing⟩ := call
  cases types with
  | nil =>
    simp only [declaredName?, argument?_map, Option.map_map]
    exact congrArg (Option.map · _) (funext fun node => SyntaxTree.unquoted_map h node)
  | cons first types =>
    simp only [declaredName?, BuilderCall.map, List.map_cons, Node.info_map, h _]

theorem body?_map (call : BuilderCall) :
    (call.map move).body? = call.body?.map (Node.map move) := by
  obtain ⟨name, types, values, trailing⟩ := call
  cases trailing with
  | some trailing => exact Node.lambdaBody?_map move trailing
  | none =>
    have hf (nodes : List SyntaxTree) : (nodes.map (Node.map move)).find? Node.isLambda =
        (nodes.find? Node.isLambda).map (Node.map move) := by
      rw [List.find?_map]
      exact congrArg (Option.map _ <| List.find? · nodes) (funext (Node.isLambda_map move))
    have ha : (values.map (Node.map move)).reverse.map Node.argumentExpression =
        (values.reverse.map Node.argumentExpression).map (Node.map move) := by
      rw [← List.map_reverse, List.map_map, List.map_map]
      exact List.map_congr_left fun node _ => Node.argumentExpression_map move node
    simp only [body?, BuilderCall.map, Option.map_none, ha, hf]
    cases (values.reverse.map Node.argumentExpression).find? Node.isLambda with
    | none => rfl
    | some lambda => exact Node.lambdaBody?_map move lambda

end BuilderCall

theorem Transition.toTarget_map (h : KeepsText move) (event : String) (target : SyntaxTree) :
    Transition.toTarget event (target.map move) = Transition.toTarget event target := by
  cases target with
  | call place callee types values trailing =>
    rw [Node.map_call, Transition.toTarget, Transition.toTarget, Node.info_map, h, List.map_map]
    congr 1
    exact List.map_congr_left fun node _ => by
      rw [Function.comp_apply, Node.info_map, h]
  | _ =>
    have hu := SyntaxTree.unquoted_map h
    simp only [Transition.toTarget, Node.map, SyntaxTree.unquoted, Node.info, h _]

theorem BuilderCall.transition?_map (h : KeepsText move) (state event : String)
    (call : BuilderCall) :
    (call.map move).transition? state event = call.transition? state event := by
  have hu (index : Nat) : ((call.map move).argument? index).map SyntaxTree.unquoted =
      (call.argument? index).map SyntaxTree.unquoted := by
    rw [argument?_map, Option.map_map]
    exact congrArg (Option.map · _) (funext fun node => SyntaxTree.unquoted_map h node)
  have hn : (call.map move).name = call.name := rfl
  rw [transition?, transition?, hn, hu, hu, argument?_map, Option.map_map]
  have ht : (fun target : SyntaxTree => { Transition.toTarget event target with
      sideEffect := (call.argument? 1).map SyntaxTree.unquoted }) ∘ Node.map move =
      fun target => { Transition.toTarget event target with
        sideEffect := (call.argument? 1).map SyntaxTree.unquoted } :=
    funext fun target => by rw [Function.comp_apply, Transition.toTarget_map h]
  rw [ht]

theorem handlerTransitions_map (h : KeepsText move) (limit depth : Nat) (state event : String)
    (body : SyntaxTree) : handlerTransitions limit depth state event (body.map move) =
      handlerTransitions limit depth state event body := by
  rw [handlerTransitions, handlerTransitions, Node.statements_map, BuilderCall.all_map,
    List.filterMap_map]
  have hc : (fun call => BuilderCall.transition? state event call) ∘ BuilderCall.map move =
      (·.transition? state event) := funext (BuilderCall.transition?_map h state event)
  rw [hc]

theorem State.extend_map (h : KeepsText move) (limit depth : Nat) (state : State)
    (call : BuilderCall) :
    State.extend limit depth state (call.map move) = State.extend limit depth state call := by
  have hn : (call.map move).name = call.name := rfl
  rw [State.extend, State.extend, hn, BuilderCall.declaredName?_map h, BuilderCall.body?_map]
  cases call.body? with
  | none => rfl
  | some body =>
    simp only [Option.map_some, Node.info_map, h _]
    cases call.declaredName? with
    | none => rfl
    | some event => simp only [handlerTransitions_map h]

theorem BuilderCall.state?_map (h : KeepsText move) (limit depth : Nat) (call : BuilderCall) :
    (call.map move).state? limit depth = call.state? limit depth := by
  have he : (fun state call => State.extend limit depth state (BuilderCall.map move call)) =
      State.extend limit depth :=
    funext fun state => funext (State.extend_map h limit depth state)
  rw [state?, state?, declaredName?_map h, body?_map]
  cases call.body? with
  | none => rfl
  | some body =>
    simp only [Option.map_some, Node.statements_map, all_map, List.foldlM_map, he]

theorem BuilderCall.statement?_map (h : KeepsText move) (limit depth : Nat) (call : BuilderCall) :
    (call.map move).statement? limit depth = call.statement? limit depth := by
  have hn : (call.map move).name = call.name := rfl
  have hi : ((call.map move).argument? 0).map (fun name => Statement.initial name.unquoted) =
      (call.argument? 0).map fun name => .initial name.unquoted := by
    rw [argument?_map, Option.map_map]
    exact congrArg (Option.map · _) (funext fun node => by
      rw [Function.comp_apply, SyntaxTree.unquoted_map h])
  rw [statement?, statement?, hn, hi, state?_map h]

theorem Machine.ofBody_map (h : KeepsText move) (limit depth : Nat) (body : SyntaxTree) :
    Machine.ofBody limit depth (body.map move) = Machine.ofBody limit depth body := by
  have hs : (fun call => BuilderCall.statement? limit depth call) ∘ BuilderCall.map move =
      (·.statement? limit depth) := funext (BuilderCall.statement?_map h limit depth)
  rw [Machine.ofBody, Machine.ofBody, Node.statements_map, BuilderCall.all_map, List.mapM_map, hs]

def Builder.map (move : Place → Place) (builder : Builder) : Builder where
  valueArguments := builder.valueArguments.map (Node.map move)
  trailing := builder.trailing.map (Node.map move)

namespace Builder

theorem ofNode?_map (node : SyntaxTree) :
    ofNode? (node.map move) = (ofNode? node).map (Builder.map move) := by
  cases node with
  | memberAccess place receiver selector safe =>
    cases selector with
    | call inner callee types values trailing =>
      simp only [Node.map, Node.map_call, ofNode?, Node.hasName_map]
      split <;> rfl
    | _ => simp [Node.map, ofNode?]
  | call => simp [Node.map_call, ofNode?]
  | _ => simp [Node.map, ofNode?]

theorem body?_map (builder : Builder) :
    (builder.map move).body? = builder.body?.map (Node.map move) := by
  obtain ⟨values, trailing⟩ := builder
  cases trailing with
  | some trailing => exact Node.lambdaBody?_map move trailing
  | none =>
    have ha : (values.map (Node.map move)).getLast?.map Node.argumentExpression =
        (values.getLast?.map Node.argumentExpression).map (Node.map move) := by
      rw [List.getLast?_map, Option.map_map, Option.map_map]
      exact congrArg (Option.map · _) (funext (Node.argumentExpression_map move))
    simp only [body?, Builder.map, Option.map_none, ha]
    cases values.getLast?.map Node.argumentExpression with
    | none => rfl
    | some node =>
      rw [Option.map_some, Option.filter_some, Option.filter_some, Node.isLambda_map]
      split
      · exact Node.lambdaBody?_map move node
      · rfl

end Builder

theorem SyntaxTree.ownMachines_map (h : KeepsText move) (limit depth : Nat) (node : SyntaxTree) :
    SyntaxTree.ownMachines limit depth (node.map move) = .ok found ↔
      node.ownMachines limit depth = .ok found := by
  rw [ownMachines, Builder.ofNode?_map, ownMachines]
  cases Builder.ofNode? node with
  | none => exact Iff.rfl
  | some builder =>
    simp only [Option.map_some, Builder.body?_map]
    cases builder.body? with
    | none => exact ⟨nofun, nofun⟩
    | some body => simp only [Option.map_some, Machine.ofBody_map h]

theorem SyntaxTree.machinesAt_eq (limit depth : Nat) (node : SyntaxTree) :
    node.machinesAt limit depth = do
      checkDepth limit depth
      let nested ← node.children.mapM fun child =>
        SyntaxTree.machinesAt limit (if child.opensLevel then depth + 1 else depth) child
      let own ← node.ownMachines limit depth
      return nested.flatten ++ own := by
  rw [machinesAt, List.mapM_subtype fun _ _ => rfl, List.unattach_attach]

/-- Moving the nodes of a tree leaves its machines alone. -/
theorem SyntaxTree.machinesAt_map (h : KeepsText move) (node : SyntaxTree) :
    SyntaxTree.machinesAt limit depth (node.map move) = .ok found ↔
      node.machinesAt limit depth = .ok found := by
  induction node using Node.induction generalizing depth found with
  | step node ih =>
    have hn (nested : List (List Machine)) :
        (node.map move).children.mapM (fun child =>
          SyntaxTree.machinesAt limit (if child.opensLevel then depth + 1 else depth) child) =
            .ok nested ↔
        node.children.mapM (fun child =>
          SyntaxTree.machinesAt limit (if child.opensLevel then depth + 1 else depth) child) =
            .ok nested := by
      rw [Node.children_map, List.mapM_map]
      refine BindClosed.sameValue.mapM (fun child hc result => ?_) nested
      rw [Function.comp_apply, Node.opensLevel_map]
      exact ih child hc
    rw [machinesAt_eq, machinesAt_eq]
    simp only [bind_eq_ok, hn, ownMachines_map h]

end StateDiagram
