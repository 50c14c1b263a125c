import StateDiagram.Proofs.Nesting
import StateDiagram.Proofs.Relocation
import StateDiagram.Proofs.Traversal

namespace StateDiagram

set_option autoImplicit true

/-- The state with what a call in its body adds to it. -/
def State.extended (state : State) (call : BuilderCall) : State :=
  match call.name, call.declaredName?, call.body? with
  | "on", some event, some handler =>
    { state with transitions := state.transitions ++
        (BuilderCall.all handler.statements).filterMap (·.transition? state.name event) }
  | "onEnter", _, some block => { state with onEnter := state.onEnter ++ [block.info.text] }
  | "onExit", _, some block => { state with onExit := state.onExit ++ [block.info.text] }
  | _, _, _ => state

/-- Coming into a state, or going out of it. -/
inductive Crossing where
  | enter
  | exit

namespace Crossing

def word : Crossing → String
  | enter => "onEnter"
  | exit => "onExit"

def snippets : Crossing → State → List String
  | enter => State.onEnter
  | exit => State.onExit

def add (crossing : Crossing) (more : List String) (state : State) : State :=
  match crossing with
  | enter => { state with onEnter := state.onEnter ++ more }
  | exit => { state with onExit := state.onExit ++ more }

theorem add_nil (crossing : Crossing) (state : State) : crossing.add [] state = state := by
  cases crossing <;> rw [add, List.append_nil]

theorem add_add (crossing : Crossing) (front back : List String) (state : State) :
    crossing.add back (crossing.add front state) = crossing.add (front ++ back) state := by
  cases crossing <;> simp only [add, List.append_assoc]

end Crossing

/-- The ways in which a call in its body changes a state. -/
inductive State.Extension (state : State) (call : BuilderCall) : State → Prop where
  | handler (hn : call.name = "on") (he : call.declaredName? = some event)
      (hb : call.body? = some handler) :
      Extension state call { state with transitions := state.transitions ++
        (BuilderCall.all handler.statements).filterMap (·.transition? state.name event) }
  | crossing (crossing : Crossing) (hn : call.name = crossing.word)
      (hb : call.body? = some block) :
      Extension state call (crossing.add [block.info.text] state)
  | none (h : ∀ (crossing : Crossing) (block : SyntaxTree), call.name = crossing.word →
      call.body? = some block → False) : Extension state call state

theorem State.extension (state : State) (call : BuilderCall) :
    state.Extension call (state.extended call) := by
  rw [extended]
  split
  · next hn he hb => exact .handler hn he hb
  · next hn hb => exact .crossing .enter hn hb
  · next hn hb => exact .crossing .exit hn hb
  · next henter hexit _ =>
    refine .none fun crossing block hn hb => ?_
    cases crossing with
    | enter => exact henter block hn hb
    | exit => exact hexit block hn hb

def BuilderCall.declaredState? (call : BuilderCall) : Option State :=
  call.declaredName?.map fun name =>
    match call.body? with
    | none => { name }
    | some body => (BuilderCall.all body.statements).foldl State.extended { name }

def BuilderCall.declared? (call : BuilderCall) : Option Statement :=
  match call.name with
  | "initialState" => (call.argument? 0).map fun name => .initial name.unquoted
  | "state" => call.declaredState?.map .state
  | _ => none

/-- The machine that the statements of a body describe. -/
def Machine.described (statements : List SyntaxTree) : Machine :=
  ⟨(BuilderCall.all statements).filterMap BuilderCall.declared?⟩

/-- The builders of a tree with the places they stand at, in post-order. -/
def SyntaxTree.builders (tree : SyntaxTree) : List (Place × Builder) :=
  tree.postorder.filterMap fun node => (Builder.ofNode? node).map fun builder =>
    (node.info, builder)

/-- The most levels that lie on one path below the node. -/
def Node.levelsBelow (node : Node α) : Nat :=
  (node.children.attach.map fun ⟨child, _⟩ => child.toll + child.levelsBelow).foldr max 0
termination_by sizeOf node
decreasing_by exact Node.sizeOf_lt_of_mem_children ‹_›

theorem Node.levelsBelow_of_mem {node child : Node α} (h : child ∈ node.children) :
    child.toll + child.levelsBelow ≤ node.levelsBelow := by
  rw [levelsBelow.eq_def node]
  apply foldr_max_le_iff.1 (Nat.le_refl _)
  exact List.mem_map.2 ⟨⟨child, h⟩, List.mem_attach .., rfl⟩

/-- The result is the expected one, or a complaint about a limit that is less than needed. -/
def Settles (limit need : Nat) (result expected : Except Fault α) : Prop :=
  result = expected ∨ limit < need ∧ result = .error (.nestingTooDeep limit)

namespace Settles

theorem refl (result : Except Fault α) : Settles limit need result result := .inl rfl

theorem mono (h : Settles limit need result expected) (hn : need ≤ more) :
    Settles limit more result expected := by
  rcases h with he | ⟨hl, he⟩
  · exact .inl he
  · exact .inr ⟨Nat.lt_of_lt_of_le hl hn, he⟩

theorem bind {result expected : Except Fault α} {f g : α → Except Fault β}
    (h : Settles limit need result expected)
    (hn : ∀ value, Settles limit need (f value) (g value)) :
    Settles limit need (result >>= f) (expected >>= g) := by
  rcases h with rfl | ⟨hl, rfl⟩
  · cases result with
    | error fault => exact .inl rfl
    | ok value => exact hn value
  · exact .inr ⟨hl, rfl⟩

theorem checkDepth (limit depth : Nat) :
    Settles limit depth (StateDiagram.checkDepth limit depth) (.ok ()) := by
  rw [StateDiagram.checkDepth]
  split
  · exact .inl rfl
  · next hd => exact .inr ⟨Nat.lt_of_not_le hd, rfl⟩

/-- A check of the depth in front changes nothing but the complaint. -/
theorem checked {next expected : Except Fault α} (h : Settles limit need next expected)
    (hd : depth ≤ need) :
    Settles limit need (StateDiagram.checkDepth limit depth >>= fun _ => next) expected :=
  ((checkDepth limit depth).mono hd).bind fun _ => h

theorem bindClosed (limit need : Nat) : BindClosed fun _ => Settles limit need where
  ok _ := .refl _
  bind := .bind

theorem foldlM {α β : Type} {f : β → α → Except Fault β} {g : β → α → β} {values : List α}
    (h : ∀ state value, Settles limit need (f state value) (.ok (g state value))) (state : β) :
    Settles limit need (values.foldlM f state) (.ok (values.foldl g state)) := by
  have hp : values.foldlM (fun state value => (.ok (g state value) : Except Fault β)) state =
      .ok (values.foldl g state) := List.foldlM_pure
  rw [← hp]
  exact (bindClosed limit need).foldlM (fun value _ state => h state value) state

end Settles

theorem settles_handlerTransitions (limit depth : Nat) (state event : String)
    (body : SyntaxTree) :
    Settles limit depth (handlerTransitions limit depth state event body)
      (.ok ((BuilderCall.all body.statements).filterMap (·.transition? state event))) :=
  Settles.checked (.refl _) (Nat.le_refl depth)

theorem settles_extend (limit depth : Nat) (state : State) (call : BuilderCall) :
    Settles limit (depth + 1) (State.extend limit depth state call)
      (.ok (state.extended call)) := by
  rw [State.extend, State.extended]
  split
  · next hc =>
    rw [hc]
    cases call.declaredName? with
    | none => exact .refl _
    | some event =>
      cases call.body? with
      | none => exact .refl _
      | some handler =>
        exact (settles_handlerTransitions limit (depth + 1) _ _ _).bind fun _ => .refl _
  · next hc =>
    rw [hc]
    cases call.body? <;> exact .refl _
  · next hc =>
    rw [hc]
    cases call.body? <;> exact .refl _
  · next hon henter hexit =>
    split
    · next hc _ _ => exact (hon hc).elim
    · next hc _ => exact (henter hc).elim
    · next hc _ => exact (hexit hc).elim
    · exact .refl _

theorem settles_state? (limit depth : Nat) (call : BuilderCall) :
    Settles limit (depth + 1) (call.state? limit depth) (.ok call.declaredState?) := by
  apply Settles.checked _ (Nat.le_succ depth)
  rw [BuilderCall.declaredState?]
  cases call.declaredName? with
  | none => exact .refl _
  | some name =>
    cases call.body? with
    | none => exact .refl _
    | some body =>
      exact (Settles.foldlM (settles_extend limit depth) _).bind fun _ => .refl _

theorem settles_statement? (limit depth : Nat) (call : BuilderCall) :
    Settles limit (depth + 2) (call.statement? limit depth) (.ok call.declared?) := by
  rw [BuilderCall.statement?]
  split
  · next hc =>
    have hd : call.declared? = (call.argument? 0).map fun name => .initial name.unquoted := by
      simp only [BuilderCall.declared?, hc]
    rw [hd]
    exact .refl _
  · next hc =>
    have hd : call.declared? = call.declaredState?.map .state := by
      simp only [BuilderCall.declared?, hc]
    rw [hd]
    exact (settles_state? limit (depth + 1) call).bind fun _ => .refl _
  · next hi hs =>
    have hd : call.declared? = none := by
      rw [BuilderCall.declared?]
      split
      · next hc => exact (hi hc).elim
      · next hc => exact (hs hc).elim
      · rfl
    rw [hd]
    exact .refl _

/-- A body needs two levels below its own, for the states in it and for their handlers. -/
theorem settles_ofBody (limit depth : Nat) (body : SyntaxTree) :
    Settles limit (depth + 2) (Machine.ofBody limit depth body)
      (.ok (Machine.described body.statements)) := by
  have hp : (BuilderCall.all body.statements).mapM
      (fun call => (.ok call.declared? : Except Fault _)) = .ok _ := List.mapM_pure
  have hm := hp ▸ (Settles.bindClosed limit (depth + 2)).mapM fun call _ =>
    settles_statement? limit depth call
  have hb := (hm.bind fun statements =>
    .refl (.ok (Machine.mk (statements.filterMap id)))).checked (Nat.le_add_right depth 2)
  have hi : (BuilderCall.all body.statements).filterMap BuilderCall.declared? =
      ((BuilderCall.all body.statements).map BuilderCall.declared?).filterMap id := by
    rw [List.filterMap_map, Function.id_comp]
  rw [Machine.described, hi]
  exact hb

def Builder.machine (found : Place × Builder) : Except Fault Machine :=
  match found.2.body? with
  | none =>
    .error (.malformedBuilder "expected lambda argument to StateMachine.create" found.1.location)
  | some body => .ok (Machine.described body.statements)

/-- The machines of builders, unless one of them has no body. -/
def Builder.machines (builders : List (Place × Builder)) : Except Fault (List Machine) :=
  builders.mapM machine

theorem SyntaxTree.builders_eq (tree : SyntaxTree) :
    tree.builders = tree.children.flatMap builders ++
      (Builder.ofNode? tree).toList.map fun builder => (tree.info, builder) := by
  rw [builders, Node.postorder_eq, List.filterMap_append, List.filterMap_flatMap]
  congr 1
  cases ho : Builder.ofNode? tree with
  | none => simp [ho]
  | some builder => simp [ho]

theorem Builder.machines_append (front back : List (Place × Builder)) :
    machines (front ++ back) = (do
      let first ← machines front
      let second ← machines back
      return first ++ second) := List.mapM_append

theorem Builder.machines_flatMap (nodes : List SyntaxTree)
    (builders : SyntaxTree → List (Place × Builder)) :
    machines (nodes.flatMap builders) =
      List.flatten <$> nodes.mapM fun node => machines (builders node) := by
  induction nodes with
  | nil => rfl
  | cons node nodes ih =>
    rw [List.flatMap_cons, machines_append, ih, List.mapM_cons]
    cases machines (builders node) with
    | error fault => rfl
    | ok first => cases nodes.mapM fun node => machines (builders node) <;> rfl

theorem settles_ownMachines (limit depth : Nat) (node : SyntaxTree) :
    Settles limit (depth + 3) (node.ownMachines limit depth)
      (Builder.machines
        ((Builder.ofNode? node).toList.map fun builder => (node.info, builder))) := by
  rw [SyntaxTree.ownMachines]
  cases Builder.ofNode? node with
  | none => exact .refl _
  | some builder =>
    simp only [Option.toList_some, List.map_cons, List.map_nil, Builder.machines, List.mapM_cons,
      List.mapM_nil, Builder.machine]
    cases builder.body? with
    | none => exact .refl _
    | some body => exact (settles_ofBody limit (depth + 1) body).bind fun _ => .refl _

/-- Below a node the walk and its complaints go on at the level of each child. -/
theorem settles_machinesAt (limit depth : Nat) (node : SyntaxTree) :
    Settles limit (depth + node.levelsBelow + 3) (node.machinesAt limit depth)
      (Builder.machines node.builders) := by
  induction node using Node.induction generalizing depth with
  | step node ih =>
    have hc : ∀ child ∈ node.children,
        Settles limit (depth + node.levelsBelow + 3)
          (SyntaxTree.machinesAt limit (if child.opensLevel then depth + 1 else depth) child)
          (Builder.machines (SyntaxTree.builders child)) := by
      intro child hm
      have hl := Node.levelsBelow_of_mem hm
      rw [Node.toll] at hl
      apply (ih child hm _).mono
      split at hl
      · next ho =>
        rw [if_pos ho]
        omega
      · next ho =>
        rw [if_neg ho]
        omega
    have hle : depth + 3 ≤ depth + node.levelsBelow + 3 := by omega
    have ho := (settles_ownMachines limit depth node).mono hle
    rw [SyntaxTree.machinesAt_eq, SyntaxTree.builders_eq, Builder.machines_append,
      Builder.machines_flatMap, map_eq_pure_bind, bind_assoc]
    apply Settles.checked _ (by omega)
    exact ((Settles.bindClosed _ _).mapM hc).bind fun nested => ho.bind fun own => .refl _

theorem Builder.machines_of_bodies {builders : List (Place × Builder)} {bodies : List SyntaxTree}
    (h : builders.map (·.2.body?) = bodies.map some) :
    machines builders = .ok (bodies.map fun body => Machine.described body.statements) := by
  induction builders generalizing bodies with
  | nil =>
    cases bodies with
    | nil => rfl
    | cons body bodies => cases h
  | cons builder builders ih =>
    cases bodies with
    | nil => cases h
    | cons body bodies =>
      obtain ⟨hb, h⟩ := List.cons.inj h
      dsimp only at hb
      rw [machines] at ih ⊢
      rw [List.mapM_cons, ih h, machine, hb]
      rfl

theorem Builder.machines_of_missing {front back : List (Place × Builder)} {place : Place}
    {builder : Builder} (hf : ∀ before ∈ front, before.2.body?.isSome = true)
    (hb : builder.body? = none) :
    machines (front ++ (place, builder) :: back) =
      .error (.malformedBuilder "expected lambda argument to StateMachine.create"
        place.location) := by
  induction front with
  | nil =>
    rw [List.nil_append, machines, List.mapM_cons, machine]
    dsimp only
    rw [hb]
    rfl
  | cons before front ih =>
    obtain ⟨hs, hf⟩ := List.forall_mem_cons.1 hf
    obtain ⟨body, hs⟩ := Option.isSome_iff_exists.1 hs
    rw [machines] at ih ⊢
    rw [List.cons_append, List.mapM_cons, ih hf, machine, hs]
    rfl

/-- Extraction from any tree. Under a limit with three levels to spare there is one machine for
each builder, in post-order, as the statements of its own body describe it; the first builder
without a body is complained about instead. Any smaller limit gives the same or is complained
about itself. -/
theorem machines_of_builders (tree : SyntaxTree) {limit : Nat}
    (hl : tree.levelsBelow + 3 ≤ limit) :
    (∀ bodies : List SyntaxTree, tree.builders.map (·.2.body?) = bodies.map some →
      tree.machines limit = .ok (bodies.map fun body => Machine.described body.statements)) ∧
    (∀ front place builder back, tree.builders = front ++ (place, builder) :: back →
      (∀ before ∈ front, before.2.body?.isSome = true) → builder.body? = none →
      tree.machines limit =
        .error (.malformedBuilder "expected lambda argument to StateMachine.create"
          place.location)) ∧
    ∀ smaller < limit, tree.machines smaller = .error (.nestingTooDeep smaller) ∨
      tree.machines smaller = tree.machines limit := by
  have settled (limit : Nat) := settles_machinesAt limit 0 tree
  have he : tree.machines limit = Builder.machines tree.builders := by
    rcases settled limit with he | ⟨hn, _⟩
    · exact he
    · omega
  refine ⟨fun bodies hb => ?_, fun front place builder back hs hf hb => ?_, fun smaller _ => ?_⟩
  · rw [he, Builder.machines_of_bodies hb]
  · rw [he, hs, Builder.machines_of_missing hf hb]
  · rcases settled smaller with hs | ⟨_, hs⟩
    · exact .inr (hs.trans he.symm)
    · exact .inl hs

namespace SyntaxTree

/-- A body that names an initial state and holds more statements behind that. -/
def initialBody (name : String) (more : List SyntaxTree) : SyntaxTree :=
  let place : Place := ⟨⟨0, 0⟩, ⟨1, 1⟩, ""⟩
  .block place
    (.call place (.identifier place "initialState") [] [.stringLiteral place name] none :: more)

def builderOf (body : SyntaxTree) : SyntaxTree :=
  let place : Place := ⟨⟨0, 0⟩, ⟨1, 1⟩, ""⟩
  .memberAccess place (.identifier place "StateMachine")
    (.call place (.identifier place "create") [] [] (some (.lambda place none body))) false

end SyntaxTree

open SyntaxTree in
/-- The inner one of two builders comes first. Their two levels and three to spare are enough. -/
theorem machines_of_builders_nested :
    (builderOf (initialBody "A" [builderOf (initialBody "B" [])])).levelsBelow + 3 ≤ 5 ∧
      (builderOf (initialBody "A" [builderOf (initialBody "B" [])])).machines 5 =
        .ok [⟨[.initial "B"]⟩, ⟨[.initial "A"]⟩] := by
  have hl :
      (builderOf (initialBody "A" [builderOf (initialBody "B" [])])).levelsBelow + 3 ≤ 5 := by
    decide +kernel
  have hb : (builderOf (initialBody "A" [builderOf (initialBody "B" [])])).builders.map
      (·.2.body?) =
        [initialBody "B" [], initialBody "A" [builderOf (initialBody "B" [])]].map some := by
    simp [builderOf, initialBody, builders_eq, Node.children, Builder.ofNode?, Builder.body?,
      Node.hasName, Node.identifierName?, Node.lambdaBody?]
  have hm := (machines_of_builders _ hl).1 _ hb
  exact ⟨hl, hm⟩

end StateDiagram
