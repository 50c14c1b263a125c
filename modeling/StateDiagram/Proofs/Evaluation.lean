import StateDiagram.Proofs.Body
import StateDiagram.Proofs.Relocation

namespace StateDiagram

set_option autoImplicit true

open Text

variable {f : Layout} {tree : Node String}

def ReadsFile (n : Nat) (layout : Layout) (trees : List (Node String)) : Prop :=
  ∀ ⦃source : Source⦄ ⦃stop : Nat⦄, source.Holds 0 stop layout →
    ∃ nodes, Reaches source n none (layout.tokens 0) nodes [] ∧
      nodes.map (Node.map source.slice) = trees

theorem ReadsFile.blank (hb : f.Blank) : ReadsFile n f [] := by
  intro source stop hh
  have hr : Reaches source n none (f.tokens 0 ++ []) [] [] := Reaches.finish.blank hb 0
  rw [List.append_nil] at hr
  exact ⟨[], hr, rfl⟩

theorem ReadsStatements.file (h : ReadsStatements n f trees) (ht : trail.Blank) :
    ReadsFile n (f ++ trail) trees := by
  intro source stop hh
  obtain ⟨last, hf, hbehind, hw⟩ := hh.append
  have hends : EndsBody (trail.tokens last ++ []) := EndsBody.nil.blank ht last
  obtain ⟨nodes, hshows, hreach⟩ := h.reads none hf hends
  have hr := hreach (Reaches.finish.blank ht last)
  rw [List.append_nil, List.append_nil, ← hw] at hr
  exact ⟨nodes, hr, hshows.texts⟩

theorem Text.joinCrLf_of_not_mem {cs : List Char} (h : '\r' ∉ cs) : joinCrLf cs = cs := by
  induction cs with
  | nil => rfl
  | cons c cs ih =>
    rw [List.mem_cons, not_or] at h
    rw [joinCrLf.eq_def]
    split
    · next he => cases he
    · next he =>
      cases he
      exact (h.1 rfl).elim
    · next he =>
      cases he
      rw [ih h.2]

theorem Text.normalizeLineEndings_of_not_mem {cs : List Char} (h : '\r' ∉ cs) :
    normalizeLineEndings cs = cs := by
  rw [normalizeLineEndings, joinCrLf_of_not_mem h]
  refine (List.map_congr_left fun c hc => if_neg ?_).trans (List.map_id cs)
  rintro rfl
  exact h hc

/-- A place of which the text alone matters. -/
def Place.ofText (text : String) : Place := ⟨⟨0, 0⟩, .after [], text⟩

def Node.placed (tree : Node String) : SyntaxTree := tree.map Place.ofText

theorem keepsText_ofText : KeepsText (Place.ofText ·.text) := fun _ => rfl

theorem Node.placed_texts (tree : SyntaxTree) :
    (tree.map Place.text).placed = tree.map (Place.ofText ·.text) := Node.map_map ..

theorem Source.texts_locate (source : Source) (outline : Outline) :
    (outline.map source.locate).map Place.text = outline.map source.slice := Node.map_map ..

/-- A layout that is read is parsed, and the tree has the texts that the layout is read with. -/
theorem parse_of_reads (hf : ReadsFile limit f trees) (hl : Layout.Lexical [] f)
    (hr : '\r' ∉ f.chars) : ∃ tree : SyntaxTree, SyntaxTree.parse limit f.text = .ok tree ∧
      tree.map Place.text = .file f.text trees := by
  have hs : Source.ofString f.text = ⟨f.chars⟩ := by
    rw [Source.ofString, Layout.text, String.toList_ofList, normalizeLineEndings_of_not_mem hr]
  have hh : (Source.mk f.chars).Holds 0 f.size f :=
    ⟨⟨[], [], (List.append_nil _).symm, rfl⟩, Nat.zero_add _⟩
  obtain ⟨nodes, hreach, htexts⟩ := hf hh
  obtain ⟨next, hd, _⟩ := hreach 0
  have htokens : (Source.mk f.chars).tokens = f.tokens 0 := Token.scan_layout hl 0
  rw [← htokens] at hd
  have ho := Source.outline?_eq_some_iff.2 ⟨nodes, next, rfl, hd⟩
  have hp : SyntaxTree.parse limit f.text =
      .ok ((Node.file ⟨0, f.size⟩ nodes).map (Source.mk f.chars).locate) := by
    rw [SyntaxTree.parse, hs, Source.parse, ho]
    rfl
  have ht : (Node.file ⟨0, f.size⟩ nodes).map (Source.mk f.chars).slice = .file f.text trees := by
    rw [Node.map, htexts, hh.slice_eq]
  refine ⟨_, hp, ?_⟩
  rw [Source.texts_locate, ht]

/-- What is found in the trees of a layout is found in its text. -/
theorem extractMachines_of_reads {limits : Limits} (hf : ReadsFile limits.syntaxDepth f trees)
    (hl : Layout.Lexical [] f) (hr : '\r' ∉ f.chars)
    (hm : ∀ whole, (Node.file whole trees).placed.machinesAt limits.extractionDepth 0 = .ok found) :
    extractMachines limits f.text = .ok found := by
  obtain ⟨tree, hp, ht⟩ := parse_of_reads hf hl hr
  rw [extractMachines, hp]
  refine (SyntaxTree.machinesAt_map keepsText_ofText tree).1 ?_
  rw [← Node.placed_texts, ht]
  exact hm _

namespace Node

theorem machinesAt_placed {values : List α} {child : α → Node String}
    (machines : α → List Machine) (hv : tree.children = values.map child) (hd : depth ≤ limit)
    (hc : ∀ value ∈ values,
      (child value).placed.machinesAt limit
        (if (child value).opensLevel then depth + 1 else depth) = .ok (machines value))
    (ho : SyntaxTree.ownMachines limit depth tree.placed = .ok own) :
    tree.placed.machinesAt limit depth = .ok (values.flatMap machines ++ own) := by
  have hn : tree.placed.children.mapM (fun child => SyntaxTree.machinesAt limit
      (if child.opensLevel then depth + 1 else depth) child) = .ok (values.map machines) := by
    rw [placed, children_map, hv, List.mapM_map, List.mapM_map]
    refine mapM_eq_ok fun value hm => ?_
    rw [Function.comp_apply, Function.comp_apply, opensLevel_map]
    exact hc value hm
  rw [SyntaxTree.machinesAt_eq, checkDepth, if_pos hd, hn, ho]
  rfl

/-- No builder stands in the tree, and it opens at most the given number of levels. -/
def Quiet (n : Nat) (tree : Node String) : Prop :=
  ∀ ⦃limit depth : Nat⦄, depth + n ≤ limit → tree.placed.machinesAt limit depth = .ok []

theorem Quiet.mono (h : tree.Quiet m) (hn : m ≤ n) : tree.Quiet n :=
  fun limit depth hd => h (by omega)

theorem Quiet.of_level (ho : Builder.ofNode? tree.placed = none)
    (h : ∀ child ∈ tree.children, ∀ ⦃limit depth : Nat⦄, depth + n ≤ limit →
      child.placed.machinesAt limit (if child.opensLevel then depth + 1 else depth) = .ok []) :
    tree.Quiet n := by
  intro limit depth hd
  have hown : SyntaxTree.ownMachines limit depth tree.placed = .ok [] := by
    rw [SyntaxTree.ownMachines, ho]
  have hm := machinesAt_placed (fun _ => []) (List.map_id _).symm (Nat.le_of_add_right_le hd)
    (fun child hm => h child hm hd) hown
  rwa [List.flatMap_eq_nil_iff.2 fun _ _ => rfl] at hm

theorem Quiet.of_children (ho : Builder.ofNode? tree.placed = none)
    (h : ∀ child ∈ tree.children, child.Quiet n) : tree.Quiet (n + 1) := by
  refine .of_level ho fun child hm limit depth hd => ?_
  have hl : (if child.opensLevel then depth + 1 else depth) + n ≤ limit := by
    split <;> omega
  exact h child hm hl

/-- Children that open no level count as much as their node. -/
theorem Quiet.of_flat (ho : Builder.ofNode? tree.placed = none)
    (h : ∀ child ∈ tree.children, child.opensLevel = false ∧ child.Quiet n) : tree.Quiet n := by
  refine .of_level ho fun child hm limit depth hd => ?_
  rw [(h child hm).1]
  exact (h child hm).2 hd

theorem Quiet.leaf (ho : Builder.ofNode? tree.placed = none) (hc : tree.children = []) :
    tree.Quiet n :=
  .of_flat ho (by rw [hc]; exact List.forall_mem_nil _)

theorem ofNode?_placed (h : ∀ text receiver selector safe,
    tree ≠ .memberAccess text receiver selector safe) : Builder.ofNode? tree.placed = none := by
  cases tree with
  | memberAccess text receiver selector safe => exact (h _ _ _ _ rfl).elim
  | _ => simp [placed, map_call, map, Builder.ofNode?]

theorem Quiet.identifier (name : Identifier) : name.tree.Quiet n :=
  .leaf (ofNode?_placed nofun) rfl

theorem Quiet.valueArgument (h : tree.Quiet n) : (valueArgument text name tree).Quiet (n + 1) :=
  .of_children (ofNode?_placed nofun) (List.forall_mem_singleton.2 h)

theorem Quiet.block (h : ∀ tree ∈ trees, tree.Quiet n) : (block text trees).Quiet (n + 1) :=
  .of_children (ofNode?_placed nofun) h

theorem Quiet.lambda (h : tree.Quiet n) : (lambda text parameters tree).Quiet (n + 1) :=
  .of_children (ofNode?_placed nofun) (List.forall_mem_singleton.2 h)

theorem Quiet.call {callee : Identifier} (types : List String)
    (hv : ∀ value ∈ values, value.Quiet n) (hl : ∀ lambda ∈ trailing, lambda.Quiet n) :
    (call text callee.tree (types.map typeArgument) values trailing).Quiet (n + 1) := by
  refine .of_children (ofNode?_placed fun _ _ _ _ h => by cases h) fun child hm => ?_
  simp only [children, List.mem_cons, List.mem_append, List.mem_map, Option.mem_toList] at hm
  rcases hm with rfl | (⟨_, _, rfl⟩ | hm) | hm
  · exact .identifier callee
  · exact .leaf (ofNode?_placed fun _ _ _ _ h => by cases h) rfl
  · exact hv child hm
  · exact hl child hm

end Node

theorem BuilderCall.ofNode?_placed (text : String) (callee : Identifier)
    (types values : List (Node String)) (trailing : Option (Node String)) :
    ofNode? (Node.call text callee.tree types values trailing).placed =
      some ⟨callee.text, types.map Node.placed, values.map Node.placed,
        trailing.map Node.placed⟩ := by
  rw [Node.placed, Node.map_call, ofNode?, Identifier.tree, Node.map]
  rfl

/-- The tree stands for the statement, or for none, in the body of a builder. -/
def Yields (limit depth : Nat) (tree : Node String) (found : Option Statement) : Prop :=
  (BuilderCall.ofNode? tree.placed = none ∧ found = none) ∨
    ∃ call, BuilderCall.ofNode? tree.placed = some call ∧
      call.statement? limit depth = .ok found

theorem Machine.ofBody_placed {values : List α} {tree : α → Node String}
    {found : α → Option Statement} (hd : depth ≤ limit)
    (h : ∀ value ∈ values, Yields limit depth (tree value) (found value)) (text : String) :
    Machine.ofBody limit depth (Node.block text (values.map tree)).placed =
      .ok ⟨values.filterMap found⟩ := by
  have hm : ∃ statements, (BuilderCall.all ((values.map tree).map Node.placed)).mapM
      (·.statement? limit depth) = .ok statements ∧
        statements.filterMap id = values.filterMap found := by
    induction values with
    | nil => exact ⟨[], rfl, rfl⟩
    | cons value values ih =>
      obtain ⟨hv, h⟩ := List.forall_mem_cons.1 h
      obtain ⟨statements, hs, he⟩ := ih h
      rw [List.map_cons, List.map_cons, BuilderCall.all]
      rcases hv with ⟨hn, hf⟩ | ⟨call, hc, hf⟩
      · rw [List.filterMap_cons_none hn, List.filterMap_cons_none hf]
        exact ⟨statements, hs, he⟩
      · rw [BuilderCall.all] at hs
        refine ⟨found value :: statements, ?_, ?_⟩
        · rw [List.filterMap_cons_some hc, List.mapM_cons, hf, hs]
          rfl
        · rw [List.filterMap_cons, List.filterMap_cons, he]
          rfl
  obtain ⟨statements, hs, he⟩ := hm
  have hb : (Node.block text (values.map tree)).placed.statements =
      (values.map tree).map Node.placed := by
    rw [Node.placed, Node.map, Node.statements]
    rfl
  rw [Machine.ofBody, checkDepth, if_pos hd, hb, hs, ← he]
  rfl

def builderTree (text inner : String) (lambda : Node String) : Node String :=
  .memberAccess text Word.stateMachine.tree
    (.call inner Word.create.tree [] [] (some lambda)) false

theorem ownMachines_builder {values : List α} {tree : α → Node String}
    {found : α → Option Statement} {parameters : Option String} (hd : depth + 1 ≤ limit)
    (h : ∀ value ∈ values, Yields limit (depth + 1) (tree value) (found value))
    (text inner whole body : String) :
    SyntaxTree.ownMachines limit depth (builderTree text inner
      (.lambda whole parameters (.block body (values.map tree)))).placed =
        .ok [⟨values.filterMap found⟩] := by
  have hb : Builder.ofNode? (builderTree text inner
      (.lambda whole parameters (.block body (values.map tree)))).placed =
        some ⟨[], some (Node.lambda whole parameters (.block body (values.map tree))).placed⟩ := by
    simp [builderTree, Node.placed, Node.map, Builder.ofNode?, Identifier.tree, Node.hasName,
      Node.identifierName?, Word.stateMachine, Word.create]
  have hl : Node.lambdaBody? (Node.lambda whole parameters (.block body (values.map tree))).placed =
      some (Node.block body (values.map tree)).placed := by
    rw [Node.placed, Node.map]
    rfl
  rw [SyntaxTree.ownMachines, hb]
  dsimp only [Builder.body?]
  rw [Option.bind_some, hl]
  dsimp only
  rw [Machine.ofBody_placed hd h]
  rfl

theorem machinesAt_builder {values : List α} {tree : α → Node String}
    (found : α → Option Statement) {parameters : Option String} (hd : depth + n + 3 ≤ limit)
    (hq : ∀ value ∈ values, (tree value).Quiet n)
    (h : ∀ value ∈ values, Yields limit (depth + 1) (tree value) (found value))
    (text inner whole body : String) :
    (builderTree text inner (.lambda whole parameters
      (.block body (values.map tree)))).placed.machinesAt limit depth =
        .ok [⟨values.filterMap found⟩] := by
  have hb : (Node.block body (values.map tree)).Quiet (n + 1) :=
    .block (List.forall_mem_map.2 hq)
  have hc : (Node.call inner Word.create.tree [] []
      (some (.lambda whole parameters (.block body (values.map tree))))).Quiet (n + 3) :=
    .call [] (List.forall_mem_nil _) (fun lambda hl => by cases hl; exact hb.lambda)
  have hchildren : ∀ child ∈ (builderTree text inner
      (.lambda whole parameters (.block body (values.map tree)))).children,
      child.placed.machinesAt limit (if child.opensLevel then depth + 1 else depth) = .ok [] := by
    intro child hm
    simp only [builderTree, Node.children, List.mem_cons, List.not_mem_nil, or_false] at hm
    rcases hm with rfl | rfl
    · exact Node.Quiet.identifier (n := 0) _ (by simp [Identifier.tree, Node.opensLevel]; omega)
    · exact hc (by simp [Node.opensLevel]; omega)
  have hm := Node.machinesAt_placed (fun _ => []) (List.map_id _).symm (by omega) hchildren
    (ownMachines_builder (by omega) h text inner whole body)
  rwa [List.flatMap_eq_nil_iff.2 fun _ _ => rfl] at hm

theorem machinesAt_file {values : List α} {tree : α → Node String} {machine : α → Machine}
    (h : ∀ value ∈ values, (tree value).opensLevel = false ∧
      (tree value).placed.machinesAt limit 0 = .ok [machine value]) (whole : String) :
    (Node.file whole (values.map tree)).placed.machinesAt limit 0 = .ok (values.map machine) := by
  have ho : SyntaxTree.ownMachines limit 0 (Node.file whole (values.map tree)).placed = .ok [] := by
    have hb : Builder.ofNode? (Node.file whole (values.map tree)).placed = none :=
      Node.ofNode?_placed nofun
    rw [SyntaxTree.ownMachines, hb]
  have hc : (Node.file whole (values.map tree)).children = values.map tree := by
    rw [Node.children]
  have hm := Node.machinesAt_placed (fun value => [machine value]) hc (Nat.zero_le limit)
    (fun value hm => by rw [(h value hm).1]; exact (h value hm).2) ho
  rwa [← List.map_eq_flatMap, List.append_nil] at hm

end StateDiagram
