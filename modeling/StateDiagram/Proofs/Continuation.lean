import StateDiagram.Proofs.Concatenation
import StateDiagram.Proofs.Regular
import StateDiagram.Proofs.Sequence

namespace StateDiagram

set_option autoImplicit true

open Text

theorem SyntaxTree.machines_builders_map {move : Place → Place} (h : KeepsText move)
    (tree : SyntaxTree) : Builder.machines (builders (tree.map move)) = .ok found ↔
      Builder.machines tree.builders = .ok found := by
  have settled (tree : SyntaxTree) {limit : Nat} (hl : tree.levelsBelow + 3 ≤ limit) :
      tree.machinesAt limit 0 = Builder.machines tree.builders := by
    rcases settles_machinesAt limit 0 tree with he | ⟨hn, _⟩
    · exact he
    · omega
  have hmoved := settled (tree.map move) (Nat.le_max_left _ (tree.levelsBelow + 3))
  have hsame := settled tree (Nat.le_max_right (Node.levelsBelow (tree.map move) + 3) _)
  rw [← hmoved, ← hsame]
  exact machinesAt_map h tree

namespace Source

/-- The builders at the node and below it; of their places the texts alone matter. -/
def buildersIn (source : Source) (node : Outline) : List (Place × Builder) :=
  (node.map source.slice).placed.builders

theorem machines_buildersIn (source : Source) (node : Outline) :
    Builder.machines (source.buildersIn node) = .ok found ↔
      Builder.machines (SyntaxTree.builders (node.map source.locate)) = .ok found := by
  rw [buildersIn, ← texts_locate, Node.placed_texts,
    SyntaxTree.machines_builders_map keepsText_ofText]

end Source

/-- The machines of a source are those of its builders. -/
theorem extractMachines_eq_ok_iff {limits : Limits} {text : String} {outline : Outline}
    (ho : (Source.ofString text).outline? limits.syntaxDepth = some outline)
    (hl : limits.syntaxDepth ≤ limits.extractionDepth) :
    extractMachines limits text = .ok machines ↔
      Builder.machines ((Source.ofString text).buildersIn outline) = .ok machines := by
  have hp : SyntaxTree.parse limits.syntaxDepth text =
      .ok (outline.map (Source.ofString text).locate) := Source.parse_eq_ok_iff.2 ⟨_, ho, rfl⟩
  rw [extractMachines, hp, Source.machines_buildersIn, ← machines_eq_of_parse hp (.inl hl)]
  rfl

namespace Source

variable {source front back : Source}

theorem buildersIn_eq (source : Source) (node : Outline) :
    source.buildersIn node = node.children.flatMap source.buildersIn ++
      (Builder.ofNode? (node.map source.slice).placed).toList.map fun builder =>
        ((node.map source.slice).placed.info, builder) := by
  rw [buildersIn, SyntaxTree.builders_eq, Node.placed, Node.children_map, Node.children_map,
    List.map_map, List.flatMap_map]
  rfl

theorem buildersIn_children {node : Outline}
    (h : ∀ span receiver selector safe, node ≠ .memberAccess span receiver selector safe) :
    source.buildersIn node = node.children.flatMap source.buildersIn := by
  have ho : Builder.ofNode? (node.map source.slice).placed = none := by
    refine Node.ofNode?_placed fun text receiver selector safe he => ?_
    cases node with
    | memberAccess span receiver selector safe => exact h _ _ _ _ rfl
    | call span callee types values trailing => cases trailing <;> simp [Node.map_call] at he
    | _ => simp [Node.map] at he
  rw [buildersIn_eq, ho]
  exact List.append_nil _

/-- Only what has the name of the builder is given a body. -/
theorem buildersIn_member {node : Outline} (h : node.hasName "StateMachine" = false)
    (span : Span) (selector : Outline) (safe : Bool) :
    source.buildersIn (.memberAccess span node selector safe) =
      source.buildersIn node ++ source.buildersIn selector := by
  have ho : Builder.ofNode?
      ((Node.memberAccess span node selector safe).map source.slice).placed = none := by
    cases selector with
    | call inner callee types values trailing =>
      rw [Node.placed, Node.map, Node.map_call, Node.map, Node.map_call, Builder.ofNode?,
        Node.hasName_map, Node.hasName_map, h]
      rfl
    | _ => simp [Node.placed, Node.map, Builder.ofNode?]
  rw [buildersIn_eq, ho]
  simp [Node.children]

theorem buildersIn_identifier (span : Span) (name : String) :
    source.buildersIn (.identifier span name) = [] :=
  buildersIn_children nofun

theorem buildersIn_token (span : Span) : source.buildersIn (.token span) = [] :=
  buildersIn_children nofun

theorem buildersIn_typeArgument (span : Span) : source.buildersIn (.typeArgument span) = [] :=
  buildersIn_children nofun

theorem buildersIn_sequence (span : Span) (nodes : List Outline) :
    source.buildersIn (.sequence span nodes) = nodes.flatMap source.buildersIn :=
  buildersIn_children nofun

theorem buildersIn_file (span : Span) (nodes : List Outline) :
    source.buildersIn (.file span nodes) = nodes.flatMap source.buildersIn :=
  buildersIn_children nofun

theorem buildersIn_lambda (span block : Span) (parameters : Option String)
    (nodes : List Outline) : source.buildersIn (.lambda span parameters (.block block nodes)) =
      nodes.flatMap source.buildersIn := by
  rw [buildersIn_children (fun _ _ _ _ hn => by cases hn), Node.children, List.flatMap_singleton,
    buildersIn_children (fun _ _ _ _ hn => by cases hn), Node.children]

theorem buildersIn_valueArgument (span : Span) (name : Option String) (node : Outline) :
    source.buildersIn (.valueArgument span name node) = source.buildersIn node := by
  rw [buildersIn_children (fun _ _ _ _ hn => by cases hn), Node.children, List.flatMap_singleton]

/-- The builders of a call are in its arguments and in its lambda. -/
theorem buildersIn_call (span callee : Span) (name : String) (types : List Span)
    (values : List Outline) (trailing : Option Outline) :
    source.buildersIn (.call span (.identifier callee name) (types.map .typeArgument) values
      trailing) =
      values.flatMap source.buildersIn ++ trailing.toList.flatMap source.buildersIn := by
  have ht : (types.map Node.typeArgument).flatMap source.buildersIn = [] := by
    rw [List.flatMap_map, List.flatMap_eq_nil_iff]
    exact fun span _ => buildersIn_typeArgument span
  rw [buildersIn_children (fun _ _ _ _ hn => by cases hn)]
  simp [Node.children, ht, buildersIn_identifier]

theorem buildersIn_collapse (nodes : List Outline) :
    (collapse nodes).toList.flatMap source.buildersIn = nodes.flatMap source.buildersIn :=
  flatMap_collapse buildersIn_sequence nodes

theorem buildersIn_shift (front back : Source) (node : Outline) :
    (front.append back).buildersIn (node.map (Span.shift front.size)) = back.buildersIn node := by
  rw [buildersIn, buildersIn, Node.map_map]
  exact congrArg (fun slice => (node.map slice).placed.builders)
    (funext fun span => slice_append_right front back span)

/-- Expressions and then statements are read from the cursor on, and in them stand the builders. -/
def Continues (source : Source) (n : Nat) (carried : Bool) (cursor : Cursor)
    (builders : List (Place × Builder)) : Prop :=
  ∃ items mid nodes last, Derives source n (.items .statement carried cursor items mid) ∧
    Derives source n (.statements none mid nodes last) ∧
    items.flatMap source.buildersIn ++ nodes.flatMap source.buildersIn = builders

variable {cursor mid : Cursor} {token : Token} {rest : List Token} {node : Outline}
  {builders : List (Place × Builder)}

theorem Continues.expression (h : source.Continues n (node.isToken && token.lexeme.isCarrying) mid
      builders)
    (hs : Setting.statement.Starts token.lexeme)
    (hd : Derives source n (.expression token (.past token rest) node mid)) (carried : Bool)
    (prior : Nat) :
    source.Continues n carried ⟨prior, token :: rest⟩ (source.buildersIn node ++ builders) := by
  obtain ⟨items, stop, nodes, last, hi, hn, rfl⟩ := h
  refine ⟨node :: items, stop, nodes, last, .item rfl hs hd hi, hn, ?_⟩
  rw [List.flatMap_cons, List.append_assoc]

theorem Continues.uncarried (h : source.Continues n false mid builders)
    (hs : Setting.statement.Starts token.lexeme) (hl : token.lexeme.isCarrying = false)
    (hd : Derives source n (.expression token (.past token rest) node mid)) (carried : Bool)
    (prior : Nat) :
    source.Continues n carried ⟨prior, token :: rest⟩ (source.buildersIn node ++ builders) := by
  rw [← Bool.and_false node.isToken, ← hl] at h
  exact h.expression hs hd carried prior

/-- Statements that start with an expression have its builders and those behind it. -/
theorem Continues.statements (h : source.Continues n false cursor builders)
    (hr : cursor.rest = token :: rest) (hs : Setting.statement.Starts token.lexeme) :
    ∃ nodes last, Derives source n (.statements none cursor nodes last) ∧
      nodes.flatMap source.buildersIn = builders := by
  obtain ⟨items, mid, nodes, last, hi, hn, rfl⟩ := h
  refine ⟨_, last, .statement hr hs hi hn, ?_⟩
  rw [List.flatMap_append, buildersIn_collapse]

section

variable {gap : Layout}

theorem Continues.statements_blank (hs : Setting.statement.Starts token.lexeme)
    (h : ∀ prior, source.Continues n false ⟨prior, token :: rest⟩ builders) (hb : gap.Blank)
    (prior start : Nat) :
    ∃ nodes last, Derives source n
        (.statements none ⟨prior, gap.tokens start ++ token :: rest⟩ nodes last) ∧
      nodes.flatMap source.buildersIn = builders := by
  induction gap generalizing prior start with
  | nil => exact (h prior).statements rfl hs
  | cons piece gap ih =>
    obtain ⟨hp, hgap⟩ := List.forall_mem_cons.1 hb
    rcases hp with rfl | rfl
    · exact ih hgap prior (start + 1)
    · obtain ⟨nodes, last, hd, hn⟩ := ih hgap _ (start + byteSize Lexeme.lineBreak.text.toList)
      exact ⟨nodes, last, .statementsSkip rfl (.inl rfl) hd, hn⟩

/-- Line breaks carry on the statement or end it, and the builders behind them stay the same. -/
theorem Continues.blank (hs : Setting.statement.Starts token.lexeme)
    (h : ∀ carried prior, source.Continues n carried ⟨prior, token :: rest⟩ builders)
    (hb : gap.Blank) (carried : Bool) (prior start : Nat) :
    source.Continues n carried ⟨prior, gap.tokens start ++ token :: rest⟩ builders := by
  induction gap generalizing prior start with
  | nil => exact h carried prior
  | cons piece gap ih =>
    obtain ⟨hp, hgap⟩ := List.forall_mem_cons.1 hb
    rcases hp with rfl | rfl
    · exact ih hgap prior (start + 1)
    · cases hc : Setting.statement == .argument || carried || leadsOn (Layout.tokens
          (start + byteSize Lexeme.lineBreak.text.toList) gap ++ token :: rest) with
      | true =>
        obtain ⟨items, mid, nodes, last, hi, hn, he⟩ := ih hgap _ _
        exact ⟨items, mid, nodes, last, .itemsContinue rfl rfl hc hi, hn, he⟩
      | false =>
        obtain ⟨nodes, last, hd, hn⟩ := Continues.statements_blank hs (h false) hgap _ _
        exact ⟨[], _, nodes, last, .itemsBreak rfl rfl hc, .statementsSkip rfl (.inl rfl) hd, hn⟩

end

theorem Continues.outline (h : source.Continues n false ⟨0, source.tokens⟩ builders)
    (ht : source.tokens = token :: rest) (hs : Setting.statement.Starts token.lexeme) :
    ∃ outline, source.outline? n = some outline ∧ source.buildersIn outline = builders := by
  obtain ⟨nodes, last, hd, hn⟩ := h.statements ht hs
  exact ⟨_, outline?_eq_some_iff.2 ⟨nodes, last, rfl, hd⟩, (buildersIn_file ..).trans hn⟩

end Source

end StateDiagram
