import StateDiagram.Proofs.Provenance
import StateDiagram.Proofs.Quotation
import StateDiagram.Proofs.Shape

namespace StateDiagram

set_option autoImplicit true

namespace Node

def typeArguments : Node α → List (Node α)
  | .call _ _ types _ _ => types
  | _ => []

def valueArguments : Node α → List (Node α)
  | .call _ _ _ values _ => values
  | _ => []

/-- The child is of the kind that its place below the node asks for. -/
structure Admits (node child : Node α) : Prop where
  /-- No file stands below another node. -/
  file : child.isFile = false
  /-- Blocks are the bodies of lambdas, and bodies are blocks. -/
  block : child.isBlock = node.isLambda
  valueArgument : child.isValueArgument = true ↔ child ∈ node.valueArguments
  typeArgument : child.isTypeArgument = true ↔ child ∈ node.typeArguments

/-- The tree has the shape that extraction relies on. -/
structure Regular (span : α → Span) (tokens : List Token) (tree : Node α) : Prop where
  root : tree.isFile = true
  admits : ∀ node ∈ tree.preorder, ∀ child ∈ node.children, node.Admits child
  call : ∀ info callee types values trailing,
    .call info callee types values trailing ∈ tree.preorder →
      callee.isIdentifier = true ∧ ∀ node ∈ trailing, node.isLambda = true
  /-- A call with type arguments has an argument list or a lambda in the source. -/
  opens : ∀ node ∈ tree.preorder, node.Opens span tokens
  selector : ∀ info receiver selector safe,
    .memberAccess info receiver selector safe ∈ tree.preorder → selector.isSelector = true
  sequence : ∀ info nodes, .sequence info nodes ∈ tree.preorder → 2 ≤ nodes.length
  identifier : ∀ info name, .identifier info name ∈ tree.preorder → '\x60' ∉ name.toList
  nonempty : ∀ node ∈ tree.preorder, node.isFile = false → node.isBlock = false →
    (span node.info).start < (span node.info).stop

/-- A name without back quotes, if the node is one. -/
def Bare : Node α → Prop
  | .identifier _ name => '\x60' ∉ name.toList
  | _ => True

variable {node child : Node α}

theorem isFile_of_isExpression (h : node.isExpression = true) : node.isFile = false := by
  cases node <;> first | rfl | cases h

theorem isBlock_of_isExpression (h : node.isExpression = true) : node.isBlock = false := by
  cases node <;> first | rfl | cases h

theorem isExpression_of_isValueArgument (h : node.isValueArgument = true) :
    node.isExpression = false := by
  cases node <;> first | rfl | cases h

theorem isExpression_of_isTypeArgument (h : node.isTypeArgument = true) :
    node.isExpression = false := by
  cases node <;> first | rfl | cases h

theorem Admits.expression (hc : child.isExpression = true) (hl : node.isLambda = false)
    (hv : child ∉ node.valueArguments) (ht : child ∉ node.typeArguments) : node.Admits child := by
  have hkinds : child.isFile = false ∧ child.isBlock = false ∧ child.isValueArgument = false ∧
      child.isTypeArgument = false := by
    cases child <;> first | exact ⟨rfl, rfl, rfl, rfl⟩ | cases hc
  obtain ⟨hfile, hblock, hvalue, htype⟩ := hkinds
  exact ⟨hfile, hblock.trans hl.symm, iff_of_false (Bool.eq_false_iff.1 hvalue) hv,
    iff_of_false (Bool.eq_false_iff.1 htype) ht⟩

theorem Fits.admits_call {info : α} {callee : Node α} {types values : List (Node α)}
    {trailing : Option (Node α)} (h : Fits (.call info callee types values trailing)) :
    ∀ child ∈ (call info callee types values trailing).children,
      Admits (.call info callee types values trailing) child := by
  obtain ⟨hcallee, htypes, hvalues, htrailing⟩ := h
  have hexpression {child : Node α} (hc : child.isExpression = true) :
      Admits (.call info callee types values trailing) child := by
    apply Admits.expression hc rfl
    · intro hv
      rw [isExpression_of_isValueArgument (hvalues child hv)] at hc
      cases hc
    · intro ht
      rw [isExpression_of_isTypeArgument (htypes child ht)] at hc
      cases hc
  refine List.forall_mem_cons.2 ⟨?_, List.forall_mem_append.2
    ⟨List.forall_mem_append.2 ⟨?_, ?_⟩, ?_⟩⟩
  · apply hexpression
    cases callee <;> first | rfl | cases hcallee
  · intro child hm
    have ht := htypes child hm
    cases child with
    | typeArgument =>
      refine ⟨rfl, rfl, iff_of_false Bool.false_ne_true ?_, iff_of_true rfl hm⟩
      exact fun hv => Bool.false_ne_true (hvalues _ hv)
    | _ => cases ht
  · intro child hm
    have hv := hvalues child hm
    cases child with
    | valueArgument =>
      refine ⟨rfl, rfl, iff_of_true rfl hm, iff_of_false Bool.false_ne_true ?_⟩
      exact fun ht => Bool.false_ne_true (htypes _ ht)
    | _ => cases hv
  · intro child hm
    exact hexpression (isExpression_of_isLambda (htrailing child (Option.mem_toList.1 hm)))

theorem Fits.admits (h : node.Fits) : ∀ child ∈ node.children, node.Admits child := by
  have hexpression {child : Node α} (hl : node.isLambda = false) (hv : node.valueArguments = [])
      (ht : node.typeArguments = []) (hc : child.isExpression = true) : node.Admits child :=
    .expression hc hl (by simp [hv]) (by simp [ht])
  cases node with
  | file | block | group => exact fun child hm => hexpression rfl rfl rfl (h child hm)
  | sequence => exact fun child hm => hexpression rfl rfl rfl (h.2 child hm)
  | valueArgument => exact List.forall_mem_singleton.2 (hexpression rfl rfl rfl h)
  | memberAccess =>
    exact List.forall_mem_cons.2 ⟨hexpression rfl rfl rfl h.1, List.forall_mem_singleton.2
      (hexpression rfl rfl rfl (isExpression_of_isSelector h.2))⟩
  | lambda info parameters body =>
    intro child hm
    cases List.mem_singleton.1 hm
    cases body with
    | block =>
      exact ⟨rfl, rfl, iff_of_false Bool.false_ne_true List.not_mem_nil,
        iff_of_false Bool.false_ne_true List.not_mem_nil⟩
    | _ => cases h
  | call => exact h.admits_call
  | typeArgument | stringLiteral | identifier | literal | token => exact List.forall_mem_nil _

theorem Regular.intro {tree : Node α} (hr : tree.isFile = true)
    (hf : ∀ node ∈ tree.preorder, node.Fits) (ho : ∀ node ∈ tree.preorder, node.Opens span tokens)
    (hb : ∀ node ∈ tree.preorder, node.Bare)
    (hn : ∀ node ∈ tree.preorder, node.isFile = false → node.isBlock = false →
      (span node.info).start < (span node.info).stop) : tree.Regular span tokens where
  root := hr
  admits node hm := (hf node hm).admits
  call _ _ _ _ _ hm := ⟨(hf _ hm).1, (hf _ hm).2.2.2⟩
  opens := ho
  selector _ _ _ _ hm := (hf _ hm).2
  sequence _ _ hm := (hf _ hm).1
  identifier _ _ hm := hb _ hm
  nonempty := hn

section Map

variable (f : α → β) (node : Node α)

theorem isFile_map : (node.map f).isFile = node.isFile := by
  cases node <;> simp [map_call, isFile]

theorem isBlock_map : (node.map f).isBlock = node.isBlock := by
  cases node <;> simp [map_call, isBlock]

theorem isIdentifier_map : (node.map f).isIdentifier = node.isIdentifier := by
  cases node <;> simp [map_call, isIdentifier]

theorem isValueArgument_map : (node.map f).isValueArgument = node.isValueArgument := by
  cases node <;> simp [map_call, isValueArgument]

theorem isSelector_map : (node.map f).isSelector = node.isSelector := by
  cases node <;> simp [map_call, isSelector]

theorem isExpression_map : (node.map f).isExpression = node.isExpression := by
  cases node <;> simp [map_call, isExpression]

theorem fits_map : (node.map f).Fits ↔ node.Fits := by
  cases node <;> simp [map_call, Fits, isBlock_map, isIdentifier_map, isValueArgument_map,
    isSelector_map, isExpression_map, isTypeArgument_map, isLambda_map]

theorem opens_map (span : β → Span) (tokens : List Token) :
    (node.map f).Opens span tokens ↔ node.Opens (span ∘ f) tokens := by
  cases node <;> simp [map_call, Opens, info_map]

theorem bare_map : (node.map f).Bare ↔ node.Bare := by
  cases node <;> simp [map_call, Bare]

end Map

theorem Nests.nonempty {source : Source} {node child : Outline} (h : node.Nests source)
    (he : node.endsAtToken = false) (hm : child ∈ node.children)
    (hc : child.info.start < child.info.stop) : node.info.start < node.info.stop := by
  have hstart := h.starts child hm
  rcases h.stops child hm with hstop | ⟨ht, _⟩
  · omega
  · rw [he] at ht
    cases ht

end Node

namespace Source

variable {source : Source} {outline : Outline} {tree : SyntaxTree}

theorem grown_of_outline? (h : source.outline? limit = some outline) :
    outline.Grown source Node.isFile := by
  obtain ⟨statements, next, rfl, hd⟩ := outline?_eq_some_iff.1 h
  have hg : ∀ node ∈ statements, node.Grown source Node.isExpression :=
    hd.grown List.suffix_rfl
  have hfits : Node.Fits (.file ⟨0, source.size⟩ statements) := fun node hm => (hg node hm).kind_eq
  exact .cover rfl hfits rfl rfl fun node hm => (hg node hm).made

theorem bare_of_outline? (h : source.outline? limit = some outline) :
    ∀ node ∈ outline.preorder, node.Bare := by
  intro node hm
  cases node with
  | identifier info name =>
    obtain ⟨⟨lexeme, place⟩, ht, hmarks⟩ := exists_mark h hm rfl rfl
    cases Lexeme.marking (Bool.and_eq_true_iff.1 hmarks).1 with
    | identifier => exact Token.bare_scan ht rfl
  | _ => trivial

/-- Only files and blocks may be empty: any other node starts with a token, or with a node that
does. -/
theorem nonempty_of_outline? (h : source.outline? limit = some outline) :
    ∀ node ∈ outline.preorder, node.isFile = false → node.isBlock = false →
      node.info.start < node.info.stop := by
  have hmade := (grown_of_outline? h).made
  intro node
  induction node using Node.induction with
  | step node ih =>
    intro hm hfile hblock
    have hn := nests_of_outline? h node hm
    have hchild {child : Outline} (hc : child ∈ node.children)
        (he : child.isExpression = true) : child.info.start < child.info.stop :=
      ih child hc (Node.mem_preorder_trans hm (Node.mem_preorder_of_child hc))
        (Node.isFile_of_isExpression he) (Node.isBlock_of_isExpression he)
    have hfits := (hmade node hm).fits
    cases node with
    | file => cases hfile
    | block => cases hblock
    | call | lambda | group => exact (hmade _ hm).nonempty rfl
    | memberAccess info receiver selector safe =>
      exact hn.nonempty rfl List.mem_cons_self (hchild List.mem_cons_self hfits.1)
    | valueArgument info name expression =>
      exact hn.nonempty rfl List.mem_cons_self (hchild List.mem_cons_self hfits)
    | sequence info nodes =>
      obtain ⟨hlength, hnodes⟩ := hfits
      have hpos : 0 < nodes.length := by omega
      obtain ⟨first, hfirst⟩ := List.exists_mem_of_length_pos hpos
      exact hn.nonempty rfl hfirst (hchild hfirst (hnodes first hfirst))
    | typeArgument | stringLiteral | identifier | literal | token =>
      exact nonempty_of_isLeaf h hm rfl

theorem regular_of_tree (h : source.parse limit = .ok tree) :
    tree.Regular Place.span source.tokens := by
  obtain ⟨outline, ho, rfl⟩ := parse_eq_ok_iff.1 h
  have hg := grown_of_outline? ho
  apply Node.Regular.intro
  · rw [Node.isFile_map]
    exact hg.kind_eq
  all_goals
    rw [Node.preorder_map, List.forall_mem_map]
    intro node hm
  · exact (Node.fits_map ..).2 (hg.made node hm).fits
  · exact (Node.opens_map ..).2 (hg.made node hm).opens
  · exact (Node.bare_map ..).2 (bare_of_outline? ho node hm)
  · rw [Node.isFile_map, Node.isBlock_map, Node.info_map]
    exact nonempty_of_outline? ho node hm

end Source

namespace Builder

/-- The builder has no trailing lambda, and no lambda as its last argument. -/
def Bodiless (builder : Builder) : Prop :=
  builder.trailing = none ∧ ∀ argument ∈ builder.valueArguments.getLast?,
    Node.isLambda argument.argumentExpression = false

theorem exists_lambdaBody {node : Node α} (h : node.isLambda = true) :
    ∃ body, node.lambdaBody? = some body := by
  cases node with
  | lambda info parameters body => exact ⟨body, rfl⟩
  | _ => cases h

theorem body?_eq_none_iff {builder : Builder}
    (h : ∀ node ∈ builder.trailing, node.isLambda = true) :
    builder.body? = none ↔ builder.Bodiless := by
  rw [body?, Bodiless]
  cases ht : builder.trailing with
  | some trailing =>
    obtain ⟨body, hb⟩ := exists_lambdaBody (h trailing ht)
    exact iff_of_false (by simp [hb]) (by rintro ⟨⟨⟩, _⟩)
  | none =>
    cases hl : builder.valueArguments.getLast? with
    | none => exact iff_of_true rfl ⟨rfl, by rintro _ ⟨⟩⟩
    | some argument =>
      cases he : Node.isLambda argument.argumentExpression with
      | false => simp [he]
      | true =>
        obtain ⟨body, hb⟩ := exists_lambdaBody he
        simp [he, hb]

/-- Machines are missing only if some builder has no body. -/
theorem machines_fail_iff {builders : List (Place × Builder)} :
    (∃ fault, machines builders = .error fault) ↔ ∃ found ∈ builders, found.2.body? = none := by
  induction builders with
  | nil => exact iff_of_false (by rintro ⟨_, ⟨⟩⟩) (by rintro ⟨_, ⟨⟩, _⟩)
  | cons found builders ih =>
    rw [machines] at ih ⊢
    simp only [List.mem_cons, exists_eq_or_imp]
    rw [List.mapM_cons, machine]
    cases found.2.body? with
    | none => exact iff_of_true ⟨_, rfl⟩ (.inl rfl)
    | some body =>
      simp only [reduceCtorEq, false_or, ← ih]
      cases builders.mapM machine with
      | error fault => exact iff_of_true ⟨fault, rfl⟩ ⟨fault, rfl⟩
      | ok machines => exact iff_of_false (by rintro ⟨_, ⟨⟩⟩) (by rintro ⟨_, ⟨⟩⟩)

end Builder

theorem Node.Regular.isLambda_trailing {span : Place → Span} {tree node : SyntaxTree}
    {builder : Builder} (h : tree.Regular span tokens) (hm : node ∈ tree.preorder)
    (ho : Builder.ofNode? node = some builder) :
    ∀ trailing ∈ builder.trailing, trailing.isLambda = true := by
  cases Builder.createdAt ho with
  | create =>
    have hselector := Node.mem_preorder_trans hm
      (Node.mem_preorder_of_child (List.mem_cons_of_mem _ List.mem_cons_self))
    exact (h.call _ _ _ _ _ hselector).2

theorem machines_eq_of_parse {limit allowance : Nat} {text : String} {tree : SyntaxTree}
    (h : SyntaxTree.parse limit text = .ok tree)
    (hl : limit ≤ allowance ∨ tree.machines allowance ≠ .error (.nestingTooDeep allowance)) :
    tree.machines allowance = Builder.machines tree.builders := by
  rcases settles_machinesAt allowance 0 tree with he | ⟨_, he⟩
  · exact he
  · rcases hl with hl | hl
    · have hh : tree.height ≤ limit := height_of_parse h
      have hd : NotTooDeep (tree.machines allowance) := notTooDeep_machinesAt (by omega)
      obtain ⟨problem, location, hf⟩ := hd _ he
      cases hf
    · exact (hl he).elim

/-- The trees of sources have the shape that extraction relies on. So where no limit is in the way,
extraction fails if and only if some builder has neither a trailing lambda nor a lambda as its
last argument. -/
theorem regular_of_parse {limit : Nat} {text : String} {tree : SyntaxTree}
    (h : SyntaxTree.parse limit text = .ok tree) :
    tree.Regular Place.span (Source.ofString text).tokens ∧
      ∀ allowance,
        limit ≤ allowance ∨ tree.machines allowance ≠ .error (.nestingTooDeep allowance) →
        ((∃ fault, tree.machines allowance = .error fault) ↔
          ∃ node ∈ tree.preorder, ∃ builder, Builder.ofNode? node = some builder ∧
            builder.Bodiless) := by
  have hr := Source.regular_of_tree h
  refine ⟨hr, ?_⟩
  intro allowance hl
  rw [machines_eq_of_parse h hl, Builder.machines_fail_iff]
  constructor
  · rintro ⟨found, hf, hb⟩
    obtain ⟨node, hn, ho, _⟩ := SyntaxTree.mem_builders.1 hf
    exact ⟨node, hn, found.2, ho, (Builder.body?_eq_none_iff (hr.isLambda_trailing hn ho)).1 hb⟩
  · rintro ⟨node, hn, builder, ho, hb⟩
    refine ⟨(node.info, builder), SyntaxTree.mem_builders.2 ⟨node, hn, ho, rfl⟩, ?_⟩
    exact (Builder.body?_eq_none_iff (hr.isLambda_trailing hn ho)).2 hb

/-- A source with calls of all kinds, and with a builder that is given a name only. -/
def bodilessSource : String := "a<B>(c)\n.d \x7b `e`[1] \x7d\nStateMachine.create(f)"

/-- A builder that is given no lambda is found by its shape. -/
theorem regular_of_parse_bodiless : ∃ tree, SyntaxTree.parse 5 bodilessSource = .ok tree ∧
    tree.Regular Place.span (Source.ofString bodilessSource).tokens ∧
    ∃ node ∈ tree.preorder, ∃ builder, Builder.ofNode? node = some builder ∧
      builder.Bodiless := by
  have hp : (SyntaxTree.parse 5 bodilessSource).isOk = true := by decide +kernel
  have hx : (extractMachines ⟨5, 5⟩ bodilessSource).isOk = false := by decide +kernel
  obtain ⟨tree, ht⟩ := exists_eq_ok_of_isOk hp
  obtain ⟨hregular, hfails⟩ := regular_of_parse ht
  have hfault : ∃ fault, tree.machines 5 = .error fault := by
    rw [extractMachines, ht] at hx
    cases hm : tree.machines 5 with
    | error fault => exact ⟨fault, rfl⟩
    | ok machines => cases (congrArg Except.isOk hm).symm.trans hx
  exact ⟨tree, ht, hregular, (hfails 5 (.inl (Nat.le_refl 5))).1 hfault⟩

end StateDiagram
