import StateDiagram.Proofs.Coverage
import StateDiagram.Proofs.Extent

namespace StateDiagram

set_option autoImplicit true

variable {source : Source}

namespace Node

def isFile : Node α → Bool
  | .file _ _ => true
  | _ => false

def isBlock : Node α → Bool
  | .block _ _ => true
  | _ => false

def isIdentifier : Node α → Bool
  | .identifier _ _ => true
  | _ => false

def isValueArgument : Node α → Bool
  | .valueArgument _ _ _ => true
  | _ => false

/-- A node that may stand behind a dot. -/
def isSelector : Node α → Bool
  | .call _ _ _ _ _ | .identifier _ _ => true
  | _ => false

/-- A node that may stand where an expression is read. -/
def isExpression : Node α → Bool
  | .file _ _ | .block _ _ | .valueArgument _ _ _ | .typeArgument _ => false
  | _ => true

/-- The children of the node are of the kinds that belong in their places. -/
def Fits : Node α → Prop
  | .file _ nodes | .block _ nodes | .group _ nodes => ∀ node ∈ nodes, node.isExpression = true
  | .sequence _ nodes => 2 ≤ nodes.length ∧ ∀ node ∈ nodes, node.isExpression = true
  | .call _ callee types values trailing =>
    callee.isIdentifier = true ∧ (∀ node ∈ types, node.isTypeArgument = true) ∧
      (∀ node ∈ values, node.isValueArgument = true) ∧ ∀ node ∈ trailing, node.isLambda = true
  | .memberAccess _ receiver selector _ =>
    receiver.isExpression = true ∧ selector.isSelector = true
  | .lambda _ _ body => body.isBlock = true
  | .valueArgument _ _ expression => expression.isExpression = true
  | .typeArgument _ | .stringLiteral _ _ | .identifier _ _ | .literal _ | .token _ => True

/-- Behind the type arguments of the call, its argument list or its lambda opens. -/
def Opens (span : α → Span) (tokens : List Token) : Node α → Prop
  | .call info callee types _ trailing => types ≠ [] →
    ∃ front name less inside greater bracket back,
      tokens = front ++ name :: less :: (inside ++ greater :: bracket :: back) ∧
      name.span = span callee.info ∧ less.lexeme = .operator "<" ∧
      greater.lexeme = .operator ">" ∧ bracket.span.stop ≤ (span info).stop ∧
      (bracket.lexeme = .opening .round ∨ bracket.lexeme = .opening .curly ∧
        ∃ inner ∈ trailing, (span inner.info).start = bracket.span.start)
  | _ => True

theorem isExpression_of_isSelector {node : Node α} (h : node.isSelector = true) :
    node.isExpression = true := by
  cases node <;> first | rfl | cases h

theorem isExpression_of_isLambda {node : Node α} (h : node.isLambda = true) :
    node.isExpression = true := by
  cases node <;> first | rfl | cases h

/-- What the rule that makes a node guarantees for it. -/
structure Made (source : Source) (node : Outline) : Prop where
  fits : node.Fits
  /-- A node that starts with a token of its own is not empty. -/
  nonempty : (node.isLambda || node.endsAtToken) = true → node.info.start < node.info.stop
  opens : node.Opens id source.tokens

/-- The tree is of the given kind, and each of its nodes is made by some rule. -/
structure Grown (source : Source) (kind : Outline → Bool) (node : Outline) : Prop where
  kind_eq : kind node = true
  made : ∀ inner ∈ node.preorder, inner.Made source

variable {kind : Outline → Bool} {node : Outline}

theorem Grown.mono (h : node.Grown source kind) (hk : kind node = true → more node = true) :
    node.Grown source more := ⟨hk h.kind_eq, h.made⟩

theorem Grown.intro (hk : kind node = true) (hm : node.Made source)
    (hc : ∀ child ∈ node.children, ∀ inner ∈ child.preorder, inner.Made source) :
    node.Grown source kind := by
  refine ⟨hk, ?_⟩
  intro inner hi
  rcases mem_preorder.1 hi with rfl | ⟨child, hchild, hi⟩
  · exact hm
  · exact hc child hchild inner hi

theorem made_of_isLeaf (hl : node.isLeaf = true) : ∀ inner ∈ node.preorder, inner.Made source := by
  intro inner hi
  cases node with
  | typeArgument | stringLiteral | identifier | literal | token =>
    rcases mem_preorder.1 hi with rfl | ⟨_, hc, _⟩
    · exact ⟨trivial, fun h => absurd h Bool.false_ne_true, trivial⟩
    · cases hc
  | _ => cases hl

theorem Grown.leaf (hk : kind node = true) (hl : node.isLeaf = true) : node.Grown source kind :=
  ⟨hk, made_of_isLeaf hl⟩

/-- A node whose children are expressions and that is no larger than they are. -/
theorem Grown.cover (hk : kind node = true) (hf : node.Fits) (hl : node.isLambda = false)
    (he : node.endsAtToken = false)
    (hc : ∀ child ∈ node.children, ∀ inner ∈ child.preorder, inner.Made source) :
    node.Grown source kind := by
  refine .intro hk ⟨hf, ?_, ?_⟩ hc
  · rw [hl, he]
    exact fun h => absurd h Bool.false_ne_true
  · cases node with
    | call => cases he
    | _ => trivial

theorem Grown.collapse {nodes : List Outline}
    (h : ∀ node ∈ nodes, node.Grown source isExpression) :
    ∀ node ∈ StateDiagram.collapse nodes, node.Grown source isExpression := by
  match nodes with
  | [] =>
    intro node hm
    cases hm
  | [first] =>
    rintro _ ⟨⟩
    exact h first List.mem_cons_self
  | first :: second :: more =>
    rintro _ ⟨⟩
    have hlength : 2 ≤ (first :: second :: more).length := by simp
    exact .cover rfl ⟨hlength, fun node hm => (h node hm).kind_eq⟩ rfl rfl
      fun node hm => (h node hm).made

theorem Grown.argument {nodes : List Outline}
    (h : ∀ node ∈ nodes, node.Grown source isExpression) (token : Token) (name : Option String) :
    ∀ node ∈ ((StateDiagram.collapse nodes).map (argumentOutline token name)).toList,
      node.Grown source isValueArgument := by
  intro node hm
  obtain ⟨expression, he, rfl⟩ := Option.map_eq_some_iff.1 (Option.mem_toList.1 hm)
  have hg := Grown.collapse h expression he
  have hfits : (argumentOutline token name expression).Fits := hg.kind_eq
  exact .cover rfl hfits rfl rfl (List.forall_mem_singleton.2 hg.made)

theorem Grown.block {nodes : List Outline} (h : ∀ node ∈ nodes, node.Grown source isExpression)
    (span : Span) : Node.Grown source isBlock (.block span nodes) :=
  .cover rfl (fun node hm => (h node hm).kind_eq : ∀ node ∈ nodes, _) rfl rfl
    fun node hm => (h node hm).made

end Node

/-- The token stands in the source, and the cursor right behind it. -/
structure Token.Heads (source : Source) (token : Token) (cursor : Cursor) : Prop where
  previousEnd_eq : cursor.previousEnd = token.span.stop
  suffix : token :: cursor.rest <:+ source.tokens

theorem Token.Heads.past {cursor : Cursor} (h : cursor.rest <:+ source.tokens)
    (hr : cursor.rest = token :: rest) : token.Heads source (.past token rest) :=
  ⟨rfl, hr ▸ h⟩

theorem Token.Heads.tail {cursor : Cursor} {token : Token} (h : token.Heads source cursor) :
    cursor.rest <:+ source.tokens := (List.suffix_cons ..).trans h.suffix

theorem Token.Heads.span {cursor : Cursor} {token : Token} (h : token.Heads source cursor) :
    token.span.Heads source cursor := by
  obtain ⟨previousEnd, rest⟩ := cursor
  obtain ⟨hp, front, hf⟩ := h
  obtain rfl : previousEnd = token.span.stop := hp
  exact source.sound_tokens.heads hf.symm

theorem Member.Ahead.headed {cursor : Cursor} {member : Member}
    (h : member.Ahead cursor.rest breaks dot name rest) (hc : cursor.rest <:+ source.tokens) :
    name.Heads source member.next := by
  rw [h.next_eq]
  refine ⟨rfl, List.IsSuffix.trans ?_ hc⟩
  rw [h.passed_eq]
  exact List.suffix_append ..

theorem typeArguments_grown (source : Source) {cursor next : Cursor} {types : List Outline}
    (h : readTypeArguments cursor = (types, next)) :
    ∀ node ∈ types, node.Grown source Node.isTypeArgument := by
  intro node hm
  obtain ⟨span, rfl⟩ := exists_typeArgument h node hm
  exact .leaf rfl rfl

/-- Type arguments are read only in front of an argument list or a lambda, which are then read
for the same call. -/
theorem opens_of_derives {cursor behindTypes behindArguments next : Cursor}
    {arguments : Option (List Outline)} {lambda : Option Outline} {name : Token}
    (ht : readTypeArguments cursor = (types, behindTypes))
    (ha : Derives source n (.callArguments behindTypes arguments behindArguments))
    (hl : Derives source n (.trailingLambda behindArguments lambda next))
    (h : name.Heads source cursor) (hname : name.span = span) (start : Nat) (text : String) :
    Node.Opens id source.tokens (.call ⟨start, next.previousEnd⟩ (.identifier span text) types
      (arguments.getD []) lambda) := by
  intro hne
  cases typesRead ht with
  | none => exact (hne rfl).elim
  | @list less inside greater rest hlist =>
    obtain ⟨front, hf⟩ := h.suffix
    obtain ⟨bracket, back, rfl, hb⟩ := exists_of_opensCall hlist.opens
    have hbehind := (h.span.sound.leads hlist.leads)
    have hle (hleads : (Cursor.past bracket back).Leads next) :
        bracket.span.stop ≤ next.previousEnd :=
      (hbehind.headsNext rfl).sound.previousEnd_le hleads
    refine ⟨front, name, less, inside, greater, bracket, back, ?_, hname,
      hlist.opener_eq, hlist.close_eq, ?_⟩
    · rw [← hf, hlist.rest_eq]
    · cases ha with
      | arguments hr hround ha =>
        cases hr
        exact ⟨hle (ha.leads.trans hl.leads), .inl hround⟩
      | noArguments hno =>
        have hcurly := hb.resolve_left fun hround => hno ⟨bracket, back, rfl, hround⟩
        cases hl with
        | noLambda hno => exact (hno ⟨bracket, back, rfl, hcurly⟩).elim
        | trailing hr _ hl =>
          cases hr
          refine ⟨hle hl.leads, .inr ⟨hcurly, _, rfl, ?_⟩⟩
          cases hl
          rfl

/-- The nodes of the phrase are of the kinds that belong there. -/
def Phrase.Grown (source : Source) : Phrase → Prop
  | .expression token cursor node _ | .primary token cursor node _
  | .group _ token cursor node _ =>
    token.Heads source cursor → node.Grown source Node.isExpression
  | .lambda token cursor node _ => token.Heads source cursor → node.Grown source Node.isLambda
  | .named _ span cursor node _ => ∀ name : Token, name.span = span → name.Heads source cursor →
    node.Grown source Node.isSelector
  | .suffixes node cursor result _ => cursor.rest <:+ source.tokens →
    node.Grown source Node.isExpression → result.Grown source Node.isExpression
  | .callArguments cursor nodes _ => cursor.rest <:+ source.tokens →
    ∀ node ∈ nodes.getD [], node.Grown source Node.isValueArgument
  | .trailingLambda cursor trailing _ => cursor.rest <:+ source.tokens →
    ∀ node ∈ trailing, node.Grown source Node.isLambda
  | .valueArguments cursor nodes _ => cursor.rest <:+ source.tokens →
    ∀ node ∈ nodes, node.Grown source Node.isValueArgument
  | .items _ _ cursor nodes _ | .statements _ cursor nodes _ | .groupItems _ cursor nodes _ =>
    cursor.rest <:+ source.tokens → ∀ node ∈ nodes, node.Grown source Node.isExpression

namespace Phrase.Grown

variable {token : Token} {rest : List Token} {cursor mid next : Cursor} {node group : Outline}

theorem member {found : Member} (hm : memberAhead? cursor = some found)
    (hl : mid.rest <:+ found.next.rest)
    (hn : (named found.text found.span found.next selector mid).Grown source)
    (hs : (suffixes (.memberAccess ⟨node.info.start, selector.info.stop⟩ node selector found.safe)
      mid result next).Grown source) :
    (suffixes node cursor result next).Grown source := by
  intro hc hnode
  obtain ⟨breaks, dot, name, rest, ha⟩ := exists_of_memberAhead? hm
  have hh := ha.headed hc
  have hselector := hn name ha.span_eq hh
  apply hs (hl.trans hh.tail)
  refine .cover rfl ⟨hnode.kind_eq, hselector.kind_eq⟩ rfl rfl ?_
  exact List.forall_mem_cons.2 ⟨hnode.made, List.forall_mem_singleton.2 hselector.made⟩

theorem index (hr : cursor.rest = token :: rest) (hl : mid.rest <:+ rest)
    (hg : (Phrase.group .square token (.past token rest) group mid).Grown source)
    (hs : (suffixes (.sequence ⟨node.info.start, group.info.stop⟩ [node, group]) mid result
      next).Grown source) :
    (suffixes node cursor result next).Grown source := by
  intro hc hnode
  have hh := Token.Heads.past hc hr
  have hgroup := hg hh
  apply hs (hl.trans hh.tail)
  refine .cover rfl ⟨Nat.le_refl _, ?_⟩ rfl rfl ?_
  · exact List.forall_mem_cons.2 ⟨hnode.kind_eq, List.forall_mem_singleton.2 hgroup.kind_eq⟩
  · exact List.forall_mem_cons.2 ⟨hnode.made, List.forall_mem_singleton.2 hgroup.made⟩

theorem call (ht : readTypeArguments cursor = (types, behindTypes))
    (ha : Derives source n (.callArguments behindTypes arguments behindArguments))
    (hl : Derives source n (.trailingLambda behindArguments trailing next))
    (hva : (callArguments behindTypes arguments behindArguments).Grown source)
    (htl : (trailingLambda behindArguments trailing next).Grown source) :
    (named text span cursor (.call ⟨span.start, next.previousEnd⟩
      (.identifier span (bareName text)) types (arguments.getD []) trailing) next).Grown
        source := by
  rintro name rfl hh
  have htypes := typeArguments_grown source ht
  have hbehind := (readTypeArguments_leads ht).suffix.trans hh.tail
  have hvalues := hva hbehind
  have hlambda := htl (ha.suffix.trans hbehind)
  refine .intro rfl ⟨⟨rfl, ?_, ?_, ?_⟩, ?_, ?_⟩ ?_
  · exact fun node hm => (htypes node hm).kind_eq
  · exact fun node hm => (hvalues node hm).kind_eq
  · exact fun node hm => (hlambda node hm).kind_eq
  · intro _
    have hleads := (readTypeArguments_leads ht).trans (ha.leads.trans hl.leads)
    have hle := hh.span.sound.previousEnd_le hleads
    rw [hh.previousEnd_eq] at hle
    exact Nat.lt_of_lt_of_le hh.span.nonempty hle
  · exact opens_of_derives ht ha hl hh rfl _ _
  · refine List.forall_mem_cons.2 ⟨Node.made_of_isLeaf rfl, ?_⟩
    refine List.forall_mem_append.2 ⟨List.forall_mem_append.2 ⟨?_, ?_⟩, ?_⟩
    · exact fun child hm => (htypes child hm).made
    · exact fun child hm => (hvalues child hm).made
    · exact fun child hm => (hlambda child (Option.mem_toList.1 hm)).made

theorem lambda (hp : readParameters source cursor = (parameters, mid))
    (hd : Derives source n (.statements (some .curly) mid body stop))
    (hs : (statements (some .curly) mid body stop).Grown source) :
    (Phrase.lambda token cursor (lambdaOutline source token parameters body stop)
      (stop.skipClosing .curly)).Grown source := by
  intro hh
  have hbody := hs ((readParameters_leads hp).suffix.trans hh.tail)
  have hspans := (Derives.lambda hp hd).spanned hh.span
  have hblock := Node.Grown.block hbody
  refine .intro rfl ⟨rfl, ?_, trivial⟩ (List.forall_mem_singleton.2 (hblock _).made)
  intro _
  rw [hspans.start_eq]
  exact Nat.lt_of_lt_of_le hh.span.nonempty hspans.le_stop

end Phrase.Grown

theorem Derives.grown (h : Derives source n phrase) : phrase.Grown source := by
  induction h with
  | expression hp _ ihp ihs =>
    intro ht
    exact ihs (hp.suffix.trans ht.tail) (ihp ht)
  | name _ _ ih =>
    intro ht
    exact (ih _ rfl ht).mono Node.isExpression_of_isSelector
  | braces _ _ ih =>
    intro ht
    exact (ih ht).mono Node.isExpression_of_isLambda
  | brackets _ _ _ ih => exact ih
  | string | literal | symbol =>
    intro _
    exact .leaf rfl rfl
  | noSuffix => exact fun _ hnode => hnode
  | member hm hn _ ihn ihs => exact .member hm hn.suffix ihn ihs
  | index _ hr _ _ hg _ ihg ihs => exact .index hr hg.suffix ihg ihs
  | identifier =>
    intro _ _ _
    exact .leaf rfl rfl
  | call ht ha hl _ iha ihl => exact .call ht ha hl iha ihl
  | noArguments | argumentsEnd | argumentsClose | itemsEnd | itemsStop | itemsBreak
  | statementsEnd | statementsClose | groupEnd | groupClose =>
    intro _
    exact List.forall_mem_nil _
  | noLambda =>
    intro _ node hm
    cases hm
  | arguments hr _ _ ih | argumentsSkip hr _ _ ih | itemsContinue hr _ _ _ ih
  | statementsSkip hr _ _ ih | groupSkip hr _ _ ih =>
    intro hc
    exact ih ((Cursor.Leads.head hr).suffix.trans hc)
  | trailing hr _ _ ih =>
    rintro hc _ ⟨⟩
    exact ih (.past hc hr)
  | argument _ _ hi _ ihi iha =>
    intro hc
    have hname := (readArgumentName_leads _).suffix.trans hc
    exact List.forall_mem_append.2 ⟨.argument (ihi hname) _ _, iha (hi.suffix.trans hname)⟩
  | item hr _ he _ ihe ihi | groupItem hr _ _ he _ ihe ihi =>
    intro hc
    have hh := Token.Heads.past hc hr
    exact List.forall_mem_cons.2 ⟨ihe hh, ihi (he.suffix.trans hh.tail)⟩
  | stray hr _ _ _ ih =>
    intro hc
    exact List.forall_mem_cons.2 ⟨.leaf rfl rfl, ih ((Cursor.Leads.head hr).suffix.trans hc)⟩
  | statement _ _ hi _ ihi ihs =>
    intro hc
    refine List.forall_mem_append.2 ⟨?_, ihs (hi.suffix.trans hc)⟩
    intro node hm
    exact Node.Grown.collapse (ihi hc) node (Option.mem_toList.1 hm)
  | lambda hp hs ih => exact .lambda hp hs ih
  | group hg ih =>
    intro hh
    have hitems := ih hh.tail
    have hspans := (Derives.group hg).spanned hh.span
    refine .intro rfl ⟨fun node hm => (hitems node hm).kind_eq, ?_, trivial⟩
      fun node hm => (hitems node hm).made
    intro _
    exact Nat.lt_of_lt_of_le hh.span.nonempty hspans.le_stop

end StateDiagram
