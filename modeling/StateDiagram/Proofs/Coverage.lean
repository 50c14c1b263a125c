import StateDiagram.Proofs.Allowance
import StateDiagram.Proofs.Reading
import StateDiagram.Proofs.Tiling
import StateDiagram.Proofs.Traversal

namespace StateDiagram

set_option autoImplicit true

/-- Whether the node stands for such a lexeme, or starts with it if it is a lambda. -/
def Lexeme.marks (lexeme : Lexeme) (node : Node α) : Bool :=
  match node, lexeme with
  | .identifier _ name, .identifier text => name == bareName text
  | .stringLiteral _ content, .string text => content == stringContent text
  | .literal _, .character _ | .literal _, .number _ => true
  | .token _, .operator _ | .token _, .closing _ | .token _, .unknown _ => true
  | .lambda _ _ _, .opening .curly => true
  | _, _ => false

def Lexeme.isGlue : Lexeme → Bool
  | .string _ | .character _ | .number _ | .unknown _ | .opening .curly => false
  | _ => true

/-- Whether the node stands for the token, or starts with it if it is a lambda. -/
def Token.marks (token : Token) (span : α → Span) (node : Node α) : Bool :=
  token.lexeme.marks node &&
    if node.isLambda then (span node.info).start == token.span.start
    else span node.info == token.span

def Span.covers (outer inner : Span) : Bool :=
  outer.start ≤ inner.start && inner.stop ≤ outer.stop

namespace Node

def isTypeArgument : Node α → Bool
  | .typeArgument _ => true
  | _ => false

def isLeaf : Node α → Bool
  | .identifier _ _ | .stringLiteral _ _ | .literal _ | .token _ | .typeArgument _ => true
  | _ => false

def leaves (node : Node α) : List (Node α) := node.preorder.filter isLeaf

/-- The leaves and lambdas of the tree from left to right. -/
def marks (node : Node α) : List (Node α) :=
  node.preorder.filter fun inner => inner.isLeaf || inner.isLambda

/-- The tree and the tokens account for each other. -/
structure Tallies (span : α → Span) (tokens : List Token) (tree : Node α) : Prop where
  nonempty : ∀ leaf ∈ tree.leaves, (span leaf.info).start < (span leaf.info).stop
  ordered : tree.leaves.Pairwise fun a b => (span a.info).stop ≤ (span b.info).start
  /-- A leaf covers one token, and stands for it. -/
  covers : ∀ leaf ∈ tree.leaves, leaf.isTypeArgument = false → ∃ token,
    tokens.filter (fun token => (span leaf.info).covers token.span) = [token] ∧
      token.marks span leaf = true
  /-- One leaf or lambda is there for each token that needs one. -/
  marked : ∀ token ∈ tokens, token.lexeme.isGlue = false →
    ∃ node, tree.preorder.filter (token.marks span) = [node]

theorem marks_of_mark {node : Node α} (h : (node.isLeaf || node.isLambda) = true) :
    node.marks = node :: node.children.flatMap marks := by
  rw [marks, preorder_eq, List.filter_cons, if_pos h, List.filter_flatMap]
  rfl

theorem marks_of_inner {node : Node α} (h : (node.isLeaf || node.isLambda) = false) :
    node.marks = node.children.flatMap marks := by
  rw [marks, preorder_eq, List.filter_cons, if_neg (Bool.eq_false_iff.1 h), List.filter_flatMap]
  rfl

theorem marks_collapse (nodes : List Outline) :
    (collapse nodes).toList.flatMap marks = nodes.flatMap marks :=
  flatMap_collapse (fun _ _ => marks_of_inner rfl) nodes

theorem marks_argumentOutline (token : Token) (name : Option String) (node : Option Outline) :
    (node.map (argumentOutline token name)).toList.flatMap marks = node.toList.flatMap marks :=
  flatMap_argumentOutline
    (fun _ _ _ => (marks_of_inner rfl).trans (List.flatMap_singleton ..)) token name node

end Node

/-- The nodes stand for the tokens up to those behind, in this order; type arguments may stand for
several, and what is glue may be left out. -/
inductive Accounts : List Token → List Token → List Outline → Prop where
  | nil (tokens : List Token) : Accounts tokens tokens []
  | mark (hm : token.marks id node = true) (hs : Accounts tokens behind nodes) :
      Accounts (token :: tokens) behind (node :: nodes)
  | glue (hg : token.lexeme.isGlue = true) (hs : Accounts tokens behind nodes) :
      Accounts (token :: tokens) behind nodes
  | types (hg : ∀ token ∈ first :: more, token.lexeme.isGlue = true)
      (hs : Accounts tokens behind nodes) :
      Accounts (first :: more ++ tokens) behind
        (.typeArgument
          ⟨first.span.start, ((first :: more).getLast (List.cons_ne_nil _ _)).span.stop⟩ :: nodes)

namespace Accounts

theorem append (h : Accounts tokens mid first) (hs : Accounts mid behind second) :
    Accounts tokens behind (first ++ second) := by
  induction h with
  | nil => exact hs
  | mark hm _ ih => exact .mark hm (ih hs)
  | glue hg _ ih => exact .glue hg (ih hs)
  | types hg _ ih => exact .types hg (ih hs)

theorem skip {front : List Token} (hf : ∀ token ∈ front, token.lexeme.isGlue = true)
    (h : Accounts tokens behind nodes) : Accounts (front ++ tokens) behind nodes := by
  induction front with
  | nil => exact h
  | cons token front ih =>
    obtain ⟨ht, hf⟩ := List.forall_mem_cons.1 hf
    exact .glue ht (ih hf)

end Accounts

theorem Lexeme.isGlue_of_isTypePart {lexeme : Lexeme} (h : lexeme.isTypePart = true) :
    lexeme.isGlue = true := by
  cases lexeme <;> first | rfl | cases h

theorem Lexeme.isGlue_of_isParameter {lexeme : Lexeme} (h : lexeme.isParameter = true) :
    lexeme.isGlue = true := by
  cases lexeme with
  | opening bracket => cases bracket <;> first | rfl | cases h
  | _ => first | rfl | cases h

theorem Lexeme.isGlue_opening {bracket : Bracket} (h : bracket ≠ .curly) :
    (Lexeme.opening bracket).isGlue = true := by
  cases bracket <;> first | rfl | exact (h rfl).elim

theorem accounts_segment {segment : List Token} (hg : ∀ token ∈ segment, token.lexeme.isGlue = true)
    (h : Accounts tokens behind nodes) :
    Accounts (segment ++ tokens) behind
      (((Span.ofTokens? segment).map Node.typeArgument).toList ++ nodes) := by
  cases segment with
  | nil => exact h
  | cons first more =>
    have hl := List.getLast?_eq_some_getLast (List.cons_ne_nil first more)
    simp only [Span.ofTokens?, hl]
    exact .types hg h

theorem Joined.accounts (h : Joined tokens segments)
    (hg : ∀ token ∈ tokens, token.lexeme.isGlue = true) (hs : Accounts rest behind nodes) :
    Accounts (tokens ++ rest) behind
      ((segments.filterMap Span.ofTokens?).map .typeArgument ++ nodes) := by
  induction h with
  | last segment =>
    have ha := accounts_segment hg hs
    rw [List.filterMap_cons]
    cases ho : Span.ofTokens? segment <;> rw [ho] at ha <;> exact ha
  | comma segment hc h ih =>
    obtain ⟨hg, hb⟩ := List.forall_mem_append.1 hg
    obtain ⟨hc, hb⟩ := List.forall_mem_cons.1 hb
    have ha := accounts_segment hg (.glue hc (ih hb))
    rw [List.append_assoc, List.cons_append, List.filterMap_cons]
    cases ho : Span.ofTokens? segment <;> rw [ho] at ha <;> exact ha

theorem Node.marks_typeArguments (spans : List Span) :
    (spans.map Node.typeArgument).flatMap marks = spans.map .typeArgument := by
  induction spans with
  | nil => rfl
  | cons span spans ih =>
    rw [List.map_cons, List.flatMap_cons, ih, marks_of_mark rfl]
    rfl

theorem accounts_readTypeArguments {cursor next : Cursor} {types : List Outline}
    (h : readTypeArguments cursor = (types, next)) :
    Accounts cursor.rest next.rest (types.flatMap Node.marks) := by
  cases typesRead h with
  | none => exact .nil _
  | @list opener inside close rest hl =>
    have hi : ∀ token ∈ inside, token.lexeme.isGlue = true :=
      fun token hm => Lexeme.isGlue_of_isTypePart (hl.inside_eq token hm)
    have hc : Accounts (close :: rest) rest [] := .glue (by rw [hl.close_eq]; rfl) (.nil rest)
    have ha := (joined_typeSegments 0 inside).accounts hi hc
    rw [List.append_nil] at ha
    rw [hl.rest_eq, Node.marks_typeArguments]
    exact .glue (by rw [hl.opener_eq]; rfl) ha

/-- The nodes of the phrase account for the tokens that are read for it. -/
def Phrase.Accounted : Phrase → Prop
  | .expression token cursor node next | .primary token cursor node next =>
    token.lexeme ≠ .lineBreak → Accounts (token :: cursor.rest) next.rest node.marks
  | .lambda token cursor node next =>
    token.lexeme = .opening .curly → Accounts (token :: cursor.rest) next.rest node.marks
  | .group _ token cursor node next =>
    token.lexeme.isGlue = true → Accounts (token :: cursor.rest) next.rest node.marks
  | .named text span cursor node next =>
    ∀ token, token.span = span → token.lexeme = .identifier text →
      Accounts (token :: cursor.rest) next.rest node.marks
  | .suffixes node cursor result next =>
    ∃ behind, result.marks = node.marks ++ behind ∧ Accounts cursor.rest next.rest behind
  | .callArguments cursor nodes next =>
    Accounts cursor.rest next.rest ((nodes.getD []).flatMap Node.marks)
  | .trailingLambda cursor node next =>
    Accounts cursor.rest next.rest (node.toList.flatMap Node.marks)
  | .valueArguments cursor nodes next | .items _ _ cursor nodes next
  | .statements _ cursor nodes next | .groupItems _ cursor nodes next =>
    Accounts cursor.rest next.rest (nodes.flatMap Node.marks)

theorem Token.marks_leaf {token : Token} {node : Outline} (hm : token.lexeme.marks node = true)
    (hl : node.isLambda = false) (hi : node.info = token.span) : token.marks id node = true := by
  simp [Token.marks, hm, hl, hi]

theorem Lexeme.marks_literal {lexeme : Lexeme} (h : lexeme.isLiteral = true) (span : Span) :
    lexeme.marks (.literal span) = true := by
  cases lexeme <;> first | rfl | cases h

theorem Lexeme.marks_token {lexeme : Lexeme} (h : lexeme.isSymbol = true) (hn : lexeme ≠ .lineBreak)
    (span : Span) : lexeme.marks (.token span) = true := by
  cases lexeme <;> first | rfl | exact (hn rfl).elim | cases h

theorem Accounts.alone {token : Token} {node : Outline} (hm : token.lexeme.marks node = true)
    (hl : node.isLeaf = true) (hn : node.isLambda = false) (hc : node.children = [])
    (hi : node.info = token.span) (tokens : List Token) :
    Accounts (token :: tokens) tokens node.marks := by
  rw [Node.marks_of_mark (by rw [hl, Bool.true_or]), hc]
  exact .mark (Token.marks_leaf hm hn hi) (.nil tokens)

theorem Accounts.closing {cursor : Cursor} (hr : cursor.rest = token :: rest)
    (ht : token.lexeme = .closing bracket) (p : Prop) [Decidable p] :
    Accounts cursor.rest (if p then Cursor.past token rest else cursor).rest [] := by
  split
  · rw [hr]
    exact .glue (by rw [ht]; rfl) (.nil rest)
  · exact .nil _

theorem accounts_skipClosing (bracket : Bracket) (cursor : Cursor) :
    Accounts cursor.rest (cursor.skipClosing bracket).rest [] := by
  rcases skipClosing_cases bracket cursor with h | ⟨token, rest, hr, ht, h⟩
  · rw [h]
    exact .nil _
  · rw [h, hr]
    exact .glue (by rw [ht]; rfl) (.nil rest)

theorem accounts_readParameters {cursor next : Cursor} {parameters : Option String}
    (h : readParameters source cursor = (parameters, next)) :
    Accounts cursor.rest next.rest [] := by
  cases parametersRead h with
  | none => exact .nil _
  | @list inside arrow rest hp =>
    rw [hp.rest_eq]
    have ha : Accounts (arrow :: rest) rest [] := .glue (by rw [hp.arrow_eq]; rfl) (.nil rest)
    exact ha.skip fun token hm => Lexeme.isGlue_of_isParameter (hp.inside_eq token hm)

theorem accounts_readArgumentName (cursor : Cursor) :
    Accounts cursor.rest (readArgumentName cursor).2.rest [] := by
  rcases readArgumentName_eq cursor with h | ⟨name, sign, rest, text, hr, hn, hs, h⟩
  · rw [h]
    exact .nil _
  · rw [h, hr]
    exact .glue (by rw [hn]; rfl) (.glue (by rw [hs]; rfl) (.nil rest))

theorem Member.Ahead.accounts {member : Member} (h : member.Ahead tokens breaks dot name rest)
    (hs : Accounts (name :: rest) behind nodes) : Accounts tokens behind nodes := by
  rw [h.tokens_eq]
  have hd : Accounts (dot :: name :: rest) behind nodes := .glue (by rw [h.dot_eq]; rfl) hs
  apply hd.skip
  intro token hm
  rw [h.breaks_eq token hm]
  rfl

theorem isGlue_of_separator {lexeme : Lexeme} (setting : Setting)
    (h : lexeme = .lineBreak ∨ lexeme = setting.separator) : lexeme.isGlue = true := by
  cases setting <;> rcases h with rfl | rfl <;> rfl

theorem Derives.accounted (h : Derives source n phrase) : phrase.Accounted := by
  induction h with
  | expression _ _ ihp ihs =>
    intro hne
    obtain ⟨behind, he, hs⟩ := ihs
    rw [he]
    exact (ihp hne).append hs
  | name ht _ ih =>
    intro _
    exact ih _ rfl ht
  | braces ht _ ih =>
    intro _
    exact ih ht
  | brackets ht hb _ ih =>
    intro _
    apply ih
    rw [ht]
    exact Lexeme.isGlue_opening hb
  | string ht =>
    intro _
    apply Accounts.alone _ rfl rfl rfl rfl
    rw [ht]
    exact beq_self_eq_true _
  | literal ht =>
    intro _
    exact .alone (Lexeme.marks_literal ht _) rfl rfl rfl rfl _
  | symbol ht =>
    intro hn
    exact .alone (Lexeme.marks_token ht hn _) rfl rfl rfl rfl _
  | noSuffix => exact ⟨[], (List.append_nil _).symm, .nil _⟩
  | @member cursor member _ _ _ _ _ _ hm _ _ ihn ihs =>
    obtain ⟨breaks, dot, name, rest, ha⟩ := exists_of_memberAhead? hm
    obtain ⟨behind, he, hs⟩ := ihs
    have hn := ihn name ha.span_eq ha.name_eq
    rw [ha.next_eq] at hn
    refine ⟨_, ?_, ha.accounts (hn.append hs)⟩
    rw [he, Node.marks_of_inner rfl]
    simp [Node.children]
  | index _ hr ht _ _ _ ihg ihs =>
    obtain ⟨behind, he, hs⟩ := ihs
    have hg := (ihg (by rw [ht]; rfl)).append hs
    rw [Cursor.past, ← hr] at hg
    refine ⟨_, ?_, hg⟩
    rw [he, Node.marks_of_inner rfl]
    simp [Node.children]
  | identifier ht _ _ iha ihl =>
    intro token hs hi
    rw [Node.marks_of_mark rfl]
    apply Accounts.mark
    · exact Token.marks_leaf (by rw [hi]; exact beq_self_eq_true _) rfl hs.symm
    · exact (accounts_readTypeArguments ht).append (iha.append ihl)
  | call ht _ _ _ iha ihl =>
    intro token hs hi
    rw [Node.marks_of_inner rfl, Node.children, List.flatMap_cons, Node.marks_of_mark rfl,
      List.flatMap_append, List.flatMap_append]
    apply Accounts.mark
    · exact Token.marks_leaf (by rw [hi]; exact beq_self_eq_true _) rfl hs.symm
    · exact ((accounts_readTypeArguments ht).append iha).append ihl
  | noArguments | noLambda | argumentsEnd | itemsEnd | itemsStop | itemsBreak | statementsEnd
  | statementsClose | groupEnd => exact .nil _
  | arguments hr ht _ ih | itemsContinue hr ht _ _ ih | groupSkip hr ht _ ih =>
    simp only [Phrase.Accounted, hr]
    exact .glue (by rw [ht]; rfl) ih
  | argumentsSkip hr ht _ ih =>
    simp only [Phrase.Accounted, hr]
    exact .glue (isGlue_of_separator .argument ht) ih
  | statementsSkip hr ht _ ih =>
    simp only [Phrase.Accounted, hr]
    exact .glue (isGlue_of_separator .statement ht) ih
  | trailing hr ht _ ih =>
    simp only [Phrase.Accounted, hr, Option.toList_some, List.flatMap_singleton]
    exact ih ht
  | argumentsClose hr ht | groupClose hr ht => exact .closing hr ht _
  | @argument _ _ _ cursor _ _ _ _ _ _ _ _ ihi iha =>
    simp only [Phrase.Accounted, List.flatMap_append, Node.marks_argumentOutline,
      Node.marks_collapse]
    exact (accounts_readArgumentName cursor).append (ihi.append iha)
  | item hr ht _ _ ihe ihi =>
    simp only [Phrase.Accounted, hr]
    exact (ihe ht.1).append ihi
  | groupItem hr ht _ _ _ ihe ihi =>
    simp only [Phrase.Accounted, hr]
    exact (ihe ht).append ihi
  | stray hr ht _ _ ih =>
    simp only [Phrase.Accounted, hr, List.flatMap_cons]
    exact .append (.alone (by rw [ht]; rfl) rfl rfl rfl rfl _) ih
  | statement _ _ _ _ ihi ihs =>
    simp only [Phrase.Accounted, List.flatMap_append, Node.marks_collapse]
    exact ihi.append ihs
  | lambda hp _ ih =>
    intro ht
    rw [Node.marks_of_mark rfl]
    apply Accounts.mark
    · simp [Token.marks, ht, Lexeme.marks, lambdaOutline, Node.isLambda, Node.info]
    · have hb := ih.append (accounts_skipClosing .curly _)
      rw [List.append_nil] at hb
      rw [lambdaOutline, Node.children, List.flatMap_singleton, Node.marks_of_inner rfl]
      exact (accounts_readParameters hp).append hb
  | group hg ih =>
    intro ht
    rw [Node.marks_of_inner rfl]
    exact .glue ht ih

/-- Tokens stand one behind the other. -/
structure Token.Ordered (tokens : List Token) : Prop where
  nonempty : ∀ token ∈ tokens, token.span.start < token.span.stop
  pairwise : tokens.Pairwise fun a b => a.span.stop ≤ b.span.start

theorem Token.Ordered.tail (h : Ordered (token :: tokens)) : Ordered tokens :=
  ⟨(List.forall_mem_cons.1 h.nonempty).2, (List.pairwise_cons.1 h.pairwise).2⟩

theorem Token.Ordered.append_right (h : Ordered (front ++ tokens)) : Ordered tokens :=
  ⟨(List.forall_mem_append.1 h.nonempty).2, (List.pairwise_append.1 h.pairwise).2.1⟩

theorem Token.Ordered.starts (h : Ordered tokens) :
    (tokens.map (·.span.start)).Pairwise (· < ·) := by
  rw [List.pairwise_map]
  apply h.pairwise.imp_of_mem
  intro a b ha _ hab
  exact Nat.lt_of_lt_of_le (h.nonempty a ha) hab

theorem Token.marks_start {token : Token} {node : Outline} (h : token.marks id node = true) :
    node.info.start = token.span.start := by
  rw [marks, Bool.and_eq_true] at h
  have hs := h.2
  split at hs
  · exact beq_iff_eq.1 hs
  · have hi : node.info = token.span := beq_iff_eq.1 hs
    rw [hi]

theorem filter_eq_singleton {l : List β} {r : β → β → Prop} {p : β → Bool} (h : l.Pairwise r)
    (hm : a ∈ l) (ha : p a = true) (hp : ∀ b ∈ l, p b = true → ¬ r a b ∧ ¬ r b a) :
    l.filter p = [a] := by
  obtain ⟨front, back, rfl⟩ := List.append_of_mem hm
  obtain ⟨_, hb, hf⟩ := List.pairwise_append.1 h
  have hf : front.filter p = [] := by
    rw [List.filter_eq_nil_iff]
    intro b hb hpb
    exact (hp b (List.mem_append_left _ hb) hpb).2 (hf b hb a List.mem_cons_self)
  have hb : back.filter p = [] := by
    rw [List.filter_eq_nil_iff]
    intro b hm hpb
    exact (hp b (List.mem_append_right _ (List.mem_cons_of_mem _ hm)) hpb).1
      ((List.pairwise_cons.1 hb).1 b hm)
  rw [List.filter_append, List.filter_cons, if_pos ha, hf, hb]
  rfl

/-- A token is the only one that its span covers. -/
theorem Token.Ordered.filter_covers (h : Ordered tokens) (hm : token ∈ tokens) :
    tokens.filter (fun other => token.span.covers other.span) = [token] := by
  apply filter_eq_singleton h.pairwise hm
  · simp [Span.covers]
  · intro other ho hc
    have hn := h.nonempty other ho
    simp only [Span.covers, Bool.and_eq_true, decide_eq_true_eq] at hc
    omega

namespace Accounts

theorem starts (h : Accounts tokens behind nodes) :
    (nodes.map (·.info.start)).Sublist (tokens.map (·.span.start)) := by
  induction h with
  | nil => exact List.nil_sublist _
  | mark hm _ ih =>
    rw [List.map_cons, List.map_cons, Token.marks_start hm]
    exact ih.cons_cons _
  | glue _ _ ih => exact ih.cons _
  | types _ _ ih =>
    rw [List.map_append]
    exact (List.singleton_sublist.2 List.mem_cons_self).append ih

theorem exists_start (h : Accounts tokens behind nodes) (hm : node ∈ nodes) :
    ∃ token ∈ tokens, token.span.start = node.info.start :=
  List.mem_map.1 (h.starts.subset (List.mem_map_of_mem hm))

theorem exists_token (h : Accounts tokens behind nodes) (hm : node ∈ nodes)
    (ht : node.isTypeArgument = false) : ∃ token ∈ tokens, token.marks id node = true := by
  induction h with
  | nil => cases hm
  | mark hmarks _ ih =>
    rcases List.mem_cons.1 hm with rfl | hm
    · exact ⟨_, List.mem_cons_self, hmarks⟩
    · obtain ⟨token, hm, h⟩ := ih hm
      exact ⟨token, List.mem_cons_of_mem _ hm, h⟩
  | glue _ _ ih =>
    obtain ⟨token, hm, h⟩ := ih hm
    exact ⟨token, List.mem_cons_of_mem _ hm, h⟩
  | types _ _ ih =>
    rcases List.mem_cons.1 hm with rfl | hm
    · cases ht
    · obtain ⟨token, hm, h⟩ := ih hm
      exact ⟨token, List.mem_append_right _ hm, h⟩

theorem exists_node (h : Accounts tokens [] nodes) (hm : token ∈ tokens)
    (hg : token.lexeme.isGlue = false) : ∃ node ∈ nodes, token.marks id node = true := by
  generalize hb : [] = behind at h
  induction h with
  | nil =>
    subst hb
    cases hm
  | mark hmarks _ ih =>
    rcases List.mem_cons.1 hm with rfl | hm
    · exact ⟨_, List.mem_cons_self, hmarks⟩
    · obtain ⟨node, hm, h⟩ := ih hm hb
      exact ⟨node, List.mem_cons_of_mem _ hm, h⟩
  | glue hglue _ ih =>
    rcases List.mem_cons.1 hm with rfl | hm
    · rw [hglue] at hg
      cases hg
    · exact ih hm hb
  | types hglue _ ih =>
    rcases List.mem_append.1 hm with hm | hm
    · rw [hglue token hm] at hg
      cases hg
    · obtain ⟨node, hm, h⟩ := ih hm hb
      exact ⟨node, List.mem_cons_of_mem _ hm, h⟩

theorem spans (h : Accounts tokens behind nodes) (ho : Token.Ordered tokens) :
    (∀ node ∈ nodes, node.isLambda = false → node.info.start < node.info.stop) ∧
      nodes.Pairwise fun a b => a.isLambda = false → a.info.stop ≤ b.info.start := by
  induction h with
  | nil => exact ⟨List.forall_mem_nil _, .nil⟩
  | @mark tokens behind nodes token node hm hs ih =>
    obtain ⟨hn, hp⟩ := ih ho.tail
    have hi (hl : node.isLambda = false) : node.info = token.span := by
      rw [Token.marks, hl, Bool.and_eq_true] at hm
      exact beq_iff_eq.1 hm.2
    refine ⟨List.forall_mem_cons.2 ⟨?_, hn⟩, List.pairwise_cons.2 ⟨?_, hp⟩⟩
    · intro hl
      rw [hi hl]
      exact ho.nonempty token List.mem_cons_self
    · intro other hother hl
      obtain ⟨next, hnext, he⟩ := hs.exists_start hother
      rw [hi hl, ← he]
      exact (List.pairwise_cons.1 ho.pairwise).1 next hnext
  | glue _ _ ih => exact ih ho.tail
  | @types first more tokens behind nodes _ hs ih =>
    obtain ⟨hn, hp⟩ := ih ho.append_right
    obtain ⟨hpt, _, hb⟩ := List.pairwise_append.1 ho.pairwise
    have hlast := List.getLast_mem (List.cons_ne_nil first more)
    generalize (first :: more).getLast (List.cons_ne_nil first more) = last at *
    refine ⟨List.forall_mem_cons.2 ⟨fun _ => ?_, hn⟩, List.pairwise_cons.2 ⟨?_, hp⟩⟩
    · have hlt := ho.nonempty last (List.mem_append_left _ hlast)
      have hle := ho.nonempty first (List.mem_append_left _ List.mem_cons_self)
      rcases List.mem_cons.1 hlast with rfl | hlast
      · exact hlt
      · have := (List.pairwise_cons.1 hpt).1 last hlast
        simp only [Node.info]
        omega
    · intro other hother _
      obtain ⟨next, hnext, he⟩ := hs.exists_start hother
      rw [← he]
      exact hb last hlast next hnext

end Accounts

theorem Token.info_eq_of_marks {token : Token} {node : Outline} (h : token.marks id node = true)
    (hl : node.isLambda = false) : node.info = token.span := by
  rw [marks, hl, Bool.and_eq_true] at h
  exact beq_iff_eq.1 h.2

theorem Token.isMark_of_marks {token : Token} {span : α → Span} {node : Node α}
    (h : token.marks span node = true) : (node.isLeaf || node.isLambda) = true := by
  obtain ⟨hm, _⟩ := Bool.and_eq_true_iff.1 h
  cases node <;> first | rfl | cases hm

namespace Node

theorem isLambda_of_isLeaf {node : Node α} (h : node.isLeaf = true) : node.isLambda = false := by
  cases node <;> first | rfl | cases h

theorem leaves_eq (tree : Node α) : tree.leaves = tree.marks.filter isLeaf := by
  rw [leaves, marks, List.filter_filter]
  apply List.filter_congr
  intro node _
  cases node.isLeaf <;> rfl

theorem filter_marks (span : α → Span) (token : Token) (tree : Node α) :
    tree.preorder.filter (token.marks span) = tree.marks.filter (token.marks span) := by
  rw [marks, List.filter_filter]
  apply List.filter_congr
  intro node _
  cases hm : token.marks span node with
  | false => rfl
  | true => rw [Token.isMark_of_marks hm, Bool.and_self]

theorem isLeaf_map (f : α → β) (node : Node α) : (node.map f).isLeaf = node.isLeaf := by
  cases node <;> simp [map_call, isLeaf]

theorem isTypeArgument_map (f : α → β) (node : Node α) :
    (node.map f).isTypeArgument = node.isTypeArgument := by
  cases node <;> simp [map_call, isTypeArgument]

theorem leaves_map (f : α → β) (tree : Node α) : (tree.map f).leaves = tree.leaves.map (map f) := by
  rw [leaves, leaves, preorder_map, List.filter_map]
  congr 1
  apply List.filter_congr
  intro node _
  exact isLeaf_map f node

theorem lexemeMarks_map (f : α → β) (lexeme : Lexeme) (node : Node α) :
    lexeme.marks (node.map f) = lexeme.marks node := by
  cases node <;> simp only [map_call, map] <;> cases lexeme <;> try rfl
  all_goals
    next bracket => cases bracket <;> rfl

theorem marks_map (f : α → β) (span : β → Span) (token : Token) (node : Node α) :
    token.marks span (node.map f) = token.marks (span ∘ f) node := by
  rw [Token.marks, Token.marks, lexemeMarks_map, isLambda_map, info_map]
  rfl

theorem Tallies.map {f : α → β} {span : β → Span} {tree : Node α}
    (h : tree.Tallies (span ∘ f) tokens) : (tree.map f).Tallies span tokens := by
  constructor
  · rw [leaves_map, List.forall_mem_map]
    intro leaf hm
    rw [info_map]
    exact h.nonempty leaf hm
  · rw [leaves_map, List.pairwise_map]
    simp only [info_map]
    exact h.ordered
  · rw [leaves_map, List.forall_mem_map]
    intro leaf hm ht
    rw [isTypeArgument_map] at ht
    rw [info_map]
    simp only [marks_map]
    exact h.covers leaf hm ht
  · intro token hm hg
    obtain ⟨node, hn⟩ := h.marked token hm hg
    have hc : token.marks span ∘ Node.map f = token.marks (span ∘ f) :=
      funext (marks_map f span token)
    refine ⟨node.map f, ?_⟩
    rw [preorder_map, List.filter_map, hc, hn]
    rfl

end Node

/-- What stands for tokens in order tallies with them. -/
theorem Accounts.tallies {tree : Outline} (h : Accounts tokens [] tree.marks)
    (ho : Token.Ordered tokens) : tree.Tallies id tokens := by
  obtain ⟨hn, hp⟩ := h.spans ho
  have hleaf {leaf : Outline} (hm : leaf ∈ tree.leaves) :
      leaf ∈ tree.marks ∧ leaf.isLambda = false := by
    rw [Node.leaves_eq] at hm
    obtain ⟨hm, hl⟩ := List.mem_filter.1 hm
    exact ⟨hm, Node.isLambda_of_isLeaf hl⟩
  constructor
  · intro leaf hm
    obtain ⟨hm, hl⟩ := hleaf hm
    exact hn leaf hm hl
  · have hp : tree.leaves.Pairwise _ := (Node.leaves_eq tree).symm ▸ hp.filter Node.isLeaf
    apply hp.imp_of_mem
    intro a b ha _ hab
    exact hab (hleaf ha).2
  · intro leaf hm ht
    obtain ⟨hm, hl⟩ := hleaf hm
    obtain ⟨token, htoken, hmarks⟩ := h.exists_token hm ht
    refine ⟨token, ?_, hmarks⟩
    rw [Token.info_eq_of_marks hmarks hl]
    exact ho.filter_covers htoken
  · intro token hm hg
    obtain ⟨node, hnode, hmarks⟩ := h.exists_node hm hg
    have hs : tree.marks.Pairwise fun a b => a.info.start < b.info.start :=
      List.pairwise_map.1 (ho.starts.sublist h.starts)
    refine ⟨node, ?_⟩
    rw [Node.filter_marks]
    apply filter_eq_singleton hs hnode hmarks
    intro other _ hother
    rw [Token.marks_start hmarks, Token.marks_start hother]
    exact ⟨Nat.lt_irrefl _, Nat.lt_irrefl _⟩

theorem Source.ordered_tokens (source : Source) : Token.Ordered source.tokens := by
  have h := tiling_scan 0 source.text
  refine ⟨?_, h.pairwise⟩
  intro token hm
  obtain ⟨hne, _, hstop⟩ := h.standsAt [] rfl token hm
  have := Text.byteSize_pos hne
  omega

theorem Source.accounts_of_outline? {source : Source} {outline : Outline}
    (h : source.outline? limit = some outline) :
    ∃ behind, Accounts source.tokens behind outline.marks := by
  obtain ⟨nodes, next, rfl, hd⟩ := outline?_eq_some_iff.1 h
  refine ⟨next.rest, ?_⟩
  rw [Node.marks_of_inner rfl]
  exact hd.accounted

/-- Each leaf and each lambda of a tree stands for a token, type arguments aside. -/
theorem Source.exists_mark {source : Source} {outline node : Outline}
    (h : source.outline? limit = some outline) (hm : node ∈ outline.preorder)
    (hn : (node.isLeaf || node.isLambda) = true) (ht : node.isTypeArgument = false) :
    ∃ token ∈ source.tokens, token.marks id node = true := by
  obtain ⟨behind, ha⟩ := accounts_of_outline? h
  exact ha.exists_token (List.mem_filter.2 ⟨hm, hn⟩) ht

theorem Source.nonempty_of_isLeaf {source : Source} {outline node : Outline}
    (h : source.outline? limit = some outline) (hm : node ∈ outline.preorder)
    (hl : node.isLeaf = true) : node.info.start < node.info.stop := by
  obtain ⟨behind, ha⟩ := accounts_of_outline? h
  have hmarks : node ∈ outline.marks := List.mem_filter.2 ⟨hm, by rw [hl, Bool.true_or]⟩
  exact (ha.spans source.ordered_tokens).1 node hmarks (Node.isLambda_of_isLeaf hl)

inductive Lexeme.Marking : Lexeme → Node α → Prop where
  | identifier {text : String} : Marking (.identifier text) (.identifier info (bareName text))
  | string {text : String} : Marking (.string text) (.stringLiteral info (stringContent text))
  | literal (h : lexeme.isLiteral = true) : Marking lexeme (.literal info)
  | token (h : lexeme.isSymbol = true) : Marking lexeme (.token info)
  | lambda : Marking (.opening .curly) (.lambda info parameters body)

theorem Lexeme.marking {lexeme : Lexeme} {node : Node α} (h : lexeme.marks node = true) :
    lexeme.Marking node := by
  rw [marks.eq_def] at h
  split at h
  · rw [beq_iff_eq.1 h]
    exact .identifier
  · rw [beq_iff_eq.1 h]
    exact .string
  · exact .literal rfl
  · exact .literal rfl
  · exact .token rfl
  · exact .token rfl
  · exact .token rfl
  · exact .lambda
  · cases h

/-- No token is lost or invented, and nothing but the nesting makes a parse fail, which takes a
limit of less than two levels for each token. Otherwise all tokens are read, the tree is a file
that spans the whole source, and its leaves and lambdas and the tokens account for each other. -/
theorem tallies_of_parse (limit : Nat) (text : String) :
    let source := Source.ofString text
    (SyntaxTree.parse limit text = .error (.nestingTooDeep limit) ∧
        limit < 2 * source.tokens.length) ∨
      ∃ statements last,
        readStatements (expressionWithin source limit) none ⟨0, source.tokens⟩ =
          some (statements, ⟨last, []⟩) ∧
        let tree := (Node.file ⟨0, source.size⟩ statements).map source.locate
        SyntaxTree.parse limit text = .ok tree ∧ tree.Tallies Place.span source.tokens := by
  intro source
  rw [SyntaxTree.parse, Source.parse]
  cases ho : source.outline? limit with
  | none =>
    refine .inl ⟨rfl, Nat.lt_of_not_le fun hle => ?_⟩
    have hs := Source.isSome_outline? hle
    rw [ho] at hs
    cases hs
  | some outline =>
    right
    obtain ⟨statements, ⟨last, behind⟩, rfl, hd⟩ := Source.outline?_eq_some_iff.1 ho
    have hr : behind = [] := by
      rcases hd.statements_stop with hr | ⟨_, _, _, _, _, hc⟩
      · exact hr
      · cases hc
    subst hr
    have ha : Accounts source.tokens [] (statements.flatMap Node.marks) := hd.accounted
    refine ⟨statements, last, hd.isRead, rfl, ?_⟩
    apply Node.Tallies.map
    apply Accounts.tallies _ source.ordered_tokens
    rw [Node.marks_of_inner rfl]
    exact ha

end StateDiagram
