import Mathlib.Data.List.Nodup
import StateDiagram.Proofs.Balance
import StateDiagram.Proofs.Braces

namespace StateDiagram

set_option autoImplicit true

open Token

theorem Lexeme.isCurly_of_not_isBracket {lexeme : Lexeme} (h : lexeme.isBracket = false) :
    lexeme.isCurly = false := by
  cases lexeme <;> first | rfl | cases h

theorem Lexeme.isCurly_of_isParameter {lexeme : Lexeme} (h : lexeme.isParameter = true) :
    lexeme.isCurly = false := by
  cases lexeme with
  | opening bracket | closing bracket => cases bracket <;> first | rfl | cases h
  | _ => rfl

theorem Lexeme.isCurly_opening {bracket : Bracket} (h : bracket ≠ .curly) :
    (Lexeme.opening bracket).isCurly = false := by
  cases bracket <;> first | rfl | exact (h rfl).elim

theorem Lexeme.isCurly_closing {bracket : Bracket} (h : bracket ≠ .curly) :
    (Lexeme.closing bracket).isCurly = false := by
  cases bracket <;> first | rfl | exact (h rfl).elim

namespace Braced

variable {token : Token} {rest behind : List Token} {nodes : List Outline}
  {cursor next : Cursor}

theorem ahead (hr : cursor.rest = token :: rest) (ht : token.lexeme.isCurly = false)
    (h : Braced rest behind nodes) : Braced cursor.rest behind nodes := by
  rw [hr]
  exact .plain ht h

theorem closing (hr : cursor.rest = token :: rest) (ht : token.lexeme = .closing bracket)
    (p : Prop) [Decidable p] (hp : p → bracket ≠ .curly) :
    Braced cursor.rest (if p then Cursor.past token rest else cursor).rest [] := by
  split
  · next h => exact ahead hr (ht ▸ Lexeme.isCurly_closing (hp h)) (.nil rest)
  · exact .nil _

theorem typeArguments {types : List Outline} (h : readTypeArguments cursor = (types, next)) :
    Braced cursor.rest next.rest (types.flatMap Node.outerLambdas) := by
  cases typesRead h with
  | none => exact .nil _
  | @list opener inside close rest hl =>
    have hi : ∀ token ∈ inside, token.lexeme.isCurly = false :=
      fun token hm => Lexeme.isCurly_of_not_isBracket
        (Lexeme.isBracket_of_isTypePart (hl.inside_eq token hm))
    have hc : Braced (close :: rest) rest [] := .plain (by rw [hl.close_eq]; rfl) (.nil rest)
    have ht : ∀ spans : List Span,
        (spans.map Node.typeArgument).flatMap Node.outerLambdas = [] := by
      intro spans
      rw [List.flatMap_map, List.flatMap_eq_nil_iff]
      exact fun span _ => Node.outerLambdas_of_inner rfl
    rw [hl.rest_eq, ht]
    exact .plain (by rw [hl.opener_eq]; rfl) (hc.skip hi)

theorem parameters {parameters : Option String}
    (h : readParameters source cursor = (parameters, next)) :
    Braced cursor.rest next.rest [] := by
  cases parametersRead h with
  | none => exact .nil _
  | @list inside arrow rest hp =>
    rw [hp.rest_eq]
    have ha : Braced (arrow :: rest) rest [] := .plain (by rw [hp.arrow_eq]; rfl) (.nil rest)
    exact ha.skip fun token hm => Lexeme.isCurly_of_isParameter (hp.inside_eq token hm)

theorem argumentName (cursor : Cursor) :
    Braced cursor.rest (readArgumentName cursor).2.rest [] := by
  rcases readArgumentName_eq cursor with h | ⟨name, sign, rest, text, hr, hn, hs, h⟩
  · rw [h]
    exact .nil _
  · rw [h, hr]
    exact .plain (by rw [hn]; rfl) (.plain (by rw [hs]; rfl) (.nil rest))

theorem member {member : Member} (ha : member.Ahead tokens breaks dot name rest)
    (h : Braced rest behind nodes) : Braced tokens behind nodes := by
  rw [ha.tokens_eq]
  have hn : Braced (name :: rest) behind nodes := .plain (by rw [ha.name_eq]; rfl) h
  have hd : Braced (dot :: name :: rest) behind nodes := .plain (by rw [ha.dot_eq]; rfl) hn
  apply hd.skip
  intro token hm
  rw [ha.breaks_eq token hm]
  rfl

/-- A lambda ends with the brace behind its statements, or at the end of the source. -/
theorem lambda {body : List Outline} {mid stop : Cursor} {parameters : Option String}
    (ht : token.lexeme = .opening .curly)
    (hc : cursor.Sound source) (hp : readParameters source cursor = (parameters, mid))
    (hs : Derives source n (.statements (some .curly) mid body stop))
    (hb : Braced mid.rest stop.rest (body.flatMap Node.outerLambdas)) :
    Braced (token :: cursor.rest) (stop.skipClosing .curly).rest
      [lambdaOutline source token parameters body stop] := by
  have hm := hc.leads (readParameters_leads hp)
  have hread : mid.Leads stop := hs.leads
  have hstop := hm.leads hread
  have hbody : Braced cursor.rest stop.rest
      ((lambdaOutline source token parameters body stop).children.flatMap Node.outerLambdas) := by
    rw [lambdaOutline, Node.children, List.flatMap_singleton, Node.outerLambdas_of_inner rfl]
    exact (Braced.parameters hp).append hb
  rcases hs.statements_stop with hr | ⟨close, rest, bracket, hr, hclose, hcurly⟩
  · have hskip : stop.skipClosing .curly = stop := by rw [Cursor.skipClosing, hr]
    rw [hskip, hr]
    rw [hr] at hbody
    refine .unclosed ht rfl hbody rfl ?_
    intro found hf
    obtain ⟨front, back, he⟩ := List.append_of_mem hf
    have hle := (hc.heads he).stop_le_lastEnd
    rw [hstop.lastEnd_of_nil hr] at hle
    rw [lambdaOutline, hskip]
    exact Nat.le_trans hle (Nat.le_max_left ..)
  · cases hcurly
    have hskip := skipClosing_eq hr hclose
    have hlow := (blockSpan hm hread (hs.spanned hm)).stop_le
    have hlt := (hstop.headsNext hr).nonempty
    rw [Cursor.nextStart_of_cons hr] at hlow
    rw [hskip]
    rw [hr] at hbody
    refine .closed ht rfl hbody hclose ?_ (.nil rest)
    rw [lambdaOutline, hskip, Cursor.nextStart_of_cons hr]
    exact congrArg (Span.mk _) (Nat.max_eq_left (Nat.le_trans hlow (Nat.le_of_lt hlt)))

end Braced

/-- As `Braced` for all that is left, where a closing brace for which there is no opening one
stands for itself. -/
inductive Strayed : List Token → List Outline → Prop where
  | last {tokens : List Token} {nodes : List Outline}
      (h : Braced tokens [] (nodes.flatMap Node.outerLambdas)) : Strayed tokens nodes
  | stray {close : Token} {tokens rest : List Token} {front nodes : List Outline}
      (h : Braced tokens (close :: rest) (front.flatMap Node.outerLambdas))
      (hc : close.lexeme = .closing .curly) (hs : Strayed rest nodes) :
      Strayed tokens (front ++ .token close.span :: nodes)

namespace Strayed

variable {tokens rest later : List Token} {front nodes : List Outline} {brace close : Token}

theorem append (h : Braced tokens rest (front.flatMap Node.outerLambdas))
    (hs : Strayed rest nodes) : Strayed tokens (front ++ nodes) := by
  cases hs with
  | last hb =>
    apply Strayed.last
    rw [List.flatMap_append]
    exact h.append hb
  | @stray _ _ _ middle _ hb hc hs =>
    rw [← List.append_assoc]
    apply Strayed.stray _ hc hs
    rw [List.flatMap_append]
    exact h.append hb

theorem skip {token : Token} (ht : token.lexeme.isCurly = false) (hs : Strayed tokens nodes) :
    Strayed (token :: tokens) nodes :=
  @append _ tokens [] _ (.plain ht (.nil tokens)) hs

theorem head (hc : close.lexeme = .closing .curly) (hs : Strayed rest nodes) :
    Strayed (close :: rest) (.token close.span :: nodes) :=
  @stray close _ rest [] _ (.nil _) hc hs

theorem plain {token : Token} (ht : token.lexeme.isCurly = false) (hs : Strayed tokens nodes) :
    Strayed (token :: tokens) (.token token.span :: nodes) := by
  apply @append _ tokens [.token token.span] _ _ hs
  rw [List.flatMap_singleton, Node.outerLambdas_of_inner rfl]
  exact .plain ht (.nil tokens)

theorem closing (ht : close.lexeme = .closing bracket) (hs : Strayed rest nodes) :
    Strayed (close :: rest) (.token close.span :: nodes) := by
  by_cases hc : bracket = .curly
  · subst hc
    exact .head ht hs
  · exact .plain (ht ▸ Lexeme.isCurly_closing hc) hs

theorem exists_lambda (h : Strayed tokens nodes) (hm : brace :: later <:+ tokens)
    (ho : brace.lexeme = .opening .curly) :
    ∃ lambda ∈ nodes.flatMap Node.lambdas, brace.Opens id later lambda := by
  have lift {nodes : List Outline} {lambda : Outline}
      (hl : lambda ∈ (nodes.flatMap Node.outerLambdas).flatMap Node.lambdas) :
      lambda ∈ nodes.flatMap Node.lambdas := by
    rwa [List.flatMap_assoc, List.flatMap_congr fun node _ => Node.flatMap_outerLambdas node] at hl
  induction h with
  | last hb =>
    obtain ⟨lambda, hl, h⟩ := hb.exists_lambda hm List.nil_suffix ho
    exact ⟨lambda, lift hl, h⟩
  | stray hb hc _ ih =>
    rw [List.flatMap_append, List.flatMap_cons]
    rcases Braced.suffix_cases hm hb.suffix with ⟨he, _⟩ | hbehind | hinside
    · rw [he, hc] at ho
      cases ho
    · obtain ⟨lambda, hl, h⟩ := ih hbehind
      exact ⟨lambda, List.mem_append_right _ (List.mem_append_right _ hl), h⟩
    · obtain ⟨lambda, hl, h⟩ := hb.exists_lambda hm hinside ho
      exact ⟨lambda, List.mem_append_left _ (lift hl), h⟩

theorem exists_brace (h : Strayed tokens nodes) (hm : close :: later <:+ tokens)
    (hc : close.lexeme = .closing .curly) :
    (∃ brace inside, brace :: inside <:+ tokens ∧ brace.lexeme = .opening .curly ∧
      closingBrace? 0 inside = some close) ∨ .token close.span ∈ nodes := by
  induction h with
  | last hb => exact .inl (hb.exists_brace hm List.nil_suffix hc)
  | @stray found tokens rest front nodes hb _ _ ih =>
    rcases Braced.suffix_cases hm hb.suffix with ⟨rfl, _⟩ | hbehind | hinside
    · exact .inr (List.mem_append_right _ List.mem_cons_self)
    · rcases ih hbehind with ⟨brace, inside, hs, h⟩ | h
      · exact .inl ⟨brace, inside, hs.trans ((List.suffix_cons ..).trans hb.suffix), h⟩
      · exact .inr (List.mem_append_right _ (List.mem_cons_of_mem _ h))
    · exact .inl (hb.exists_brace hm hinside hc)

end Strayed

/-- The lambdas of the phrase are the outer pairs of braces of the tokens that are read for it. -/
def Phrase.Braced (source : Source) : Phrase → Prop
  | .expression token cursor node next | .primary token cursor node next =>
    cursor.Sound source → token.lexeme.isClosing = false →
      StateDiagram.Braced (token :: cursor.rest) next.rest node.outerLambdas
  | .lambda token cursor node next =>
    cursor.Sound source → token.lexeme = .opening .curly →
      StateDiagram.Braced (token :: cursor.rest) next.rest node.outerLambdas
  | .group bracket _ cursor node next =>
    cursor.Sound source → bracket ≠ .curly →
      StateDiagram.Braced cursor.rest next.rest node.outerLambdas
  | .named _ _ cursor node next =>
    cursor.Sound source → StateDiagram.Braced cursor.rest next.rest node.outerLambdas
  | .suffixes node cursor result next =>
    cursor.Sound source → ∃ behind, result.outerLambdas = node.outerLambdas ++ behind ∧
      StateDiagram.Braced cursor.rest next.rest behind
  | .callArguments cursor nodes next =>
    cursor.Sound source →
      StateDiagram.Braced cursor.rest next.rest ((nodes.getD []).flatMap Node.outerLambdas)
  | .trailingLambda cursor node next =>
    cursor.Sound source →
      StateDiagram.Braced cursor.rest next.rest (node.toList.flatMap Node.outerLambdas)
  | .valueArguments cursor nodes next | .items _ _ cursor nodes next =>
    cursor.Sound source →
      StateDiagram.Braced cursor.rest next.rest (nodes.flatMap Node.outerLambdas)
  | .groupItems bracket cursor nodes next =>
    cursor.Sound source → bracket ≠ .curly →
      StateDiagram.Braced cursor.rest next.rest (nodes.flatMap Node.outerLambdas)
  | .statements close cursor nodes next =>
    cursor.Sound source →
      (close = some .curly →
        StateDiagram.Braced cursor.rest next.rest (nodes.flatMap Node.outerLambdas)) ∧
      (close = none → Strayed cursor.rest nodes)

namespace Phrase.Braced

variable {source : Source} {token : Token} {rest : List Token} {cursor mid next : Cursor}
  {node group : Outline} {items nodes : List Outline}

theorem member {found : Member} (hm : memberAhead? cursor = some found)
    (hl : found.next.Leads mid)
    (hn : (named found.text found.span found.next selector mid).Braced source)
    (hs : (suffixes (.memberAccess ⟨node.info.start, selector.info.stop⟩ node selector found.safe)
      mid result next).Braced source) :
    (suffixes node cursor result next).Braced source := by
  intro hc
  obtain ⟨breaks, dot, name, rest, ha⟩ := exists_of_memberAhead? hm
  have hmember := hc.leads ha.leads
  obtain ⟨behind, he, hb⟩ := hs (hmember.leads hl)
  have hread := (hn hmember).append hb
  rw [ha.next_eq] at hread
  refine ⟨_, ?_, .member ha hread⟩
  rw [he, Node.outerLambdas_of_inner rfl]
  simp [Node.children]

theorem index (hr : cursor.rest = token :: rest) (ht : token.lexeme = .opening .square)
    (hl : (Cursor.past token rest).Leads mid)
    (hg : (Phrase.group .square token (.past token rest) group mid).Braced source)
    (hs : (suffixes (.sequence ⟨node.info.start, group.info.stop⟩ [node, group]) mid result
      next).Braced source) :
    (suffixes node cursor result next).Braced source := by
  intro hc
  have hbehind := hc.leads (.head hr)
  obtain ⟨behind, he, hb⟩ := hs (hbehind.leads hl)
  refine ⟨_, ?_, .ahead hr (by rw [ht]; rfl) ((hg hbehind (by decide)).append hb)⟩
  rw [he, Node.outerLambdas_of_inner rfl]
  simp [Node.children]

theorem call {span : Span} (ht : readTypeArguments cursor = (types, behindTypes))
    (hl : behindTypes.Leads behindArguments)
    (ha : (callArguments behindTypes arguments behindArguments).Braced source)
    (hb : (trailingLambda behindArguments trailing next).Braced source) :
    (named text span cursor (.call ⟨span.start, next.previousEnd⟩
      (.identifier span (bareName text)) types (arguments.getD []) trailing) next).Braced
        source := by
  intro hc
  have htypes := hc.leads (readTypeArguments_leads ht)
  have hread := ((StateDiagram.Braced.typeArguments ht).append (ha htypes)).append
    (hb (htypes.leads hl))
  rw [Node.outerLambdas_of_inner rfl, Node.children, List.flatMap_cons,
    Node.outerLambdas_of_inner rfl, List.flatMap_append, List.flatMap_append]
  exact hread

theorem argument (hl : (readArgumentName cursor).2.Leads mid)
    (hi : (Phrase.items .argument false (readArgumentName cursor).2 items mid).Braced source)
    (ha : (valueArguments mid arguments next).Braced source) :
    (valueArguments cursor (((collapse items).map
      (argumentOutline token (readArgumentName cursor).1)).toList ++ arguments) next).Braced
        source := by
  intro hc
  have hname := hc.leads (readArgumentName_leads cursor)
  have hb := (hi hname).append (ha (hname.leads hl))
  rw [List.flatMap_append, Node.outerLambdas_argumentOutline, Node.outerLambdas_collapse]
  exact (StateDiagram.Braced.argumentName cursor).append hb

theorem statementsSkip (hr : cursor.rest = token :: rest) (ht : token.lexeme.isCurly = false)
    (hs : (statements close (.past token rest) nodes next).Braced source) :
    (statements close cursor nodes next).Braced source := by
  intro hc
  obtain ⟨hclosed, hopen⟩ := hs (hc.leads (.head hr))
  refine ⟨fun h => .ahead hr ht (hclosed h), fun h => ?_⟩
  rw [hr]
  exact (hopen h).skip ht

/-- A closing bracket among statements that is not the one that ends them. -/
theorem stray (hr : cursor.rest = token :: rest) (ht : token.lexeme = .closing bracket)
    (hne : close ≠ some bracket)
    (hs : (statements close (.past token rest) nodes next).Braced source) :
    (statements close cursor (.token token.span :: nodes) next).Braced source := by
  intro hc
  obtain ⟨hclosed, hopen⟩ := hs (hc.leads (.head hr))
  constructor
  · intro h
    rw [List.flatMap_cons, Node.outerLambdas_of_inner rfl]
    apply StateDiagram.Braced.ahead hr (ht ▸ Lexeme.isCurly_closing _) (hclosed h)
    rintro rfl
    exact hne h
  · intro h
    rw [hr]
    exact (hopen h).closing ht

theorem statement (hl : cursor.Leads mid)
    (hi : (Phrase.items .statement false cursor items mid).Braced source)
    (hs : (statements close mid nodes next).Braced source) :
    (statements close cursor ((collapse items).toList ++ nodes) next).Braced source := by
  intro hc
  obtain ⟨hclosed, hopen⟩ := hs (hc.leads hl)
  have hitems := hi hc
  rw [← Node.outerLambdas_collapse] at hitems
  refine ⟨fun h => ?_, fun h => .append hitems (hopen h)⟩
  rw [List.flatMap_append]
  exact hitems.append (hclosed h)

end Phrase.Braced

theorem Derives.braced (h : Derives source n phrase) : phrase.Braced source := by
  induction h with
  | expression hp _ ihp ihs =>
    intro hc ht
    obtain ⟨behind, he, hs⟩ := ihs (hc.leads hp.leads)
    rw [he]
    exact (ihp hc ht).append hs
  | name ht _ ih =>
    intro hc _
    exact .plain (by rw [ht]; rfl) (ih hc)
  | braces ht _ ih =>
    intro hc _
    exact ih hc ht
  | brackets ht hb _ ih =>
    intro hc _
    exact .plain (ht ▸ Lexeme.isCurly_opening hb) (ih hc hb)
  | string ht =>
    intro _ _
    rw [Node.outerLambdas_of_inner rfl]
    exact .plain (by rw [ht]; rfl) (.nil _)
  | literal ht =>
    intro _ _
    rw [Node.outerLambdas_of_inner rfl]
    exact .plain (Lexeme.isCurly_of_not_isBracket (Lexeme.isBracket_of_isLiteral ht)) (.nil _)
  | symbol ht =>
    intro _ hc
    rw [Node.outerLambdas_of_inner rfl]
    exact .plain (Lexeme.isCurly_of_not_isBracket (Lexeme.isBracket_of_isSymbol ht hc)) (.nil _)
  | noSuffix => exact fun _ => ⟨[], (List.append_nil _).symm, .nil _⟩
  | member hm hn _ ihn ihs => exact .member hm hn.leads ihn ihs
  | index _ hr ht _ hg _ ihg ihs => exact .index hr ht hg.leads ihg ihs
  | identifier ht ha _ iha ihl =>
    intro hc
    have htypes := hc.leads (readTypeArguments_leads ht)
    rw [Node.outerLambdas_of_inner rfl]
    exact (Braced.typeArguments ht).append ((iha htypes).append (ihl (htypes.leads ha.leads)))
  | call ht ha _ _ iha ihl => exact .call ht ha.leads iha ihl
  | noArguments | noLambda | argumentsEnd | itemsEnd | itemsStop | itemsBreak =>
    exact fun _ => .nil _
  | groupEnd => exact fun _ _ => .nil _
  | statementsEnd hr =>
    intro _
    refine ⟨fun _ => .nil _, fun _ => .last ?_⟩
    rw [hr]
    exact .nil _
  | statementsClose _ _ hc =>
    intro _
    refine ⟨fun _ => .nil _, fun hn => ?_⟩
    rw [hc] at hn
    cases hn
  | arguments hr ht _ ih | itemsContinue hr ht _ _ ih =>
    intro hc
    exact .ahead hr (by rw [ht]; rfl) (ih (hc.leads (.head hr)))
  | groupSkip hr ht _ ih =>
    intro hc hb
    exact .ahead hr (by rw [ht]; rfl) (ih (hc.leads (.head hr)) hb)
  | argumentsSkip hr ht _ ih =>
    intro hc
    have hb := Lexeme.isBracket_of_skipped .argument ht
    exact .ahead hr (Lexeme.isCurly_of_not_isBracket hb) (ih (hc.leads (.head hr)))
  | statementsSkip hr ht _ ih =>
    have hb := Lexeme.isBracket_of_skipped .statement ht
    exact .statementsSkip hr (Lexeme.isCurly_of_not_isBracket hb) ih
  | trailing hr ht _ ih =>
    intro hc
    have hb := ih (hc.leads (.head hr)) ht
    rw [Cursor.past, ← hr] at hb
    rwa [Option.toList_some, List.flatMap_singleton]
  | argumentsClose hr ht =>
    intro _
    exact .closing hr ht _ (fun h => h ▸ by decide)
  | groupClose hr ht =>
    intro _ hb
    exact .closing hr ht _ (fun h => h ▸ hb)
  | argument _ _ hi _ ihi iha => exact .argument hi.leads ihi iha
  | item hr ht he _ ihe ihi =>
    intro hc
    have hpast := hc.leads (.head hr)
    have hb := (ihe hpast ht.2.2).append (ihi (hpast.leads he.leads))
    rwa [Cursor.past, ← hr] at hb
  | groupItem hr _ ht he _ ihe ihi =>
    intro hc hb
    have hpast := hc.leads (.head hr)
    have hb := (ihe hpast ht).append (ihi (hpast.leads he.leads) hb)
    rwa [Cursor.past, ← hr] at hb
  | stray hr ht hne _ ih => exact .stray hr ht hne ih
  | statement _ _ hi _ ihi ihs => exact .statement hi.leads ihi ihs
  | lambda hp hs ih =>
    intro hc ht
    rw [Node.outerLambdas_of_lambda rfl]
    exact .lambda ht hc hp hs ((ih (hc.leads (readParameters_leads hp))).1 rfl)
  | group _ ih =>
    intro hc hb
    rw [Node.outerLambdas_of_inner rfl]
    exact ih hc hb

namespace Node

theorem lambdas_map (f : α → β) (node : Node α) :
    (node.map f).lambdas = node.lambdas.map (map f) := by
  rw [lambdas, lambdas, preorder_map, List.filter_map]
  congr 1
  exact List.filter_congr fun node _ => isLambda_map f node

theorem lambdasBelow_map (f : α → β) (node : Node α) :
    (node.map f).lambdasBelow = node.lambdasBelow.map (map f) := by
  rw [lambdasBelow, lambdasBelow, children_map, List.flatMap_map, List.map_flatMap]
  exact List.flatMap_congr fun child _ => lambdas_map f child

theorem lambdasBelow_subset {tree outer : Node α} (h : outer ∈ tree.preorder) :
    outer.lambdasBelow ⊆ tree.lambdas := by
  intro inner hm
  obtain ⟨child, hc, hm⟩ := List.mem_flatMap.1 hm
  obtain ⟨hm, hl⟩ := List.mem_filter.1 hm
  have ho : inner ∈ outer.preorder := mem_preorder.2 (.inr ⟨child, hc, hm⟩)
  exact List.mem_filter.2 ⟨mem_preorder_trans h ho, hl⟩

end Node

namespace Token

variable {brace : Token} {behind : List Token}

theorem Opens.map {f : α → β} {span : β → Span} {lambda : Node α}
    (h : brace.Opens (span ∘ f) behind lambda) : brace.Opens span behind (lambda.map f) := by
  constructor
  · rw [Node.isLambda_map]
    exact h.isLambda
  · rw [Node.info_map]
    exact h.start_eq
  · rw [Node.info_map]
    exact h.closed
  · rw [Node.info_map]
    exact h.unclosed
  · rw [← h.below, Node.lambdasBelow_map, List.map_map]
    exact List.map_congr_left fun inner _ => by rw [Function.comp_apply, Node.info_map]; rfl

theorem marks_lambda {span : α → Span} {lambda : Node α} (hb : brace.lexeme = .opening .curly)
    (hl : lambda.isLambda = true) :
    brace.marks span lambda = true ↔ (span lambda.info).start = brace.span.start := by
  cases lambda with
  | lambda => simp [marks, hb, Lexeme.marks, Node.isLambda, Node.info]
  | _ => cases hl

theorem enclosed_subset (depth : Nat) (tokens : List Token) : enclosed depth tokens ⊆ tokens := by
  induction tokens generalizing depth with
  | nil => exact List.Subset.refl []
  | cons token rest ih =>
    rw [enclosed.eq_def]
    dsimp only
    split
    · exact List.cons_subset_cons _ (ih _)
    · split
      · split
        · exact List.nil_subset _
        · exact List.cons_subset_cons _ (ih _)
      · exact List.cons_subset_cons _ (ih _)

theorem Ordered.eq_of_start {tokens : List Token} {first second : Token} (h : Ordered tokens)
    (hf : first ∈ tokens) (hs : second ∈ tokens) (he : first.span.start = second.span.start) :
    first = second :=
  List.inj_on_of_nodup_map (h.starts.imp Nat.ne_of_lt) hf hs he

end Token

/-- One lambda starts at each opening brace of the tokens, and it is what this brace opens. -/
def Node.Opened (span : α → Span) (tokens : List Token) (tree : Node α) : Prop :=
  ∀ brace behind, brace :: behind <:+ tokens → brace.lexeme = .opening .curly →
    ∃ lambda, tree.preorder.filter (brace.marks span) = [lambda] ∧ brace.Opens span behind lambda

namespace Node.Opened

variable {span : α → Span} {tree outer inner : Node α} {tokens behind : List Token}
  {brace other : Token}

theorem eq_of_marks (h : tree.Opened span tokens) (hb : brace ∈ tokens)
    (hc : brace.lexeme = .opening .curly) (ho : outer ∈ tree.lambdas) (hi : inner ∈ tree.lambdas)
    (hom : brace.marks span outer = true) (him : brace.marks span inner = true) :
    outer = inner := by
  obtain ⟨front, behind, hs⟩ := List.append_of_mem hb
  obtain ⟨lambda, hl, _⟩ := h brace behind ⟨front, hs.symm⟩ hc
  have mem {node : Node α} (hn : node ∈ tree.lambdas) (hm : brace.marks span node = true) :
      node = lambda := by
    rw [← List.mem_singleton, ← hl]
    exact List.mem_filter.2 ⟨(List.mem_filter.1 hn).1, hm⟩
  rw [mem ho hom, mem hi him]

theorem opens (h : tree.Opened span tokens) (hb : brace :: behind <:+ tokens)
    (hc : brace.lexeme = .opening .curly) (ho : outer ∈ tree.lambdas)
    (hm : brace.marks span outer = true) : brace.Opens span behind outer := by
  obtain ⟨lambda, hl, hopens⟩ := h brace behind hb hc
  have hmem : outer ∈ tree.preorder.filter (brace.marks span) :=
    List.mem_filter.2 ⟨(List.mem_filter.1 ho).1, hm⟩
  rw [hl, List.mem_singleton] at hmem
  rwa [hmem]

theorem mem_lambdasBelow_iff (h : tree.Opened span tokens) (hord : Token.Ordered tokens)
    (hb : brace :: behind <:+ tokens) (hc : brace.lexeme = .opening .curly)
    (ho : outer ∈ tree.lambdas) (hm : brace.marks span outer = true) (hother : other ∈ tokens)
    (hoc : other.lexeme = .opening .curly) (hi : inner ∈ tree.lambdas)
    (him : other.marks span inner = true) :
    inner ∈ outer.lambdasBelow ↔ other ∈ enclosed 0 behind := by
  have hbelow := (h.opens hb hc ho hm).below
  have hstart := (marks_lambda hoc (List.mem_filter.1 hi).2).1 him
  constructor
  · intro hmem
    have hs := List.mem_map_of_mem (f := fun inner : Node α => (span inner.info).start) hmem
    rw [hbelow, braceStarts] at hs
    obtain ⟨token, ht, he⟩ := List.mem_map.1 hs
    have hin := (List.mem_filter.1 ht).1
    have htokens := hb.subset (List.mem_cons_of_mem _ (enclosed_subset 0 behind hin))
    rwa [hord.eq_of_start hother htokens (hstart.symm.trans he.symm)]
  · intro hmem
    have hs : other.span.start ∈ braceStarts (enclosed 0 behind) :=
      List.mem_map_of_mem (List.mem_filter.2 ⟨hmem, decide_eq_true hoc⟩)
    rw [← hbelow] at hs
    obtain ⟨found, hf, he⟩ := List.mem_map.1 hs
    have hfound := Node.lambdasBelow_subset (List.mem_filter.1 ho).1 hf
    have hmarks := (marks_lambda hoc (List.mem_filter.1 hfound).2).2 he
    rwa [h.eq_of_marks hother hoc hi hfound him hmarks]

end Node.Opened

/-- The lambdas of the tree are the pairs of braces of the tokens. -/
structure Node.MatchesBraces (span : α → Span) (tokens : List Token) (tree : Node α) : Prop where
  opened : tree.Opened span tokens
  /-- There are no other lambdas. -/
  exists_brace : ∀ lambda ∈ tree.lambdas,
    ∃ brace ∈ tokens, brace.lexeme = .opening .curly ∧ brace.marks span lambda = true
  /-- One lambda is below another if and only if its brace is among those that the other
  encloses. -/
  nested : ∀ brace behind, brace :: behind <:+ tokens → brace.lexeme = .opening .curly →
    ∀ outer ∈ tree.lambdas, brace.marks span outer = true →
    ∀ other ∈ tokens, other.lexeme = .opening .curly →
    ∀ inner ∈ tree.lambdas, other.marks span inner = true →
    (inner ∈ outer.lambdasBelow ↔ other ∈ enclosed 0 behind)
  /-- A closing brace without an opening one is a statement of its own. -/
  stray : ∀ close ∈ tokens, close.lexeme = .closing .curly →
    (∀ brace behind, brace :: behind <:+ tokens → brace.lexeme = .opening .curly →
      closingBrace? 0 behind ≠ some close) →
    ∃ info, .token info ∈ tree.children ∧ span info = close.span

namespace Source

variable {source : Source} {outline : Outline}

theorem tallies_of_outline? (h : source.outline? limit = some outline) :
    (outline.map source.locate).Tallies Place.span source.tokens := by
  obtain ⟨nodes, ⟨last, rest⟩, rfl, hd⟩ := outline?_eq_some_iff.1 h
  rcases hd.statements_stop with hr | ⟨_, _, _, _, _, hc⟩
  · subst hr
    have ha : Accounts source.tokens [] (Node.file ⟨0, source.size⟩ nodes).marks := by
      rw [Node.marks_of_inner rfl]
      exact hd.accounted
    exact Node.Tallies.map (ha.tallies source.ordered_tokens)
  · cases hc

theorem opened_of_outline? (h : source.outline? limit = some outline) :
    (outline.map source.locate).Opened Place.span source.tokens := by
  have htallies := tallies_of_outline? h
  obtain ⟨nodes, next, rfl, hd⟩ := outline?_eq_some_iff.1 h
  have hs : Strayed source.tokens nodes := (hd.braced source.sound_tokens).2 rfl
  intro brace behind hb hc
  obtain ⟨lambda, hl, hopens⟩ := hs.exists_lambda hb hc
  have hopens : brace.Opens (Place.span ∘ source.locate) behind lambda := hopens
  have hopens := hopens.map
  have hm := (marks_lambda hc hopens.isLambda).2 hopens.start_eq
  obtain ⟨node, hn⟩ := htallies.marked brace (hb.subset List.mem_cons_self) (by rw [hc]; rfl)
  have hmem : lambda.map source.locate ∈ ((Node.file ⟨0, source.size⟩ nodes).map
      source.locate).preorder.filter (brace.marks Place.span) := by
    obtain ⟨child, hchild, hl⟩ := List.mem_flatMap.1 hl
    have hfile : lambda ∈ (Node.file ⟨0, source.size⟩ nodes).preorder :=
      Node.mem_preorder.2 (.inr ⟨child, hchild, (List.mem_filter.1 hl).1⟩)
    rw [Node.preorder_map]
    exact List.mem_filter.2 ⟨List.mem_map_of_mem hfile, hm⟩
  rw [hn, List.mem_singleton] at hmem
  exact ⟨node, hn, hmem ▸ hopens⟩

theorem exists_brace_of_outline? (h : source.outline? limit = some outline) {lambda : SyntaxTree}
    (hl : lambda ∈ (outline.map source.locate).lambdas) : ∃ brace ∈ source.tokens,
      brace.lexeme = .opening .curly ∧ brace.marks Place.span lambda = true := by
  rw [Node.lambdas_map] at hl
  obtain ⟨inner, hi, rfl⟩ := List.mem_map.1 hl
  obtain ⟨hi, hlambda⟩ := List.mem_filter.1 hi
  cases inner with
  | lambda =>
    obtain ⟨brace, hb, hm⟩ := exists_mark h hi rfl rfl
    refine ⟨brace, hb, ?_, ?_⟩
    · obtain ⟨hm, _⟩ := Bool.and_eq_true_iff.1 hm
      cases hx : brace.lexeme with
      | opening bracket => cases bracket <;> first | rfl | (rw [hx] at hm; cases hm)
      | _ => rw [hx] at hm; cases hm
    · rw [Node.marks_map]
      exact hm
  | _ => cases hlambda

theorem stray_of_outline? (h : source.outline? limit = some outline) {close : Token}
    (hm : close ∈ source.tokens) (hc : close.lexeme = .closing .curly)
    (hn : ∀ brace behind, brace :: behind <:+ source.tokens →
      brace.lexeme = .opening .curly → closingBrace? 0 behind ≠ some close) :
    ∃ info, .token info ∈ (outline.map source.locate).children ∧ info.span = close.span := by
  obtain ⟨nodes, next, rfl, hd⟩ := outline?_eq_some_iff.1 h
  have hs : Strayed source.tokens nodes := (hd.braced source.sound_tokens).2 rfl
  obtain ⟨front, later, hsplit⟩ := List.append_of_mem hm
  rcases hs.exists_brace ⟨front, hsplit.symm⟩ hc with ⟨brace, inside, hb, ho, hclose⟩ | hmem
  · exact (hn brace inside hb ho hclose).elim
  · refine ⟨source.locate close.span, ?_, rfl⟩
    rw [Node.children_map]
    exact List.mem_map.2 ⟨_, hmem, by rw [Node.map]⟩

end Source

/-- The lambdas of a tree are the pairs of braces of its text, nested as the pairs are, and a
closing brace without an opening one is a statement of its own. -/
theorem matchesBraces_of_parse {limit : Nat} {text : String} {tree : SyntaxTree}
    (h : SyntaxTree.parse limit text = .ok tree) :
    tree.MatchesBraces Place.span (Source.ofString text).tokens := by
  obtain ⟨outline, ho, rfl⟩ := Source.parse_eq_ok_iff.1 h
  have hopened := Source.opened_of_outline? ho
  constructor
  · exact hopened
  · intro lambda hl
    exact Source.exists_brace_of_outline? ho hl
  · intro brace behind hb hc outer houter hm other hother hoc inner hi him
    exact hopened.mem_lambdasBelow_iff (Source.ordered_tokens _) hb hc houter hm hother hoc hi him
  · intro close hm hc hn
    exact Source.stray_of_outline? ho hm hc hn

/-- The closing brace is found behind a bracket left open and one of the wrong kind, the brace
behind it closes nothing, and the last two are never closed. -/
theorem matchesBraces_of_parse_unbalanced : ∃ tree,
    SyntaxTree.parse 256 "f(\x7b [ ) \x7d \x7d g \x7b ( \x7b" = .ok tree ∧
      tree.MatchesBraces Place.span
        (Source.ofString "f(\x7b [ ) \x7d \x7d g \x7b ( \x7b").tokens := by
  have hp : (SyntaxTree.parse 256 "f(\x7b [ ) \x7d \x7d g \x7b ( \x7b").isOk = true := by
    decide +kernel
  cases h : SyntaxTree.parse 256 "f(\x7b [ ) \x7d \x7d g \x7b ( \x7b" with
  | ok tree => exact ⟨tree, rfl, matchesBraces_of_parse h⟩
  | error => rw [h] at hp; cases hp

end StateDiagram
