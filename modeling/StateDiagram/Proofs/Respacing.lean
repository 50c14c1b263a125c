import StateDiagram.Proofs.Likeness
import StateDiagram.Proofs.Reading

namespace StateDiagram

set_option autoImplicit true

variable {source other : Source} {n : Nat}

/-- From alike tokens the other source derives a phrase of the same shape. -/
def Phrase.Imitated (other : Source) (n : Nat) : Phrase → Prop
  | .expression token cursor node next => ∀ twin behind, twin.lexeme = token.lexeme →
      cursor.Alike behind → ∃ result stop, Node.shape result = node.shape ∧ next.Alike stop ∧
        Derives other n (.expression twin behind result stop)
  | .primary token cursor node next => ∀ twin behind, twin.lexeme = token.lexeme →
      cursor.Alike behind → ∃ result stop, Node.shape result = node.shape ∧ next.Alike stop ∧
        Derives other n (.primary twin behind result stop)
  | .suffixes node cursor result next => ∀ twin behind, Node.shape twin = node.shape →
      cursor.Alike behind → ∃ whole stop, Node.shape whole = result.shape ∧ next.Alike stop ∧
        Derives other n (.suffixes twin behind whole stop)
  | .named text _ cursor node next => ∀ span behind, cursor.Alike behind →
      ∃ result stop, Node.shape result = node.shape ∧ next.Alike stop ∧
        Derives other n (.named text span behind result stop)
  | .callArguments cursor nodes next => ∀ behind, cursor.Alike behind →
      ∃ results stop, Option.map (List.map Node.shape) results =
          nodes.map (List.map Node.shape) ∧ next.Alike stop ∧
        Derives other n (.callArguments behind results stop)
  | .trailingLambda cursor node next => ∀ behind, cursor.Alike behind →
      ∃ result stop, Option.map Node.shape result = node.map Node.shape ∧ next.Alike stop ∧
        Derives other n (.trailingLambda behind result stop)
  | .valueArguments cursor nodes next => ∀ behind, cursor.Alike behind →
      ∃ results stop, List.map Node.shape results = nodes.map Node.shape ∧ next.Alike stop ∧
        Derives other n (.valueArguments behind results stop)
  | .items setting carried cursor nodes next => ∀ behind, cursor.Alike behind →
      ∃ results stop, List.map Node.shape results = nodes.map Node.shape ∧ next.Alike stop ∧
        Derives other n (.items setting carried behind results stop)
  | .statements close cursor nodes next => ∀ behind, cursor.Alike behind →
      ∃ results stop, List.map Node.shape results = nodes.map Node.shape ∧ next.Alike stop ∧
        Derives other n (.statements close behind results stop)
  | .lambda _ cursor node next => ∀ twin behind, cursor.Alike behind →
      ∃ result stop, Node.shape result = node.shape ∧ next.Alike stop ∧
        Derives other n (.lambda twin behind result stop)
  | .group bracket _ cursor node next => ∀ twin behind, cursor.Alike behind →
      ∃ result stop, Node.shape result = node.shape ∧ next.Alike stop ∧
        Derives other n (.group bracket twin behind result stop)
  | .groupItems bracket cursor nodes next => ∀ behind, cursor.Alike behind →
      ∃ results stop, List.map Node.shape results = nodes.map Node.shape ∧ next.Alike stop ∧
        Derives other n (.groupItems bracket behind results stop)

theorem shape_argumentOutline {expressions twins : Option Outline}
    (h : twins.map Node.shape = expressions.map Node.shape) {token twin : Token}
    {name : Option String} :
    (twins.map (argumentOutline twin name)).toList.map Node.shape =
      (expressions.map (argumentOutline token name)).toList.map Node.shape := by
  cases expressions with
  | none =>
    obtain rfl := Option.map_eq_none_iff.1 h
    rfl
  | some expression =>
    obtain ⟨other, rfl, he⟩ := Option.map_eq_some_iff.1 h
    simp [argumentOutline, he]

theorem map_getD_congr {f : α → β} {values others : Option (List α)}
    (h : others.map (List.map f) = values.map (List.map f)) :
    (others.getD []).map f = (values.getD []).map f := by
  cases values with
  | none =>
    obtain rfl := Option.map_eq_none_iff.1 h
    rfl
  | some values =>
    obtain ⟨other, rfl, he⟩ := Option.map_eq_some_iff.1 h
    exact he

theorem map_toList_congr {f : α → β} {value other : Option α}
    (h : other.map f = value.map f) : other.toList.map f = value.toList.map f := by
  rw [← Option.toList_map, h, Option.toList_map]

theorem Cursor.Alike.ite {cursor behind next stop : Cursor} (p : Prop) [Decidable p]
    (h : cursor.Alike behind) (hn : next.Alike stop) :
    (if p then cursor else next).Alike (if p then behind else stop) := by
  split
  · exact h
  · exact hn

namespace Phrase.Imitated

variable {token : Token} {rest : List Token} {cursor mid next : Cursor} {node group : Outline}
  {items nodes : List Outline}

theorem member {found : Member} (hm : memberAhead? cursor = some found)
    (hn : (named found.text found.span found.next selector mid).Imitated other n)
    (hs : (suffixes (.memberAccess ⟨node.info.start, selector.info.stop⟩ node selector found.safe)
      mid result next).Imitated other n) :
    (suffixes node cursor result next).Imitated other n := by
  intro twin behind hnode ha
  obtain ⟨ahead, hahead, hsafe, htext, hnext⟩ := ha.exists_memberAhead hm
  obtain ⟨selector, mid, hs', hmid, hd⟩ := hn ahead.span ahead.next hnext
  rw [← htext] at hd
  obtain ⟨result, stop, hr, hstop, hds⟩ := hs
    (.memberAccess ⟨twin.info.start, selector.info.stop⟩ twin selector ahead.safe) mid
    (by simp [hnode, hs', hsafe]) hmid
  exact ⟨result, stop, hr, hstop, .member hahead hd hds⟩

theorem index (hm : memberAhead? cursor = none) (hr : cursor.rest = token :: rest)
    (ht : token.lexeme = .opening .square) (hadj : token.span.start = cursor.previousEnd)
    (hg : (Phrase.group .square token (.past token rest) group mid).Imitated other n)
    (hs : (suffixes (.sequence ⟨node.info.start, group.info.stop⟩ [node, group]) mid result
      next).Imitated other n) :
    (suffixes node cursor result next).Imitated other n := by
  intro twin behind hnode ha
  have hahead := ha.memberAhead_none hm
  obtain ⟨bracket, more, hr', hl, htouch, hrest⟩ := ha.rest_cons hr
  obtain ⟨group, mid, hgroup, hmid, hdg⟩ := hg bracket _ hrest
  obtain ⟨result, stop, hresult, hstop, hd⟩ := hs
    (.sequence ⟨twin.info.start, group.info.stop⟩ [twin, group]) mid
    (by simp [hnode, hgroup]) hmid
  exact ⟨result, stop, hresult, hstop, .index hahead hr' (hl.trans ht) (htouch.1 hadj) hdg hd⟩

theorem identifier (ht : readTypeArguments cursor = ([], behindTypes))
    (ha : (callArguments behindTypes none behindArguments).Imitated other n)
    (hl : (trailingLambda behindArguments none next).Imitated other n) :
    (named text span cursor (.identifier span (bareName text)) next).Imitated other n := by
  intro span behind halike
  obtain ⟨types, behindTypes, hread, htypes, hbehind⟩ := halike.exists_readTypeArguments ht
  obtain rfl := List.map_eq_nil_iff.1 htypes
  obtain ⟨arguments, behindArguments, hv, hstop, hda⟩ := ha behindTypes hbehind
  obtain rfl := Option.map_eq_none_iff.1 hv
  obtain ⟨lambda, stop, hlambda, hnext, hdl⟩ := hl behindArguments hstop
  obtain rfl := Option.map_eq_none_iff.1 hlambda
  exact ⟨_, stop, by simp, hnext, .identifier hread hda hdl⟩

theorem call (ht : readTypeArguments cursor = (types, behindTypes))
    (ha : (callArguments behindTypes arguments behindArguments).Imitated other n)
    (hl : (trailingLambda behindArguments trailing next).Imitated other n)
    (hc : (types.isEmpty && arguments.isNone && trailing.isNone) = false) :
    (named text span cursor (.call ⟨span.start, next.previousEnd⟩
      (.identifier span (bareName text)) types (arguments.getD []) trailing) next).Imitated
        other n := by
  intro span behind halike
  obtain ⟨types, behindTypes, hread, htypes, hbehind⟩ := halike.exists_readTypeArguments ht
  obtain ⟨values, mid, hv, hmid, hda⟩ := ha behindTypes hbehind
  obtain ⟨trailing, stop, hlambda, hstop, hdl⟩ := hl mid hmid
  have hsame : (types.isEmpty && values.isNone && trailing.isNone) = false := by
    have htypes := congrArg List.isEmpty htypes
    have hv := congrArg Option.isNone hv
    have hlambda := congrArg Option.isNone hlambda
    simp only [List.isEmpty_map, Option.isNone_map] at htypes hv hlambda
    rw [htypes, hv, hlambda, hc]
  refine ⟨_, stop, ?_, hstop, .call hread hda hdl hsame⟩
  rw [Node.shape_call, Node.shape_call, hlambda, htypes, map_getD_congr hv, Node.shape, Node.shape]

theorem argument (hr : cursor.rest = token :: rest) (ht : Setting.argument.Starts token.lexeme)
    (hi : (Phrase.items .argument false (readArgumentName cursor).2 items mid).Imitated other n)
    (ha : (valueArguments mid arguments next).Imitated other n) :
    (valueArguments cursor (((collapse items).map
      (argumentOutline token (readArgumentName cursor).1)).toList ++ arguments) next).Imitated
        other n := by
  intro behind halike
  obtain ⟨twin, more, hr', hl, _, _⟩ := halike.rest_cons hr
  obtain ⟨hname, hbehind⟩ := halike.argumentName
  obtain ⟨results, mid, hitems, hmid, hdi⟩ := hi _ hbehind
  obtain ⟨values, stop, hv, hstop, hda⟩ := ha mid hmid
  refine ⟨_, stop, ?_, hstop, .argument hr' (hl ▸ ht) hdi hda⟩
  rw [List.map_append, List.map_append, hv, hname, shape_argumentOutline (collapse_shape hitems)]

theorem itemsContinue (hr : cursor.rest = token :: rest) (ht : token.lexeme = .lineBreak)
    (hs : (setting == .argument || carried || leadsOn rest) = true)
    (hi : (Phrase.items setting carried (.past token rest) nodes next).Imitated other n) :
    (Phrase.items setting carried cursor nodes next).Imitated other n := by
  intro behind ha
  obtain ⟨twin, more, hr', hl, _, hrest⟩ := ha.rest_cons hr
  have hleads := Alike.leadsOn hrest
  simp only [Cursor.past] at hleads
  obtain ⟨results, stop, hn, hstop, hd⟩ := hi _ hrest
  exact ⟨results, stop, hn, hstop, .itemsContinue hr' (hl.trans ht) (hleads ▸ hs) hd⟩

theorem item (hr : cursor.rest = token :: rest) (ht : setting.Starts token.lexeme)
    (he : (expression token (.past token rest) node mid).Imitated other n)
    (hi : (Phrase.items setting (node.isToken && token.lexeme.isCarrying) mid nodes next).Imitated
      other n) :
    (Phrase.items setting carried cursor (node :: nodes) next).Imitated other n := by
  intro behind ha
  obtain ⟨twin, more, hr', hl, _, hrest⟩ := ha.rest_cons hr
  obtain ⟨result, mid, hn, hmid, hde⟩ := he twin _ hl hrest
  obtain ⟨results, stop, hitems, hstop, hdi⟩ := hi mid hmid
  rw [← Node.isToken_shape, ← hn, Node.isToken_shape, ← hl] at hdi
  exact ⟨result :: results, stop, by rw [List.map_cons, List.map_cons, hn, hitems], hstop,
    .item hr' (hl ▸ ht) hde hdi⟩

theorem statement (hr : cursor.rest = token :: rest) (ht : Setting.statement.Starts token.lexeme)
    (hi : (Phrase.items .statement false cursor items mid).Imitated other n)
    (hs : (statements close mid nodes next).Imitated other n) :
    (statements close cursor ((collapse items).toList ++ nodes) next).Imitated other n := by
  intro behind ha
  obtain ⟨twin, more, hr', hl, _, _⟩ := ha.rest_cons hr
  obtain ⟨items, mid, hitems, hmid, hdi⟩ := hi behind ha
  obtain ⟨results, stop, hn, hstop, hds⟩ := hs mid hmid
  refine ⟨_, stop, ?_, hstop, .statement hr' (hl ▸ ht) hdi hds⟩
  rw [List.map_append, List.map_append, hn, map_toList_congr (collapse_shape hitems)]

theorem lambda (hp : readParameters source cursor = (parameters, mid))
    (hs : (statements (some .curly) mid body stop).Imitated other n) :
    (Phrase.lambda token cursor (lambdaOutline source token parameters body stop)
      (stop.skipClosing .curly)).Imitated other (n + 1) := by
  intro twin behind ha
  obtain ⟨hparameters, hbehind⟩ := ha.parameters source other
  rw [hp] at hparameters hbehind
  generalize hread : readParameters other behind = read at hparameters hbehind
  obtain ⟨names, mid⟩ := read
  obtain ⟨results, stop, hn, hstop, hd⟩ := hs mid hbehind
  refine ⟨_, _, ?_, hstop.skipClosing .curly, .lambda hread hd⟩
  simp only [lambdaOutline, Node.shape, hn, hparameters]

theorem groupItem (hr : cursor.rest = token :: rest) (ht : token.lexeme ≠ .lineBreak)
    (hc : token.lexeme.isClosing = false)
    (he : (expression token (.past token rest) node mid).Imitated other n)
    (hg : (groupItems bracket mid nodes next).Imitated other n) :
    (groupItems bracket cursor (node :: nodes) next).Imitated other n := by
  intro behind ha
  obtain ⟨twin, more, hr', hl, _, hrest⟩ := ha.rest_cons hr
  obtain ⟨result, mid, hn, hmid, hde⟩ := he twin _ hl hrest
  obtain ⟨results, stop, hitems, hstop, hdg⟩ := hg mid hmid
  exact ⟨result :: results, stop, by rw [List.map_cons, List.map_cons, hn, hitems], hstop,
    .groupItem hr' (hl ▸ ht) (hl ▸ hc) hde hdg⟩

end Phrase.Imitated

theorem Derives.imitated (other : Source) (h : Derives source n phrase) :
    phrase.Imitated other n := by
  induction h with
  | expression _ _ ihp ihs =>
    intro twin behind hl ha
    obtain ⟨node, mid, hn, hm, hp⟩ := ihp twin behind hl ha
    obtain ⟨result, stop, hr, hs, hd⟩ := ihs node mid hn hm
    exact ⟨result, stop, hr, hs, .expression hp hd⟩
  | name ht _ ih =>
    intro twin behind hl ha
    obtain ⟨node, stop, hn, hs, hd⟩ := ih twin.span behind ha
    exact ⟨node, stop, hn, hs, .name (hl.trans ht) hd⟩
  | braces ht _ ih =>
    intro twin behind hl ha
    obtain ⟨node, stop, hn, hs, hd⟩ := ih twin behind ha
    exact ⟨node, stop, hn, hs, .braces (hl.trans ht) hd⟩
  | brackets ht hb _ ih =>
    intro twin behind hl ha
    obtain ⟨node, stop, hn, hs, hd⟩ := ih twin behind ha
    exact ⟨node, stop, hn, hs, .brackets (hl.trans ht) hb hd⟩
  | string ht =>
    intro twin behind hl ha
    exact ⟨_, behind, by simp, ha, .string (hl.trans ht)⟩
  | literal ht =>
    intro twin behind hl ha
    exact ⟨_, behind, by simp, ha, .literal (hl ▸ ht)⟩
  | symbol ht =>
    intro twin behind hl ha
    exact ⟨_, behind, by simp, ha, .symbol (hl ▸ ht)⟩
  | noSuffix hm hi =>
    intro twin behind hn ha
    exact ⟨twin, behind, hn, ha, .noSuffix (ha.memberAhead_none hm) (mt ha.indexed_iff.2 hi)⟩
  | member hm _ _ ihn ihs => exact .member hm ihn ihs
  | index hm hr ht hadj _ _ ihg ihs => exact .index hm hr ht hadj ihg ihs
  | identifier ht _ _ iha ihl => exact .identifier ht iha ihl
  | call ht _ _ hc iha ihl => exact .call ht iha ihl hc
  | noArguments ho =>
    intro behind ha
    exact ⟨none, behind, rfl, ha, .noArguments (mt (ha.opens_iff _).2 ho)⟩
  | arguments hr ht _ ih =>
    intro behind ha
    obtain ⟨bracket, more, hr', hl, _, hrest⟩ := ha.rest_cons hr
    obtain ⟨values, stop, hv, hstop, hd⟩ := ih _ hrest
    exact ⟨some values, stop, congrArg some hv, hstop, .arguments hr' (hl.trans ht) hd⟩
  | noLambda ho =>
    intro behind ha
    exact ⟨none, behind, rfl, ha, .noLambda (mt (ha.opens_iff _).2 ho)⟩
  | trailing hr ht _ ih =>
    intro behind ha
    obtain ⟨brace, more, hr', hl, _, hrest⟩ := ha.rest_cons hr
    obtain ⟨lambda, stop, hn, hstop, hd⟩ := ih brace _ hrest
    exact ⟨some lambda, stop, congrArg some hn, hstop, .trailing hr' (hl.trans ht) hd⟩
  | argumentsEnd hr => exact fun behind ha => ⟨[], behind, rfl, ha, .argumentsEnd (ha.rest_nil hr)⟩
  | argumentsSkip hr ht _ ih =>
    intro behind ha
    obtain ⟨twin, more, hr', hl, _, hrest⟩ := ha.rest_cons hr
    obtain ⟨values, stop, hv, hstop, hd⟩ := ih _ hrest
    exact ⟨values, stop, hv, hstop, .argumentsSkip hr' (hl ▸ ht) hd⟩
  | argumentsClose hr ht =>
    intro behind ha
    obtain ⟨twin, more, hr', hl, _, hrest⟩ := ha.rest_cons hr
    exact ⟨[], _, rfl, .ite _ hrest ha, .argumentsClose hr' (hl.trans ht)⟩
  | argument hr ht _ _ ihi iha => exact .argument hr ht ihi iha
  | itemsEnd hr => exact fun behind ha => ⟨[], behind, rfl, ha, .itemsEnd (ha.rest_nil hr)⟩
  | itemsStop hr ht =>
    intro behind ha
    obtain ⟨twin, more, hr', hl, _, _⟩ := ha.rest_cons hr
    exact ⟨[], behind, rfl, ha, .itemsStop hr' (hl ▸ ht)⟩
  | itemsBreak hr ht hs =>
    intro behind ha
    obtain ⟨twin, more, hr', hl, _, hrest⟩ := ha.rest_cons hr
    have hleads := Alike.leadsOn hrest
    simp only [Cursor.past] at hleads
    exact ⟨[], behind, rfl, ha, .itemsBreak hr' (hl.trans ht) (hleads ▸ hs)⟩
  | itemsContinue hr ht hs _ ih => exact .itemsContinue hr ht hs ih
  | item hr ht _ _ ihe ihi => exact .item hr ht ihe ihi
  | statementsEnd hr =>
    exact fun behind ha => ⟨[], behind, rfl, ha, .statementsEnd (ha.rest_nil hr)⟩
  | statementsSkip hr ht _ ih =>
    intro behind ha
    obtain ⟨twin, more, hr', hl, _, hrest⟩ := ha.rest_cons hr
    obtain ⟨results, stop, hn, hstop, hd⟩ := ih _ hrest
    exact ⟨results, stop, hn, hstop, .statementsSkip hr' (hl ▸ ht) hd⟩
  | statementsClose hr ht hc =>
    intro behind ha
    obtain ⟨twin, more, hr', hl, _, _⟩ := ha.rest_cons hr
    exact ⟨[], behind, rfl, ha, .statementsClose hr' (hl.trans ht) hc⟩
  | stray hr ht hc _ ih =>
    intro behind ha
    obtain ⟨twin, more, hr', hl, _, hrest⟩ := ha.rest_cons hr
    obtain ⟨results, stop, hn, hstop, hd⟩ := ih _ hrest
    exact ⟨_, stop, by simp [hn], hstop, .stray hr' (hl.trans ht) hc hd⟩
  | statement hr ht _ _ ihi ihs => exact .statement hr ht ihi ihs
  | lambda hp _ ih => exact .lambda hp ih
  | group _ ih =>
    intro twin behind ha
    obtain ⟨results, stop, hn, hstop, hd⟩ := ih behind ha
    exact ⟨_, stop, by simp [hn], hstop, .group hd⟩
  | groupEnd hr => exact fun behind ha => ⟨[], behind, rfl, ha, .groupEnd (ha.rest_nil hr)⟩
  | groupSkip hr ht _ ih =>
    intro behind ha
    obtain ⟨twin, more, hr', hl, _, hrest⟩ := ha.rest_cons hr
    obtain ⟨results, stop, hn, hstop, hd⟩ := ih _ hrest
    exact ⟨results, stop, hn, hstop, .groupSkip hr' (hl.trans ht) hd⟩
  | groupClose hr ht =>
    intro behind ha
    obtain ⟨twin, more, hr', hl, _, hrest⟩ := ha.rest_cons hr
    exact ⟨[], _, rfl, .ite _ hrest ha, .groupClose hr' (hl.trans ht)⟩
  | groupItem hr ht hc _ _ ihe ihg => exact .groupItem hr ht hc ihe ihg

/-- For each token but the first, whether it touches the token in front of it. -/
def Token.touches : List Token → List Bool
  | first :: second :: rest =>
    (second.span.start == first.span.stop) :: touches (second :: rest)
  | _ => []

theorem Alike.of_touches {first twin : Token} {tokens twins : List Token}
    (hl : (first :: tokens).map Token.lexeme = (twin :: twins).map Token.lexeme)
    (ht : Token.touches (first :: tokens) = Token.touches (twin :: twins)) :
    Alike first.span.start (first :: tokens) twin.span.start (twin :: twins) := by
  have behind {tokens twins : List Token} {first twin : Token}
      (hl : tokens.map Token.lexeme = twins.map Token.lexeme)
      (ht : Token.touches (first :: tokens) = Token.touches (twin :: twins)) :
      Alike first.span.stop tokens twin.span.stop twins := by
    induction tokens generalizing first twin twins with
    | nil =>
      obtain rfl := List.map_eq_nil_iff.1 hl.symm
      exact .nil ..
    | cons second tokens ih =>
      obtain ⟨other, twins, rfl, hs, hrest⟩ := List.map_eq_cons_iff.1 hl.symm
      rw [Token.touches, Token.touches] at ht
      obtain ⟨htouch, ht⟩ := List.cons.inj ht
      refine .cons hs.symm ?_ (ih hrest.symm ht)
      rw [← beq_iff_eq, htouch, beq_iff_eq]
  rw [List.map_cons, List.map_cons] at hl
  obtain ⟨hfirst, hl⟩ := List.cons.inj hl
  exact .cons hfirst (iff_of_true rfl rfl) (behind hl ht)

theorem Derives.statements_prior
    (h : Derives source n (.statements close ⟨prior, tokens⟩ nodes next)) (less : Nat) :
    ∃ stop, Derives source n (.statements close ⟨less, tokens⟩ nodes stop) := by
  cases h with
  | statementsEnd hr => exact ⟨_, .statementsEnd hr⟩
  | statementsSkip hr ht hs => exact ⟨_, .statementsSkip hr ht hs⟩
  | statementsClose hr ht hc => exact ⟨_, .statementsClose hr ht hc⟩
  | stray hr ht hc hs => exact ⟨_, .stray hr ht hc hs⟩
  | statement hr ht hi hs =>
    cases hi with
    | itemsEnd he =>
      rw [hr] at he
      cases he
    | itemsStop hr' ht' =>
      rw [hr] at hr'
      cases hr'
      rcases ht' with ht' | ht'
      · rw [ht.2.2] at ht'
        cases ht'
      · exact (ht.2.1 ht').elim
    | itemsBreak hr' ht' | itemsContinue hr' ht' =>
      rw [hr] at hr'
      cases hr'
      exact (ht.1 ht').elim
    | item hr' ht' he hi => exact ⟨_, .statement hr ht (.item hr' ht' he hi) hs⟩

/-- A tree of one source has a twin of the same shape in the other one. -/
theorem Source.exists_outline?_shape {limit : Nat} {outline : Outline}
    (hl : source.tokens.map Token.lexeme = other.tokens.map Token.lexeme)
    (ht : Token.touches source.tokens = Token.touches other.tokens)
    (h : source.outline? limit = some outline) :
    ∃ twin, other.outline? limit = some twin ∧ twin.shape = outline.shape := by
  obtain ⟨nodes, next, rfl, hd⟩ := outline?_eq_some_iff.1 h
  have halike : ∃ start begin, Alike start source.tokens begin other.tokens := by
    generalize source.tokens = tokens at *
    generalize other.tokens = twins at *
    cases tokens with
    | nil =>
      obtain rfl := List.map_eq_nil_iff.1 hl.symm
      exact ⟨0, 0, .nil 0 0⟩
    | cons first tokens =>
      obtain ⟨twin, twins, rfl, _⟩ := List.map_eq_cons_iff.1 hl.symm
      exact ⟨_, _, .of_touches hl ht⟩
  obtain ⟨start, begin, ha⟩ := halike
  obtain ⟨stop, hd⟩ := hd.statements_prior start
  obtain ⟨results, stop, hn, _, hd⟩ := hd.imitated other ⟨begin, other.tokens⟩ ha
  obtain ⟨stop, hd⟩ := hd.statements_prior 0
  exact ⟨_, outline?_eq_some_iff.2 ⟨results, stop, rfl, hd⟩, by simp [hn]⟩

/-- Sources with the same lexemes, of which the same ones touch, nest too deep for the same limits,
and otherwise their trees have the same shape. -/
theorem parse_respaced (limit : Nat) {first second : String} (hf : '\r' ∉ first.toList)
    (hs : '\r' ∉ second.toList)
    (hl : (Token.tokenize first).map Token.lexeme = (Token.tokenize second).map Token.lexeme)
    (ht : Token.touches (Token.tokenize first) = Token.touches (Token.tokenize second)) :
    (SyntaxTree.parse limit first = .error (.nestingTooDeep limit) ∧
        SyntaxTree.parse limit second = .error (.nestingTooDeep limit)) ∨
      ∃ tree twin, SyntaxTree.parse limit first = .ok tree ∧
        SyntaxTree.parse limit second = .ok twin ∧ tree.shape = twin.shape := by
  have htokens {text : String} (hr : '\r' ∉ text.toList) :
      (Source.ofString text).tokens = Token.tokenize text := by
    rw [Source.tokens, Source.ofString, Text.normalizeLineEndings_of_not_mem hr, Token.tokenize]
  rw [← htokens hf, ← htokens hs] at hl ht
  rw [SyntaxTree.parse, SyntaxTree.parse, Source.parse, Source.parse]
  cases ho : (Source.ofString first).outline? limit with
  | none =>
    left
    cases hother : (Source.ofString second).outline? limit with
    | none => exact ⟨rfl, rfl⟩
    | some outline =>
      obtain ⟨twin, hw, _⟩ := Source.exists_outline?_shape hl.symm ht.symm hother
      rw [ho] at hw
      cases hw
  | some outline =>
    right
    obtain ⟨twin, hw, hshape⟩ := Source.exists_outline?_shape hl ht ho
    rw [hw]
    exact ⟨_, _, rfl, rfl, by rw [Node.shape_map, Node.shape_map, hshape]⟩

/-- The index stays right behind what it belongs to. -/
theorem parse_respaced_index : ∃ tree twin,
    SyntaxTree.parse 256 "f \x7b a, b -> x[1] \x7d" = .ok tree ∧
      SyntaxTree.parse 256 "  f /* g */ \x7b a, /* c */ b -> x[1]\t\x7d // d" = .ok twin ∧
        tree.shape = twin.shape := by
  have hp : (SyntaxTree.parse 256 "f \x7b a, b -> x[1] \x7d").isOk = true := by decide +kernel
  rcases @parse_respaced 256 "f \x7b a, b -> x[1] \x7d"
      "  f /* g */ \x7b a, /* c */ b -> x[1]\t\x7d // d" (by decide) (by decide)
      (by decide +kernel) (by decide +kernel) with ⟨he, _⟩ | h
  · rw [he] at hp
    cases hp
  · exact h

end StateDiagram
