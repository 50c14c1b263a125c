import StateDiagram.Proofs.Balance

namespace StateDiagram

set_option autoImplicit true

variable {source : Source}

theorem Member.Ahead.balances {cursor : Cursor} {member : Member}
    (h : member.Ahead cursor.rest breaks dot name rest) : cursor.Balances [] member.next := by
  rw [h.next_eq]
  exact .past (breaks ++ [dot]) h.passed_eq (Token.nest_plain h.isBracket_eq_false)
    (by rw [h.name_eq]; rfl)

theorem TypeList.balances {cursor : Cursor} (h : TypeList cursor opener inside close rest) :
    cursor.Balances [] (.past close rest) :=
  .past (opener :: inside) h.rest_eq (Token.nest_plain h.isBracket_eq_false)
    (by rw [h.close_eq]; rfl)

theorem balances_readTypeArguments {cursor next : Cursor} {types : List Outline}
    (h : readTypeArguments cursor = (types, next)) : cursor.Balances [] next := by
  cases typesRead h with
  | none => exact .refl
  | list hl => exact hl.balances

theorem exists_readArgumentName (cursor : Cursor) :
    ∃ front, cursor.rest = front ++ (readArgumentName cursor).2.rest ∧
      Token.nest [] front = true := by
  rcases readArgumentName_eq cursor with h | ⟨name, sign, rest, text, hr, hn, hg, h⟩
  · rw [h]
    exact ⟨[], rfl, rfl⟩
  · rw [h]
    refine ⟨[name, sign], hr, Token.nest_plain ?_⟩
    rw [List.forall_mem_cons, List.forall_mem_singleton, hn, hg]
    exact ⟨rfl, rfl⟩

/-- What a lambda runs of the tokens between its braces: all of them, or those behind the arrow of
its parameters. -/
inductive Runs : Option String → List Token → List Token → Prop where
  | all (inside : List Token) : Runs none inside inside
  | behind (hp : ∀ token ∈ list, token.lexeme.isParameter = true)
      (ha : arrow.lexeme = .operator "->") : Runs (some parameters) (list ++ arrow :: code) code

/-- The lambda is read up to the brace that closes the one in front of it. Its block reaches from
the first to the last token of code that it runs. -/
structure Node.Fills (lambda : Outline) (cursor : Cursor) (inside : List Token) (close : Token)
    (next : Cursor) : Prop where
  rest_eq : cursor.rest = inside ++ close :: next.rest
  nest : Token.nest [] inside = true
  close_eq : close.lexeme = .closing .curly
  previousEnd_eq : next.previousEnd = close.span.stop
  stop_eq : lambda.info.stop = close.span.stop
  block : ∃ parameters place nodes code offset,
    lambda = .lambda lambda.info parameters (.block place nodes) ∧ Runs parameters inside code ∧
      place = (Span.ofTokens? (Token.code code)).getD ⟨offset, offset⟩

theorem Node.Fills.balances {lambda : Outline} (h : lambda.Fills cursor inside close next) :
    cursor.Balances [.curly] next := by
  obtain ⟨previousEnd, rest⟩ := next
  obtain rfl : previousEnd = close.span.stop := h.previousEnd_eq
  refine .past inside h.rest_eq ?_ (by rw [h.close_eq]; rfl)
  rw [← List.nil_append [Bracket.curly], Token.nest_append h.nest]
  exact Token.nest_closing_cons h.close_eq

theorem Cursor.Poised.parameters {cursor mid : Cursor} {parameters : Option String}
    (h : cursor.Poised source (.curly :: outer))
    (hp : readParameters source cursor = (parameters, mid)) :
    ∃ n front, cursor.rest = front ++ mid.rest ∧
      mid.Poised source (List.replicate n .round ++ .curly :: outer) ∧
      ∀ taken, Token.nest (List.replicate n .round) taken = true →
        Token.nest [] (front ++ taken) = true ∧ Runs parameters (front ++ taken) taken := by
  cases parametersRead hp with
  | none => exact ⟨0, [], rfl, h, fun taken ht => ⟨ht, .all taken⟩⟩
  | @list inside arrow rest hl =>
    have hnest := h.nest
    rw [hl.rest_eq] at hnest
    obtain ⟨n, hn⟩ := nest_parameters (m := 0) hl.inside_eq hnest
    have harrow : arrow.lexeme.isBracket = false := by
      rw [hl.arrow_eq]
      rfl
    refine ⟨n, inside ++ [arrow], ?_, ⟨h.sound.leads (.past hl.rest_eq), ?_⟩, fun taken ht => ?_⟩
    · rw [hl.rest_eq, List.append_assoc]
      rfl
    · rw [Cursor.past, ← Token.nest_of_not_isBracket harrow, ← hn]
      exact hnest
    · rw [List.append_assoc, List.singleton_append]
      refine ⟨?_, .behind hl.inside_eq hl.arrow_eq⟩
      have hrun := hn [] (arrow :: taken)
      rw [Token.nest_of_not_isBracket harrow, List.append_nil, List.append_nil, ht] at hrun
      exact hrun

theorem Trims.span_eq {nodes : List Outline} (h : Trims tokens nodes) (offset : Nat) :
    Span.mk ((nodes.head?.map (·.info.start)).getD offset)
      ((nodes.getLast?.map (·.info.stop)).getD ((nodes.head?.map (·.info.start)).getD offset)) =
        (Span.ofTokens? (Token.code tokens)).getD ⟨offset, offset⟩ := by
  rw [h.start_eq, h.stop_eq]
  cases Token.code tokens with
  | nil => rfl
  | cons first more =>
    have hlast := List.getLast?_eq_some_getLast (List.cons_ne_nil first more)
    simp only [Span.ofTokens?, hlast]
    rfl

theorem fills_lambdaOutline {mid stop : Cursor} {parameters : Option String}
    (hm : mid.Sound source) (hd : Derives source n (.statements (some .curly) mid body stop))
    (hs : stop.Poised source (.curly :: outer)) (hr : mid.rest = taken ++ stop.rest)
    (ht : Trims taken body) (hf : cursor.rest = front ++ mid.rest)
    (hn : Token.nest [] (front ++ taken) = true) (hruns : Runs parameters (front ++ taken) taken)
    (token : Token) :
    ∃ close, (lambdaOutline source token parameters body stop).Fills cursor (front ++ taken) close
      (stop.skipClosing .curly) := by
  rcases hd.statements_stop with hstop | ⟨close, behind, _, hstop, hc, ⟨⟩⟩
  · exact (hs.ne_nil hstop).elim
  · have hclose := hs.sound.headsNext hstop
    have hleads : mid.Leads stop := hd.leads
    have hblock := (blockSpan hm hleads (hd.spanned hm)).stop_le
    have hle : stop.nextStart source.size ≤ close.span.stop := by
      rw [Cursor.nextStart_of_cons hstop]
      exact Nat.le_of_lt hclose.nonempty
    rw [lambdaOutline, skipClosing_eq hstop hc]
    refine ⟨close, ⟨?_, hn, hc, rfl, ?_, parameters, _, body, taken, _, rfl, hruns, ht.span_eq _⟩⟩
    · rw [hf, hr, hstop, List.append_assoc]
      rfl
    · exact Nat.max_eq_left (Nat.le_trans hblock hle)

/-- What is read of balanced tokens ends at its own last token, and the bracket in front of it is
closed there. -/
def Phrase.Balanced (source : Source) : Phrase → Prop
  | .expression token cursor node next | .primary token cursor node next =>
    ∀ outer, cursor.Poised source (token.lexeme.opens ++ outer) →
      cursor.previousEnd = token.span.stop →
        cursor.Balances token.lexeme.opens next ∧ node.info.stop = next.previousEnd
  | .suffixes node cursor result next =>
    ∀ outer, cursor.Poised source outer → node.info.stop = cursor.previousEnd →
      cursor.Balances [] next ∧ result.info.stop = next.previousEnd
  | .named _ span cursor node next =>
    ∀ outer, cursor.Poised source outer → cursor.previousEnd = span.stop →
      cursor.Balances [] next ∧ node.info.stop = next.previousEnd
  | .callArguments cursor _ next | .trailingLambda cursor _ next =>
    ∀ outer, cursor.Poised source outer → cursor.Balances [] next
  | .valueArguments cursor _ next =>
    ∀ outer, cursor.Poised source (.round :: outer) → cursor.Balances [.round] next
  | .items setting _ cursor nodes next =>
    ∀ outer, cursor.Poised source outer → cursor.Delivers setting [] nodes next
  | .statements close cursor nodes next =>
    close = some .curly → ∀ outer n,
      cursor.Poised source (List.replicate n .round ++ .curly :: outer) →
        cursor.Delivers .statement (List.replicate n .round) nodes next
  | .lambda _ cursor node next =>
    ∀ outer, cursor.Poised source (.curly :: outer) → ∃ inside close,
      node.Fills cursor inside close next
  | .group bracket _ cursor node next =>
    ∀ outer, cursor.Poised source (bracket :: outer) →
      cursor.Balances [bracket] next ∧ node.info.stop = next.previousEnd
  | .groupItems bracket cursor _ next =>
    ∀ outer, cursor.Poised source (bracket :: outer) → cursor.Balances [bracket] next

namespace Phrase.Balanced

variable {token : Token} {rest : List Token} {cursor mid next : Cursor} {node group : Outline}
  {items nodes : List Outline}

theorem expression (hp : (primary token cursor node mid).Balanced source)
    (hs : (suffixes node mid result next).Balanced source) :
    (Phrase.expression token cursor result next).Balanced source := by
  intro outer hpoised he
  obtain ⟨hmid, hstop⟩ := hp outer hpoised he
  obtain ⟨hnext, hstop⟩ := hs outer (hpoised.balances hmid) hstop
  exact ⟨hmid.trans hnext, hstop⟩

theorem member {found : Member} (hm : memberAhead? cursor = some found)
    (hn : (named found.text found.span found.next selector mid).Balanced source)
    (hs : (suffixes (.memberAccess ⟨node.info.start, selector.info.stop⟩ node selector found.safe)
      mid result next).Balanced source) :
    (suffixes node cursor result next).Balanced source := by
  intro outer hp _
  obtain ⟨_, _, _, _, ha⟩ := exists_of_memberAhead? hm
  have hname := hp.balances ha.balances
  obtain ⟨hmid, hstop⟩ := hn outer hname (by rw [ha.next_eq, ← ha.span_eq]; rfl)
  obtain ⟨hnext, hstop⟩ := hs outer (hname.balances hmid) hstop
  exact ⟨(ha.balances.trans hmid).trans hnext, hstop⟩

theorem index (hr : cursor.rest = token :: rest) (ht : token.lexeme = .opening .square)
    (hg : (Phrase.group .square token (.past token rest) group mid).Balanced source)
    (hs : (suffixes (.sequence ⟨node.info.start, group.info.stop⟩ [node, group]) mid result
      next).Balanced source) :
    (suffixes node cursor result next).Balanced source := by
  intro outer hp _
  obtain ⟨hgroup, hstop⟩ := hg outer (hp.opening hr ht)
  have hmid := hgroup.opening hr ht
  obtain ⟨hnext, hstop⟩ := hs outer (hp.balances hmid) hstop
  exact ⟨hmid.trans hnext, hstop⟩

theorem call (ht : readTypeArguments cursor = (types, behindTypes))
    (ha : (callArguments behindTypes arguments behindArguments).Balanced source)
    (hl : (trailingLambda behindArguments trailing next).Balanced source) :
    (named text span cursor (.call ⟨span.start, next.previousEnd⟩ callee types values trailing)
      next).Balanced source := by
  intro outer hp _
  have htypes := balances_readTypeArguments ht
  have hbehind := hp.balances htypes
  have harguments := ha outer hbehind
  have hlambda := hl outer (hbehind.balances harguments)
  exact ⟨(htypes.trans harguments).trans hlambda, rfl⟩

theorem argument (hl : (readArgumentName cursor).2.Leads mid)
    (hi : (Phrase.items .argument false (readArgumentName cursor).2 items mid).Balanced source)
    (ha : (valueArguments mid arguments next).Balanced source) :
    (valueArguments cursor nodes next).Balanced source := by
  intro outer hp
  obtain ⟨front, hf, hn⟩ := exists_readArgumentName cursor
  have hname := hp.ahead (readArgumentName_leads cursor) hf hn
  obtain ⟨taken, hr, ht, _⟩ := hi _ hname
  refine (ha outer (hname.ahead hl hr ht)).prepend (front ++ taken) ?_ ?_
  · rw [hf, hr, List.append_assoc]
  · exact (Token.nest_append hn [] taken).trans ht

theorem item (hr : cursor.rest = token :: rest) (ht : setting.Starts token.lexeme)
    (hd : Derives source n (.expression token (.past token rest) node mid))
    (he : (Phrase.expression token (.past token rest) node mid).Balanced source)
    (hi : (Phrase.items setting carrying mid items next).Balanced source) :
    (Phrase.items setting carried cursor (node :: items) next).Balanced source := by
  intro outer hp
  have hbehind := hp.behind hr ht.2.2
  obtain ⟨hb, hstop⟩ := he outer hbehind rfl
  have hstart := (hd.spanned (hp.sound.headsNext hr)).start_eq
  exact (Cursor.Delivers.item hr ht hstart hb hstop).append (hi outer (hbehind.balances hb))

theorem statementsClose (hr : cursor.rest = token :: rest) (ht : token.lexeme = .closing bracket)
    (hclose : close = some bracket) : (statements close cursor [] cursor).Balanced source := by
  intro hc outer n hp
  cases hclose.symm.trans hc
  obtain ⟨_, ho, _⟩ := hp.closing hr ht
  obtain rfl := innermost_of_curly ho
  exact .nil ..

/-- A round bracket that the parameters of the lambda left open. -/
theorem stray (hr : cursor.rest = token :: rest) (ht : token.lexeme = .closing bracket)
    (hne : close ≠ some bracket)
    (hs : (statements close (.past token rest) nodes next).Balanced source) :
    (statements close cursor (.token token.span :: nodes) next).Balanced source := by
  intro hc outer n hp
  obtain ⟨_, ho, hp⟩ := hp.closing hr ht
  obtain ⟨m, rfl, rfl, rfl⟩ := innermost_of_ne_curly ho fun hb => hne (hb ▸ hc)
  rw [List.replicate_succ]
  exact .stray hr ht (hs hc outer m hp)

theorem lambda (hp : readParameters source cursor = (parameters, mid))
    (hd : Derives source n (.statements (some .curly) mid body stop))
    (hs : (statements (some .curly) mid body stop).Balanced source) :
    (Phrase.lambda token cursor (lambdaOutline source token parameters body stop)
      (stop.skipClosing .curly)).Balanced source := by
  intro outer hpoised
  obtain ⟨n, front, hf, hmid, hruns⟩ := hpoised.parameters hp
  obtain ⟨taken, hr, hn, htrims⟩ := hs rfl outer n hmid
  obtain ⟨hnest, hrun⟩ := hruns taken hn
  exact ⟨front ++ taken, fills_lambdaOutline hmid.sound hd (hmid.drop hd.leads hr hn) hr
    (htrims rfl) hf hnest hrun _⟩

theorem groupItem (hr : cursor.rest = token :: rest) (hc : token.lexeme.isClosing = false)
    (he : (Phrase.expression token (.past token rest) node mid).Balanced source)
    (hg : (groupItems bracket mid items next).Balanced source) :
    (groupItems bracket cursor (node :: items) next).Balanced source := by
  intro outer hp
  have hbehind := hp.behind hr hc
  obtain ⟨hb, _⟩ := he _ hbehind rfl
  obtain ⟨taken, hm, hn⟩ := hb.taken
  refine (hg outer (hbehind.balances hb)).prepend (token :: taken) ?_ (Token.nest_cons hc hn)
  exact hr.trans (congrArg (_ :: ·) hm)

end Phrase.Balanced

/-- The readers read as much as closes the bracket in front of them. -/
theorem Derives.balanced (h : Derives source n phrase) : phrase.Balanced source := by
  -- On the derivation: brackets that a phrase opens are closed by the phrases it is made of, and
  -- `outer`, which stands around them, is handed on as it is.
  induction h with
  | expression _ _ ihp ihs => exact .expression ihp ihs
  | name ht _ ih =>
    simp only [Phrase.Balanced, ht]
    exact ih
  | braces ht _ ih =>
    simp only [Phrase.Balanced, ht]
    intro outer hp _
    obtain ⟨inside, close, hf⟩ := ih outer hp
    exact ⟨hf.balances, hf.stop_eq.trans hf.previousEnd_eq.symm⟩
  | brackets ht _ _ ih =>
    simp only [Phrase.Balanced, ht]
    exact fun outer hp _ => ih outer hp
  | string ht =>
    simp only [Phrase.Balanced, ht]
    exact fun _ _ he => ⟨.refl, he.symm⟩
  | literal ht =>
    simp only [Phrase.Balanced, Lexeme.opens_eq_nil (.inl ht)]
    exact fun _ _ he => ⟨.refl, he.symm⟩
  | symbol ht =>
    simp only [Phrase.Balanced, Lexeme.opens_eq_nil (.inr ht)]
    exact fun _ _ he => ⟨.refl, he.symm⟩
  | noSuffix => exact fun _ _ he => ⟨.refl, he⟩
  | member hm _ _ ihn ihs => exact .member hm ihn ihs
  | index _ hr ht _ _ _ ihg ihs => exact .index hr ht ihg ihs
  | identifier ht ha hl =>
    intro _ _ he
    obtain rfl := ha.next_eq_of_identifier ht hl
    exact ⟨.refl, he.symm⟩
  | call ht _ _ _ iha ihl => exact .call ht iha ihl
  | noArguments | noLambda => exact fun _ _ => .refl
  | arguments hr ht _ ih => exact fun outer hp => (ih outer (hp.opening hr ht)).opening hr ht
  | trailing hr ht _ ih =>
    intro outer hp
    obtain ⟨inside, close, hf⟩ := ih outer (hp.opening hr ht)
    exact hf.balances.opening hr ht
  | argumentsEnd hr | groupEnd hr => exact fun _ hp => (hp.ne_nil hr).elim
  | argumentsSkip hr ht _ ih =>
    intro outer hp
    have hb := Lexeme.isBracket_of_skipped .argument ht
    have hn := Token.nest_plain (List.forall_mem_singleton.2 hb)
    exact (ih outer (hp.plain hr hb)).prepend [_] hr hn
  | groupSkip hr ht _ ih =>
    intro outer hp
    have hb := Lexeme.isBracket_of_skipped .argument (.inl ht)
    have hn := Token.nest_plain (List.forall_mem_singleton.2 hb)
    exact (ih outer (hp.plain hr hb)).prepend [_] hr hn
  | argumentsClose hr ht | groupClose hr ht =>
    intro outer hp
    obtain ⟨_, ho, _⟩ := hp.closing hr ht
    cases ho
    rw [if_pos rfl]
    exact .closing hr ht
  | argument _ _ hi _ ihi iha => exact .argument hi.leads ihi iha
  | itemsEnd | itemsStop | itemsBreak => exact fun _ _ => .nil ..
  | itemsContinue hr ht _ _ ih =>
    intro outer hp
    have hb := Lexeme.isBracket_of_skipped .statement (.inl ht)
    exact .skip hr (.inl ht) (ih outer (hp.plain hr hb))
  | item hr ht he _ ihe ihi => exact .item hr ht he ihe ihi
  | statementsEnd hr =>
    -- the brace of the lambda is still open
    intro _ outer n hp
    have hn := hp.nest
    rw [hr, Token.nest] at hn
    simp at hn
  | statementsSkip hr ht _ ih =>
    intro hc outer n hp
    have hb := Lexeme.isBracket_of_skipped .statement ht
    exact .skip hr ht (ih hc outer n (hp.plain hr hb))
  | statementsClose hr ht hclose => exact .statementsClose hr ht hclose
  | stray hr ht hne _ ih => exact .stray hr ht hne ih
  | statement hr ht hi _ ihi ihs =>
    intro hc outer n hp
    obtain ⟨_, hrest, hn, _⟩ := ihi _ hp
    exact (ihi _ hp).collapse.append (ihs hc outer n (hp.ahead hi.leads hrest hn))
  | lambda hp hd ih => exact .lambda hp hd ih
  | group _ ih => exact fun outer hp => ⟨ih outer hp, rfl⟩
  | groupItem hr _ hc _ _ ihe ihg => exact .groupItem hr hc ihe ihg

end StateDiagram
