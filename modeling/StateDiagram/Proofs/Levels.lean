import StateDiagram.Proofs.Agreement

namespace StateDiagram

set_option autoImplicit true

open Indexed Text

variable {source : Source} {limit n depth index : Nat} {token : Token} {cursor next : Cursor}

theorem Laid.sublist (h : Laid source low high nodes) (hs : fewer.Sublist nodes) :
    Laid source low high fewer :=
  ⟨fun node hm => h.within node (hs.subset hm), h.ordered.sublist hs,
    fun node hm => h.sound node (hs.subset hm)⟩

theorem Source.steps_of_length_lt
    (h : (source.cursorAt stop).rest.length < (source.cursorAt index).rest.length)
    (hs : source.tokens.length ≤ index + steps) :
    ∃ left, steps = left + 1 ∧ 0 < stop ∧ source.tokens.length ≤ stop + left := by
  have hl (index : Nat) : (source.cursorAt index).rest.length = source.tokens.length - index :=
    List.length_drop
  rw [hl, hl] at h
  cases steps with
  | zero => omega
  | succ left => exact ⟨left, rfl, by omega, by omega⟩

theorem exists_breaks (tokens : List Token) :
    (∀ token ∈ tokens, token.lexeme.isLineBreak = true) ∨
      ∃ breaks first more, tokens = breaks ++ first :: more ∧
        (∀ token ∈ breaks, token.lexeme.isLineBreak = true) ∧
        first.lexeme.isLineBreak = false := by
  induction tokens with
  | nil => exact .inl (List.forall_mem_nil _)
  | cons token tokens ih =>
    cases ht : token.lexeme.isLineBreak with
    | false => exact .inr ⟨[], token, tokens, rfl, List.forall_mem_nil _, ht⟩
    | true =>
      rcases ih with h | ⟨breaks, first, more, rfl, hb, hf⟩
      · exact .inl (List.forall_mem_cons.2 ⟨ht, h⟩)
      · exact .inr ⟨token :: breaks, first, more, rfl, List.forall_mem_cons.2 ⟨ht, hb⟩, hf⟩

theorem filter_breaks {breaks : List Token}
    (h : ∀ token ∈ breaks, token.lexeme.isLineBreak = true) :
    breaks.filter (!·.lexeme.isLineBreak) = [] := by
  apply List.filter_eq_nil_iff.2
  intro token hm
  rw [h token hm]
  exact Bool.false_ne_true

theorem Cursor.Sound.within_ofTokens? {inside kept : List Token} {arrow : Token}
    (hc : cursor.Sound source) (hr : cursor.rest = inside ++ arrow :: behind)
    (hk : kept.Sublist inside) (hspan : Span.ofTokens? kept = some span) :
    span.Within source := by
  have hle : arrow.span.start ≤ source.lastEnd :=
    Nat.le_trans (Nat.le_of_lt (hc.heads hr).nonempty) (hc.heads hr).stop_le_lastEnd
  have hlaid := ((hc.laid hr).sublist (hk.map _)).typeArgument hle
  rw [hspan] at hlaid
  exact (hlaid.sound _ (List.mem_singleton_self _)).within

theorem Source.rest_takeWhile (source : Source) (index : Nat) (p : Token → Bool) :
    (source.cursorAt (index + ((source.tokens.drop index).takeWhile p).length)).rest =
      (source.tokens.drop index).dropWhile p := by
  exact rest_of_append List.takeWhile_append_dropWhile.symm

theorem pastBreaks_of_append {breaks : List Token}
    (h : source.tokens.drop index = breaks ++ token :: behind)
    (hb : ∀ passed ∈ breaks, passed.lexeme.isLineBreak = true)
    (ht : token.lexeme.isLineBreak = false) :
    pastBreaks source index = index + breaks.length := by
  rw [pastBreaks, h, List.takeWhile_append_of_pos hb, List.takeWhile_cons, ht]
  simp

theorem memberDot?_of_none (h : memberAhead? (source.cursorAt index) = none) :
    memberDot? source index = none := by
  have hbehind : (source.cursorAt (pastBreaks source index)).rest = _ :=
    source.rest_takeWhile index (·.lexeme.isLineBreak)
  have hahead (dot name : Token) (hdot : source.tokens[pastBreaks source index]? = some dot)
      (hname : source.tokens[pastBreaks source index + 1]? = some name) :
      ((source.cursorAt index).rest.dropWhile (·.lexeme.isLineBreak)) =
        dot :: name :: source.tokens.drop (pastBreaks source index + 2) := by
    rw [Source.rest_eq hdot] at hbehind
    rw [Source.cursorAt, ← hbehind]
    exact congrArg (dot :: ·) (Source.rest_eq hname)
  rw [memberDot?]
  split
  · next hdot hname =>
    rw [memberAhead?, hahead _ _ hdot hname] at h
    cases h
  · next hdot hname =>
    rw [memberAhead?, hahead _ _ hdot hname] at h
    cases h
  · rfl

theorem exists_memberDot? {member : Member}
    (h : memberAhead? (source.cursorAt index) = some member) :
    ∃ stop dot name, memberDot? source index = some stop ∧
      source.tokens[stop]? = some dot ∧ (dot.lexeme == .operator "?.") = member.safe ∧
      source.tokens[stop + 1]? = some name ∧ name.lexeme = .identifier member.text ∧
      name.span = member.span ∧ member.next = source.cursorAt (stop + 1 + 1) := by
  obtain ⟨breaks, dot, name, rest, ha⟩ := exists_of_memberAhead? h
  have hd : source.tokens.drop index = breaks ++ dot :: name :: rest := ha.tokens_eq
  have hdot : dot.lexeme.isLineBreak = false := by
    rw [ha.dot_eq]
    rfl
  have hb : ∀ passed ∈ breaks, passed.lexeme.isLineBreak = true :=
    fun passed hm => Lexeme.isLineBreak_iff.2 (ha.breaks_eq passed hm)
  have hstop := pastBreaks_of_append hd hb hdot
  obtain ⟨hgetDot, hrest⟩ := Source.getElem?_of_rest (Source.rest_of_append hd)
  obtain ⟨hgetName, rfl⟩ := Source.getElem?_of_rest hrest.symm
  have hnext : member.next = source.cursorAt (index + breaks.length + 1 + 1) := by
    rw [ha.next_eq]
    exact Source.past_eq hgetName
  refine ⟨index + breaks.length, dot, name, ?_, hgetDot, ?_, hgetName,
    ha.name_eq, ha.span_eq, hnext⟩
  · obtain ⟨lexeme, span⟩ := dot
    obtain ⟨lexeme', span'⟩ := name
    obtain rfl : lexeme = .operator (if member.safe then "?." else ".") := ha.dot_eq
    obtain rfl : lexeme' = .identifier member.text := ha.name_eq
    simp only [memberDot?, hstop, hgetDot, hgetName]
    cases member.safe <;> rfl
  · rw [ha.dot_eq]
    cases member.safe <;> rfl

namespace Indexed

theorem run_enter (h : depth < limit) :
    (enter limit).run ⟨index, depth⟩ = .ok ((), ⟨index, depth + 1⟩) := by
  simp only [enter, run_bind, run_get, ok_bind, run_modify, if_neg (Nat.not_lt.2 h)]
  rfl

theorem run_enter_limit (index limit : Nat) :
    (enter limit).run ⟨index, limit⟩ = .error (.fault (.nestingTooDeep limit)) := by
  simp only [enter, run_bind, run_get, ok_bind, run_modify, if_pos (Nat.lt_succ_self limit)]
  rfl

theorem run_leave (index depth : Nat) :
    leave.run ⟨index, depth + 1⟩ = .ok ((), ⟨index, depth⟩) := rfl

theorem mirrors_leaf (hget : source.tokens[index]? = some token) {node : Outline}
    (hrun : run = .ok (node.map source.locate, ⟨index + 1, depth⟩)) :
    Mirrors source limit depth (Node.map source.locate) run
      (some (node, source.cursorAt (index + 1))) :=
  ⟨index + 1, Source.lt_of_getElem? hget, rfl, hrun⟩

theorem quoted_of_getElem? (hget : source.tokens[index]? = some token)
    (ht : token.lexeme = .string text) : Quoted text.toList :=
  Token.quoted_scan (List.mem_of_getElem? hget) ht

/-- Where the tokens in front of an arrow start and end, line breaks at their ends left out. -/
theorem parameterSpan {inside : List Token} (hi : index ≤ source.tokens.length)
    (hd : source.tokens.drop index = inside ++ arrow :: rest)
    (ha : arrow.lexeme.isLineBreak = false) :
    Span.ofTokens? (inside.filter (!·.lexeme.isLineBreak)) = none ∧
        pastBreaks source index = index + inside.length ∨
      ∃ span last, Span.ofTokens? (inside.filter (!·.lexeme.isLineBreak)) = some span ∧
        span.Within source ∧ pastBreaks source index < index + inside.length ∧
        startOf source (pastBreaks source index) = span.start ∧
        (source.tokens.take (index + inside.length)).reverse.find? (!·.lexeme.isLineBreak) =
          some last ∧ last.span.stop = span.stop := by
  rcases exists_breaks inside with hbreaks | ⟨breaks, first, more, rfl, hbreaks, hfirst⟩
  · rw [filter_breaks hbreaks]
    exact .inl ⟨rfl, pastBreaks_of_append hd hbreaks ha⟩
  · have hd' : source.tokens.drop index = breaks ++ first :: (more ++ arrow :: rest) := by
      rw [hd, List.append_assoc, List.cons_append]
    have hpast := pastBreaks_of_append hd' hbreaks hfirst
    have hkept : (breaks ++ first :: more).filter (!·.lexeme.isLineBreak) =
        first :: more.filter (!·.lexeme.isLineBreak) := by
      rw [List.filter_append, filter_breaks hbreaks, List.nil_append, List.filter_cons, hfirst]
      rfl
    obtain ⟨last, hlast⟩ : ∃ last,
        (first :: more.filter (!·.lexeme.isLineBreak)).getLast? = some last :=
      ⟨_, List.getLast?_eq_some_getLast (List.cons_ne_nil _ _)⟩
    have hspan : Span.ofTokens? ((breaks ++ first :: more).filter (!·.lexeme.isLineBreak)) =
        some ⟨first.span.start, last.span.stop⟩ := by
      simp only [hkept, Span.ofTokens?, hlast]
    refine .inr ⟨_, last, hspan, ?_, ?_, ?_, ?_, rfl⟩
    · exact (Source.sound_cursorAt hi).within_ofTokens? hd List.filter_sublist hspan
    · rw [hpast, List.length_append, List.length_cons]
      omega
    · rw [hpast]
      exact startOf_of_getElem? (Source.getElem?_of_rest (Source.rest_of_append hd')).1
    · rw [List.take_add, hd, List.take_left, ← List.getLast?_filter, List.filter_append, hkept,
        List.getLast?_append, hlast]
      rfl

theorem run_parameters {names : Option String} (depth : Nat) (hi : index ≤ source.tokens.length)
    (h : readParameters source (source.cursorAt index) = (names, next)) :
    ∃ stop, stop ≤ source.tokens.length ∧ source.cursorAt stop = next ∧
      (parameters source).run ⟨index, depth⟩ = .ok (names, ⟨stop, depth⟩) := by
  have hbehind := source.rest_takeWhile index (·.lexeme.isParameter)
  have hs := List.takeWhile_append_dropWhile (p := (·.lexeme.isParameter))
    (l := source.tokens.drop index)
  rw [readParameters] at h
  split at h
  · next hr =>
    cases h
    have hr : (source.tokens.drop index).dropWhile (·.lexeme.isParameter) = [] := hr
    rw [hr] at hbehind
    refine ⟨index, hi, rfl, ?_⟩
    simp only [parameters, run_bind, run_get, ok_bind, Source.getElem?_of_rest_nil hbehind]
    rfl
  · next arrow rest hr =>
    have hr : (source.tokens.drop index).dropWhile (·.lexeme.isParameter) = arrow :: rest := hr
    rw [hr] at hbehind hs
    obtain ⟨hget, rfl⟩ := Source.getElem?_of_rest hbehind
    split at h
    · next harrow =>
      cases h
      refine ⟨_, Source.lt_of_getElem? hget, (Source.past_eq hget).symm, ?_⟩
      have hbreak : arrow.lexeme.isLineBreak = false := by
        rw [harrow]
        rfl
      simp only [parameters, run_bind, run_get, ok_bind, hget, Option.any_some,
        beq_iff_eq.2 harrow, if_true, run_modify]
      rcases parameterSpan hi hs.symm hbreak with
        ⟨hspan, hpast⟩ | ⟨span, last, hspan, hw, hlt, hstart, hfind, hstop⟩
      · simp only [hpast, Nat.lt_irrefl, if_false, Source.cursorAt, hspan]
        rfl
      · simp only [if_pos hlt, hfind, Option.map_some, Option.getD_some, hstart, hstop,
          Source.slice?_eq hw, Source.cursorAt, hspan, String.ofList_toList]
        rfl
    · next harrow =>
      cases h
      refine ⟨index, hi, rfl, ?_⟩
      have hbeq : (arrow.lexeme == .operator "->") = false := beq_eq_false_iff_ne.2 harrow
      simp only [parameters, run_bind, run_get, ok_bind, hget, Option.any_some, hbeq]
      rfl

theorem run_skipClosing (bracket : Bracket) (depth : Nat) (hi : index ≤ source.tokens.length) :
    ∃ stop, stop ≤ source.tokens.length ∧
      source.cursorAt stop = (source.cursorAt index).skipClosing bracket ∧
      (skipClosing source bracket).run ⟨index, depth⟩ = .ok ((), ⟨stop, depth⟩) := by
  simp only [skipClosing, run_bind, run_peek, ok_bind]
  cases hget : source.tokens[index]? with
  | none =>
    rw [Cursor.skipClosing, Source.rest_of_getElem?_none hget]
    exact ⟨index, hi, rfl, rfl⟩
  | some token =>
    rw [Cursor.skipClosing, Source.rest_eq hget]
    simp only [Option.any_some, beq_iff_eq]
    split
    · exact ⟨index + 1, Source.lt_of_getElem? hget, (Source.past_eq hget).symm, rfl⟩
    · exact ⟨index, hi, rfl, rfl⟩

namespace Follows

variable {interior : Interior}

theorem primary (h : Follows source limit n depth interior)
    (hget : source.tokens[index]? = some token) :
    Mirrors source limit depth (Node.map source.locate)
      ((Indexed.primary source interior).run ⟨index, depth⟩)
      (readPrimary (interiorWithin source n) token (source.cursorAt (index + 1))) := by
  have hw := (Source.heads_cursorAt hget).within
  simp only [Indexed.primary, run_bind, run_peek, ok_bind, hget, readPrimary]
  cases ht : token.lexeme with
  | identifier text => exact h.named hget ht
  | opening bracket =>
    cases bracket with
    | curly => exact h.lambda hget
    | round | square => exact h.group hget
  | string text =>
    have hc := content?_eq (quoted_of_getElem? hget ht)
    rw [String.ofList_toList] at hc
    simp only [run_bind, run_advance, ok_bind, hc, run_node hw, String.ofList_toList]
    exact mirrors_leaf hget (by rw [Node.map])
  | character | number | lineBreak | operator | closing | unknown =>
    simp only [run_bind, run_advance, ok_bind, run_node hw]
    exact mirrors_leaf hget (by rw [Node.map])

theorem member (h : Follows source limit n depth interior) {member : Member}
    (hm : memberAhead? (source.cursorAt index) = some member) :
    ∃ stop, memberDot? source index = some stop ∧
      source.tokens[stop]?.any (·.lexeme == .operator "?.") = member.safe ∧
      Mirrors source limit depth (Node.map source.locate)
        ((Indexed.named source interior).run ⟨stop + 1, depth⟩)
        (readNamed (interiorWithin source n) member.text member.span member.next) := by
  obtain ⟨stop, dot, name, hstop, hdot, hsafe, hname, htext, hspan, hnext⟩ := exists_memberDot? hm
  refine ⟨stop, hstop, ?_, ?_⟩
  · rw [hdot]
    exact hsafe
  · rw [← hspan, hnext]
    exact h.named hname htext

/-- The expression in front of the suffixes ends where they may start, so each new node spans a
text. -/
theorem suffixes {index : Nat} (h : Follows source limit n depth interior) {node : Outline}
    (hpos : 0 < index) (hi : index ≤ source.tokens.length)
    (hs : source.tokens.length ≤ index + steps) (hn : node.Sound source)
    (hle : node.info.stop ≤ (source.cursorAt index).reach source.size) :
    Mirrors source limit depth (Node.map source.locate)
      ((Indexed.suffixes source interior (node.map source.locate) (steps + 1)).run ⟨index, depth⟩)
      (readSuffixes (interiorWithin source n) node (source.cursorAt index)) := by
  have hc := Source.sound_cursorAt hi
  rw [Indexed.suffixes]
  cases hm : memberAhead? (source.cursorAt index) with
  | some member =>
    obtain ⟨stop, hdot, hsafe, hrun⟩ := h.member hm
    rw [readSuffixes_of_member hm fun _ _ => readNamed_length_le]
    simp only [run_bind, run_get, ok_bind, hdot, run_modify, run_peek, run_advance, hsafe]
    refine hrun.bind fun selector mid hmid hnamed => ?_
    have hspans : Node.Spans source (.memberAccess ⟨node.info.start, selector.info.stop⟩ node
        selector member.safe) node.info (source.cursorAt mid) :=
      .member hm hc hn hle ((Level.all source n).named hnamed).spanned
    have hw : Span.Within source ⟨node.info.start, selector.info.stop⟩ := hspans.sound.within
    obtain ⟨steps, rfl, hmidpos, hsteps⟩ :=
      Source.steps_of_length_lt (length_lt_of_member hm hnamed) hs
    have hrest := suffixes h hmidpos hmid hsteps hspans.sound hspans.stop_le
    rw [Node.map] at hrest
    simp only [Node.info_map, Source.locate, run_node hw, ok_bind]
    exact hrest
  | none =>
    simp only [run_bind, run_get, ok_bind, memberDot?_of_none hm]
    cases hget : source.tokens[index]? with
    | none =>
      rw [readSuffixes_of_none hm (Cursor.not_indexed_nil (Source.rest_of_getElem?_none hget))]
      exact ⟨index, hi, rfl, rfl⟩
    | some token =>
      have hr := Source.rest_eq hget
      have htouches := touches_iff hpos hget (.opening .square)
      rw [hget] at htouches
      by_cases ht : token.lexeme = .opening .square ∧
          token.span.start = (source.cursorAt index).previousEnd
      · rw [readSuffixes_of_index hm hr ht.1 ht.2 (groupWithin_advances ..), Source.past_eq hget]
        simp only [if_pos (htouches.2 ht), run_bind]
        refine (h.group hget).bind fun group mid hmid hg => ?_
        have hgroup := (Level.all source n).group hg
        have hspans : Node.Spans source (.sequence ⟨node.info.start, group.info.stop⟩
            [node, group]) node.info (source.cursorAt mid) :=
          .index hr ht.2 hn hle (hgroup.spanned (Source.heads_cursorAt hget))
        have hw : Span.Within source ⟨node.info.start, group.info.stop⟩ := hspans.sound.within
        have hlt : (source.cursorAt mid).rest.length < (source.cursorAt index).rest.length := by
          rw [hr]
          exact Nat.lt_succ_of_le hgroup.suffix.length_le
        obtain ⟨steps, rfl, hmidpos, hsteps⟩ := Source.steps_of_length_lt hlt hs
        have hrest := suffixes h hmidpos hmid hsteps hspans.sound hspans.stop_le
        rw [Node.map] at hrest
        simp only [Node.info_map, Source.locate, run_node hw, ok_bind]
        exact hrest
      · rw [readSuffixes_of_none hm (Cursor.not_indexed_cons hr ht)]
        simp only [if_neg (mt htouches.1 ht)]
        exact ⟨index, hi, rfl, rfl⟩
termination_by steps

theorem expression_succ (h : Follows source limit n (depth + 1) interior) (hd : depth < limit)
    (hget : source.tokens[index]? = some token) :
    Mirrors source limit depth (Node.map source.locate)
      ((Indexed.expression source limit interior).run ⟨index, depth⟩)
      (expressionWithin source (n + 1) token (source.cursorAt (index + 1))) := by
  have hprimary := h.primary hget
  simp only [Indexed.expression, run_bind, run_enter hd, ok_bind]
  rw [expressionWithin_succ, readExpression]
  split
  · next hnone =>
    simp only [hprimary.of_none hnone, error_bind]
    rfl
  · next node mid hsome =>
    have hread := (Level.all source n).primary hsome
    have hspans := hread.spanned (Source.heads_cursorAt hget)
    obtain ⟨mid, hmid, rfl, hprimary⟩ := hprimary.of_some hsome
    have hsteps := Source.le_of_length_le hread.suffix.length_le hmid (Source.lt_of_getElem? hget)
    have hsuffixes := h.suffixes (Nat.lt_of_lt_of_le (Nat.succ_pos index) hsteps) hmid
      (Nat.le_add_left source.tokens.length mid) hspans.sound hspans.stop_le
    simp only [hprimary, ok_bind]
    cases hresult : readSuffixes (interiorWithin source n) node (source.cursorAt mid) with
    | none =>
      simp only [hsuffixes.of_none hresult, error_bind]
      rfl
    | some found =>
      obtain ⟨result, next⟩ := found
      obtain ⟨stop, hstop, rfl, hrun⟩ := hsuffixes.of_some hresult
      simp only [hrun, ok_bind, run_leave]
      exact ⟨stop, hstop, rfl, rfl⟩

theorem group_succ (h : Follows source limit n (depth + 1) interior) (hd : depth < limit)
    (hget : source.tokens[index]? = some token) :
    Mirrors source limit depth (Node.map source.locate)
      ((Indexed.group source limit interior.argument bracket).run ⟨index, depth⟩)
      (groupWithin source (n + 1) bracket token (source.cursorAt (index + 1))) := by
  have hitems := h.groupItems bracket (Source.lt_of_getElem? hget)
    (Nat.le_add_left source.tokens.length (index + 1))
  simp only [Indexed.group, run_bind, run_enter hd, ok_bind, run_get, run_advance,
    startOf_of_getElem? hget]
  rw [groupWithin_succ, readGroup]
  split
  · next hnone =>
    simp only [hitems.of_none hnone, error_bind]
    rfl
  · next items next hsome =>
    have hgroup : Derives source (n + 1) (.group bracket token _ _ _) :=
      .group ((Level.all source n).groupItems hsome)
    have hw := (hgroup.spanned (Source.heads_cursorAt hget)).sound.within
    obtain ⟨stop, hstop, rfl, hrun⟩ := hitems.of_some hsome
    have hend : endBefore source stop = (source.cursorAt stop).previousEnd := rfl
    simp only [hrun, ok_bind, run_leave, hend]
    refine ⟨stop, hstop, rfl, ?_⟩
    rw [run_node hw, Node.map]

theorem lambda_succ (h : Follows source limit n (depth + 1) interior) (hd : depth < limit)
    (hget : source.tokens[index]? = some token) :
    Mirrors source limit depth (Node.map source.locate)
      ((Indexed.lambda source limit interior.argument).run ⟨index, depth⟩)
      (lambdaWithin source (n + 1) token (source.cursorAt (index + 1))) := by
  have hheads := Source.heads_cursorAt hget
  rw [lambdaWithin_succ, readLambda]
  cases hp : readParameters source (source.cursorAt (index + 1)) with
  | mk names mid =>
    obtain ⟨first, hfirst, rfl, hnames⟩ :=
      run_parameters (depth + 1) (Source.lt_of_getElem? hget) hp
    have hbody := h.statements (some .curly) hfirst
      (Nat.le_add_left source.tokens.length first)
    simp only [Indexed.lambda, run_bind, run_enter hd, ok_bind, run_get, run_advance, hnames,
      startOf_of_getElem? hget]
    split
    · next hnone =>
      simp only [hbody.of_none hnone, error_bind]
      rfl
    · next body behind hsome =>
      have hread := (Level.all source n).statements hsome
      obtain ⟨stop, hstop, rfl, hrun⟩ := hbody.of_some hsome
      have hmid := Source.sound_cursorAt hfirst
      have hblock := (blockSpan hmid hread.leads (hread.spanned hmid)).nests _
        (Node.mem_preorder_self _)
      have hlambda : Derives source (n + 1) (.lambda token _ _ _) := .lambda hp hread
      have hw := (hlambda.spanned hheads).sound.within
      obtain ⟨last, hlast, hcursor, hskip⟩ := run_skipClosing .curly (depth + 1) hstop
      have hend : endBefore source last =
          ((source.cursorAt stop).skipClosing .curly).previousEnd := by
        rw [← hcursor]
        rfl
      -- Both sides compute the ends of the block from its statements; from here on they are names.
      simp only [lambdaOutline] at hw
      simp only [Phrase.cursors] at hblock
      simp only [hrun, ok_bind, hskip, startOf_eq, List.head?_map, List.getLast?_map,
        Option.map_map, Function.comp_def, Node.info_map, Source.locate]
      refine ⟨last, hlast, hcursor, ?_⟩
      generalize (body.head?.map (·.info.start)).getD
        ((source.cursorAt stop).nextStart source.size) = start at *
      generalize (body.getLast?.map (·.info.stop)).getD start = bodyStop at *
      rw [run_node hblock.within, ok_bind, run_leave, ok_bind, hend, run_node hw, Node.map,
        Node.map]

end Follows

end Indexed

end StateDiagram
