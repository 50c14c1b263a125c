import StateDiagram.Proofs.Embedding

namespace StateDiagram

set_option autoImplicit true

variable {source whole : Source} {k n : Nat} {more : List Token}

/-- The readers at a level answer alike for a source and for a whole that embeds it. -/
structure Embedded (source whole : Source) (k : Nat) (more : List Token) (n : Nat) : Prop where
  expression {opened : List Bracket} {token : Token} {cursor : Cursor} :
    token.lexeme.isClosing = false → token.lexeme ≠ .lineBreak →
      Confined source whole k opened (token :: cursor.rest) →
        expressionWithin whole n (token.shift k) (cursor.within k more) =
          (expressionWithin source n token cursor).map
            (Prod.map (Node.map (Span.shift k)) (Cursor.within k more))
  lambda {opened : List Bracket} {token : Token} {cursor : Cursor} :
    Confined source whole k (.curly :: opened) cursor.rest →
      lambdaWithin whole n (token.shift k) (cursor.within k more) =
        (lambdaWithin source n token cursor).map
          (Prod.map (Node.map (Span.shift k)) (Cursor.within k more))
  group {opened : List Bracket} {bracket : Bracket} {token : Token} {cursor : Cursor} :
    Confined source whole k (bracket :: opened) cursor.rest →
      groupWithin whole n bracket (token.shift k) (cursor.within k more) =
        (groupWithin source n bracket token cursor).map
          (Prod.map (Node.map (Span.shift k)) (Cursor.within k more))

/-- Behind an expression the tokens are as confined as in front of it. -/
theorem Confined.behind {next : Cursor} (h : Confined source whole k opened (token :: rest))
    (hd : Derives source n (.expression token (.past token rest) item next))
    (hc : token.lexeme.isClosing = false) (hl : token.lexeme ≠ .lineBreak) :
    Confined source whole k opened next.rest :=
  h.leads (hd.suffix.trans (List.suffix_cons ..)) (hd.seals opened hc hl)

theorem argumentOutline_comp (token : Token) (name : Option String) :
    Node.map (Span.shift k) ∘ argumentOutline token name =
      argumentOutline (token.shift k) name ∘ Node.map (Span.shift k) := by
  funext expression
  rw [Function.comp_apply, Function.comp_apply, argumentOutline, argumentOutline, Node.map,
    Node.info_map]
  rfl

theorem Confined.indexed_within {cursor : Cursor} (h : Confined source whole k opened cursor.rest)
    (he : Embeds source whole k more) : (cursor.within k more).Indexed ↔ cursor.Indexed := by
  cases hr : cursor.rest with
  | nil => simp only [Cursor.Indexed, hr, h.rest_within_nil he hr, reduceCtorEq, false_and,
      exists_false]
  | cons token rest =>
    simp only [Cursor.Indexed, hr, Cursor.rest_within_cons hr, List.cons.injEq]
    constructor
    · rintro ⟨_, _, ⟨rfl, rfl⟩, ht, ha⟩
      exact ⟨token, rest, ⟨rfl, rfl⟩, ht, touches_within.1 ha⟩
    · rintro ⟨_, _, ⟨rfl, rfl⟩, ht, ha⟩
      exact ⟨_, _, ⟨rfl, rfl⟩, ht, touches_within.2 ha⟩

/-- A line break or a semicolon between statements. Nothing but line breaks may be the last
token. -/
theorem Confined.pass (h : Confined source whole k opened (token :: rest))
    (ht : token.lexeme = .lineBreak ∨ token.lexeme = Setting.statement.separator) :
    rest = [] ∨ ∃ opened, Confined source whole k opened rest := by
  have hb : token.lexeme.isBracket = false := by
    rcases ht with ht | ht <;> rw [ht] <;> rfl
  rw [or_iff_not_imp_left]
  exact fun hne => ⟨opened, h.leads (List.suffix_cons ..) fun hs =>
    hs.pass [token] hne (List.forall_mem_singleton.2 hb)⟩

theorem Confined.stray {bracket : Bracket} (h : Confined source whole k opened (token :: rest))
    (ht : token.lexeme = .closing bracket) :
    rest = [] ∨ ∃ opened, Confined source whole k opened rest := by
  refine .inr ⟨opened.tail, h.leads (List.suffix_cons ..) fun hs => ?_⟩
  obtain ⟨outer, rfl, hrest⟩ := hs.closing ht
  exact hrest

/-- Behind its parameters a lambda may have round brackets left to close. -/
theorem Confined.parameters {cursor next : Cursor} {parameters : Option String}
    (h : Confined source whole k (.curly :: opened) cursor.rest)
    (hp : readParameters source cursor = (parameters, next)) :
    ∃ n, Confined source whole k (List.replicate n .round ++ .curly :: opened) next.rest := by
  have hsub := List.Subset.trans (readParameters_leads hp).suffix.subset h.subset
  by_cases hm : source.IsFollowed whole k
  · obtain ⟨n, hs⟩ := sealed_readParameters hp (h.closed hm)
    exact ⟨n, hsub, fun _ => hs⟩
  · exact ⟨0, hsub, fun hm' => (hm hm').elim⟩

theorem collapse_map (items : List Outline) :
    collapse (items.map (Node.map (Span.shift k))) =
      (collapse items).map (Node.map (Span.shift k)) := by
  match items with
  | [] | [_] => rfl
  | first :: second :: items =>
    rw [List.map_cons, List.map_cons, collapse, collapse, Option.map_some, Node.map]
    simp only [← List.map_cons, List.getLast_map, Node.info_map]
    rfl

namespace Embedded

theorem items {cursor : Cursor} (level : Embedded source whole k more n)
    (he : Embeds source whole k more) (setting : Setting) (carried : Bool)
    (h : Confined source whole k opened cursor.rest)
    (harg : source.IsFollowed whole k → setting = .argument → opened ≠ [])
    (hcar : source.IsFollowed whole k → carried = true →
      ∃ token ∈ cursor.rest, token.lexeme ≠ .lineBreak) :
    sequenceItems (expressionWithin whole n) setting carried (cursor.within k more) =
      (sequenceItems (expressionWithin source n) setting carried cursor).map
        (Prod.map (List.map (Node.map (Span.shift k))) (Cursor.within k more)) := by
  have hadvances := expressionWithin_advances
  cases hr : cursor.rest with
  | nil =>
    rw [sequenceItems_of_nil hr, sequenceItems_of_nil (h.rest_within_nil he hr)]
    rfl
  | cons token rest =>
    have hr' : (cursor.within k more).rest = token.shift k :: _ := Cursor.rest_within_cons hr
    rw [hr] at h hcar
    rcases setting.lexeme_cases token.lexeme with (ht | ht) | ⟨bracket, ht⟩ | ht
    · rw [sequenceItems_of_lineBreak hr ht, sequenceItems_of_lineBreak hr' ht,
        leadsOn_within he.leadsOn_eq, ← Cursor.within_past]
      split
      · next hs =>
        have continued hm := (h.closed hm).continued ht (harg hm) (hcar hm) hs
        have hsub : rest ⊆ source.tokens :=
          List.Subset.trans (List.suffix_cons ..).subset h.subset
        exact items level he setting carried ⟨hsub, fun hm => (continued hm).1⟩ harg
          fun hm => (continued hm).2
      · rfl
    · rw [sequenceItems_of_stop hr (.inr ht), sequenceItems_of_stop hr' (.inr ht)]
      rfl
    · have hc : token.lexeme.isClosing = true := by rw [ht]; rfl
      rw [sequenceItems_of_stop hr (.inl hc), sequenceItems_of_stop hr' (.inl hc)]
      rfl
    · rw [sequenceItems_of_starts (hadvances ..) hr ht,
        sequenceItems_of_starts (hadvances ..) hr' ht, ← Cursor.within_past, level.expression ht.2.2 ht.1 h, Option.bind_map, Option.map_bind]
      apply Option.bind_congr
      rintro ⟨item, next⟩ hread
      have hd := (Level.all source n).expression hread
      have hle := hadvances _ _ hread
      have hitems := items level he setting (item.isToken && token.lexeme.isCarrying)
        (h.behind hd ht.2.2 ht.1) harg fun hm hcarry => by
          rw [Bool.and_eq_true] at hcarry
          rw [hd.expression_isToken hcarry.1]
          exact (h.closed hm).visible_of_isCarrying hcarry.2
      dsimp only [Function.comp_apply, Prod.map]
      rw [Node.isToken_map, Token.lexeme_shift, hitems, Option.map_map, Option.map_map]
      rfl
termination_by cursor.rest.length
decreasing_by all_goals simp only [hr, Cursor.past, List.length_cons]; omega

theorem sequence {cursor : Cursor} (level : Embedded source whole k more n)
    (he : Embeds source whole k more) (setting : Setting)
    (h : Confined source whole k opened cursor.rest)
    (harg : source.IsFollowed whole k → setting = .argument → opened ≠ []) :
    readSequence (expressionWithin whole n) setting (cursor.within k more) =
      (readSequence (expressionWithin source n) setting cursor).map
        (Prod.map (Option.map (Node.map (Span.shift k))) (Cursor.within k more)) := by
  have hitems := level.items he setting false h harg (by rintro _ ⟨⟩)
  rw [readSequence, readSequence, hitems]
  cases sequenceItems (expressionWithin source n) setting false cursor with
  | none => rfl
  | some found =>
    dsimp only [Option.map_some, Prod.map]
    rw [collapse_map]

/-- Statements in a longer text are those of the tokens themselves, and behind them those of the
tokens that follow. -/
theorem statements (level : Embedded source whole k more n) (he : Embeds source whole k more)
    (close : Option Bracket) (cursor : Cursor)
    (h : cursor.rest = [] ∨ ∃ opened, Confined source whole k opened cursor.rest) :
    readStatements (expressionWithin whole n) close (cursor.within k more) =
      (readStatements (expressionWithin source n) close cursor).bind fun found =>
        (readStatements (expressionWithin whole n) close (found.2.within k more)).map
          (Prod.map (found.1.map (Node.map (Span.shift k)) ++ ·) id) := by
  have hadvances := expressionWithin_advances
  cases hr : cursor.rest with
  | nil =>
    rw [readStatements_of_nil hr]
    exact Option.map_id'.symm
  | cons token rest =>
    have hr' : (cursor.within k more).rest = token.shift k :: _ := Cursor.rest_within_cons hr
    obtain ⟨opened, h⟩ := h.resolve_left (by rw [hr]; exact List.cons_ne_nil _ _)
    rw [hr] at h
    rcases Setting.statement.lexeme_cases token.lexeme with ht | ⟨bracket, ht⟩ | ht
    · rw [readStatements_of_skip hr ht, readStatements_of_skip hr' ht, ← Cursor.within_past]
      exact statements level he close _ (h.pass ht)
    · rw [readStatements_of_closing hr ht, readStatements_of_closing hr' ht, ← Cursor.within_past]
      split
      · next hc =>
        rw [Option.bind_some, readStatements_of_closing hr' ht, if_pos hc]
        rfl
      · rw [statements level he close _ (h.stray ht), Option.map_bind, Option.bind_map]
        apply Option.bind_congr
        rintro found -
        dsimp only [Function.comp_apply, Prod.map]
        rw [Option.map_map, List.map_cons, Node.map]
        rfl
    · have hcursor : Confined source whole k opened cursor.rest := hr ▸ h
      rw [readStatements_of_starts (hadvances ..) hr ht,
        readStatements_of_starts (hadvances ..) hr' ht, level.sequence he .statement hcursor (by rintro _ ⟨⟩), Option.bind_map, Option.bind_assoc]
      apply Option.bind_congr
      rintro ⟨statement, next⟩ hread
      obtain ⟨items, _, hd⟩ := (Level.all source n).sequence hread
      have hle := (hadvances source n).sequence hr ht hread
      have hnext : Confined source whole k opened next.rest :=
        hcursor.leads hd.suffix fun hsealed =>
          hd.seals opened hsealed (by rintro ⟨⟩) (by rintro ⟨⟩)
      dsimp only [Function.comp_apply, Prod.map]
      rw [statements level he close next (.inr ⟨opened, hnext⟩), Option.map_bind, Option.bind_map]
      apply Option.bind_congr
      rintro found -
      dsimp only [Function.comp_apply, Prod.map]
      rw [Option.map_map, List.map_append, ← Option.toList_map]
      congr 1
      funext behind
      exact Prod.ext (List.append_assoc ..).symm rfl
termination_by cursor.rest.length
decreasing_by all_goals simp only [hr, Cursor.past, List.length_cons]; omega

theorem groupItems {cursor : Cursor} (level : Embedded source whole k more n)
    (he : Embeds source whole k more) (bracket : Bracket)
    (h : Confined source whole k (bracket :: opened) cursor.rest) :
    readGroupItems (expressionWithin whole n) bracket (cursor.within k more) =
      (readGroupItems (expressionWithin source n) bracket cursor).map
        (Prod.map (List.map (Node.map (Span.shift k))) (Cursor.within k more)) := by
  have hadvances := expressionWithin_advances
  cases hr : cursor.rest with
  | nil =>
    rw [readGroupItems_of_nil hr, readGroupItems_of_nil (h.rest_within_nil he hr)]
    rfl
  | cons token rest =>
    have hr' : (cursor.within k more).rest = token.shift k :: _ := Cursor.rest_within_cons hr
    rw [hr] at h
    by_cases hl : token.lexeme = .lineBreak
    · rw [readGroupItems_of_lineBreak hr hl, readGroupItems_of_lineBreak hr' hl,
        ← Cursor.within_past]
      exact groupItems level he bracket (h.leads (List.suffix_cons ..) fun hs =>
        hs.skip .argument (.inl hl) (List.cons_ne_nil _ _))
    cases hc : token.lexeme.isClosing with
    | true =>
      obtain ⟨other, ht⟩ := Lexeme.exists_closing hc
      rw [readGroupItems_of_closing hr ht, readGroupItems_of_closing hr' ht, ← Cursor.within_past]
      split <;> rfl
    | false =>
      rw [readGroupItems_of_starts (hadvances ..) hr hl hc,
        readGroupItems_of_starts (hadvances ..) hr' hl hc, ← Cursor.within_past,
        level.expression hc hl h, Option.bind_map, Option.map_bind]
      apply Option.bind_congr
      rintro ⟨item, next⟩ hread
      have hd := (Level.all source n).expression hread
      have hle := hadvances _ _ hread
      dsimp only [Function.comp_apply, Prod.map]
      rw [groupItems level he bracket (h.behind hd hc hl), Option.map_map, Option.map_map]
      rfl
termination_by cursor.rest.length
decreasing_by all_goals simp only [hr, Cursor.past, List.length_cons]; omega

theorem valueArguments {cursor : Cursor} (level : Embedded source whole k more n)
    (he : Embeds source whole k more)
    (h : Confined source whole k (.round :: opened) cursor.rest) :
    readValueArguments (expressionWithin whole n) (cursor.within k more) =
      (readValueArguments (expressionWithin source n) cursor).map
        (Prod.map (List.map (Node.map (Span.shift k))) (Cursor.within k more)) := by
  have hadvances := expressionWithin_advances
  cases hr : cursor.rest with
  | nil =>
    rw [readValueArguments_of_nil hr, readValueArguments_of_nil (h.rest_within_nil he hr)]
    rfl
  | cons token rest =>
    have hr' : (cursor.within k more).rest = token.shift k :: _ := Cursor.rest_within_cons hr
    rcases Setting.argument.lexeme_cases token.lexeme with ht | ⟨bracket, ht⟩ | ht
    · rw [readValueArguments_of_skip hr ht, readValueArguments_of_skip hr' ht,
        ← Cursor.within_past]
      exact valueArguments level he ((hr ▸ h).leads (List.suffix_cons ..) fun hs =>
        hs.skip .argument ht (List.cons_ne_nil _ _))
    · rw [readValueArguments_of_closing hr ht, readValueArguments_of_closing hr' ht,
        ← Cursor.within_past]
      split <;> rfl
    · have hname : Confined source whole k (.round :: opened) (readArgumentName cursor).2.rest :=
        h.leads (readArgumentName_leads cursor).suffix sealed_readArgumentName
      rw [readValueArguments_of_starts (hadvances ..) hr ht,
        readValueArguments_of_starts (hadvances ..) hr' ht, readArgumentName_within he h]
      dsimp only
      rw [level.sequence he .argument hname fun _ _ => List.cons_ne_nil _ _, Option.bind_map,
        Option.map_bind]
      apply Option.bind_congr
      rintro ⟨expression, next⟩ hread
      obtain ⟨items, _, hd⟩ := (Level.all source n).sequence hread
      have hle := (hadvances source n).argument hr ht hread
      have hnext : Confined source whole k (.round :: opened) next.rest :=
        hname.leads hd.suffix fun hsealed =>
          hd.seals _ hsealed (fun _ => List.cons_ne_nil _ _) (by rintro ⟨⟩)
      dsimp only [Function.comp_apply, Prod.map]
      rw [valueArguments level he hnext]
      cases readValueArguments (expressionWithin source n) next with
      | none => rfl
      | some found =>
        dsimp only [Option.map_some, Prod.map, id]
        rw [List.map_append, ← Option.toList_map, Option.map_map, Option.map_map,
          argumentOutline_comp]
termination_by cursor.rest.length
decreasing_by all_goals simp only [hr, Cursor.past, List.length_cons]; omega

theorem callArguments {cursor : Cursor} (level : Embedded source whole k more n)
    (he : Embeds source whole k more) (h : Confined source whole k opened cursor.rest) :
    readCallArguments (expressionWithin whole n) (cursor.within k more) =
      (readCallArguments (expressionWithin source n) cursor).map
        (Prod.map (Option.map (List.map (Node.map (Span.shift k)))) (Cursor.within k more)) := by
  cases hr : cursor.rest with
  | nil =>
    rw [readCallArguments_of_not_opens (Cursor.not_opens_nil hr _),
      readCallArguments_of_not_opens (Cursor.not_opens_nil (h.rest_within_nil he hr) _)]
    rfl
  | cons token rest =>
    have hr' : (cursor.within k more).rest = token.shift k :: _ := Cursor.rest_within_cons hr
    rw [hr] at h
    by_cases ht : token.lexeme = .opening .round
    · have hinside := h.leads (List.suffix_cons ..) (·.opening ht)
      rw [readCallArguments_of_opens hr ht, readCallArguments_of_opens hr' ht,
        ← Cursor.within_past, level.valueArguments he hinside,
        Option.map_map, Option.map_map]
      rfl
    · rw [readCallArguments_of_not_opens (Cursor.not_opens_cons hr ht),
        readCallArguments_of_not_opens (Cursor.not_opens_cons hr' ht)]
      rfl

theorem trailingLambda {cursor : Cursor} (level : Embedded source whole k more n)
    (he : Embeds source whole k more) (h : Confined source whole k opened cursor.rest) :
    readTrailingLambda (lambdaWithin whole n) (cursor.within k more) =
      (readTrailingLambda (lambdaWithin source n) cursor).map
        (Prod.map (Option.map (Node.map (Span.shift k))) (Cursor.within k more)) := by
  cases hr : cursor.rest with
  | nil =>
    rw [readTrailingLambda_of_not_opens (Cursor.not_opens_nil hr _),
      readTrailingLambda_of_not_opens (Cursor.not_opens_nil (h.rest_within_nil he hr) _)]
    rfl
  | cons token rest =>
    have hr' : (cursor.within k more).rest = token.shift k :: _ := Cursor.rest_within_cons hr
    rw [hr] at h
    by_cases ht : token.lexeme = .opening .curly
    · rw [readTrailingLambda_of_opens hr ht, readTrailingLambda_of_opens hr' ht,
        ← Cursor.within_past, level.lambda (h.leads (List.suffix_cons ..) (·.opening ht)),
        Option.map_map, Option.map_map]
      rfl
    · rw [readTrailingLambda_of_not_opens (Cursor.not_opens_cons hr ht),
        readTrailingLambda_of_not_opens (Cursor.not_opens_cons hr' ht)]
      rfl

theorem named {cursor : Cursor} (level : Embedded source whole k more n)
    (he : Embeds source whole k more) (h : Confined source whole k opened cursor.rest)
    (text : String) (span : Span) :
    readNamed (interiorWithin whole n) text (span.shift k) (cursor.within k more) =
      (readNamed (interiorWithin source n) text span cursor).map
        (Prod.map (Node.map (Span.shift k)) (Cursor.within k more)) := by
  rw [readNamed, readNamed, readTypeArguments_within he h]
  cases ht : readTypeArguments cursor with
  | mk types behindTypes =>
    have hbehind : Confined source whole k opened behindTypes.rest :=
      h.leads (readTypeArguments_leads ht).suffix (sealed_readTypeArguments ht)
    dsimp only
    rw [interiorWithin_argument, interiorWithin_argument, level.callArguments he hbehind]
    cases ha : readCallArguments (expressionWithin source n) behindTypes with
    | none => rfl
    | some found =>
      obtain ⟨arguments, behindArguments⟩ := found
      have hd := (Level.all source n).callArguments ha
      have hlast : Confined source whole k opened behindArguments.rest :=
        hbehind.leads hd.suffix (hd.seals opened)
      dsimp only [Option.map_some, Prod.map]
      rw [interiorWithin_lambda, interiorWithin_lambda, level.trailingLambda he hlast]
      cases readTrailingLambda (lambdaWithin source n) behindArguments with
      | none => rfl
      | some found =>
        dsimp only [Option.map_some, Prod.map]
        rw [List.isEmpty_map, Option.isNone_map, Option.isNone_map]
        split
        · rw [Option.map_some, Prod.map, Node.map]
        · rw [Option.map_some, Prod.map, Node.map_call, Node.map]
          cases arguments <;> rfl

theorem primary {token : Token} {cursor : Cursor} (level : Embedded source whole k more n)
    (he : Embeds source whole k more) (hl : token.lexeme ≠ .lineBreak)
    (h : Confined source whole k opened (token :: cursor.rest)) :
    readPrimary (interiorWithin whole n) (token.shift k) (cursor.within k more) =
      (readPrimary (interiorWithin source n) token cursor).map
        (Prod.map (Node.map (Span.shift k)) (Cursor.within k more)) := by
  have hinside {bracket : Bracket} (ht : token.lexeme = .opening bracket) :
      Confined source whole k (bracket :: opened) cursor.rest :=
    h.leads (List.suffix_cons ..) (·.opening ht)
  rw [readPrimary, readPrimary, Token.lexeme_shift]
  split
  · next ht =>
    exact level.named he (h.leads (List.suffix_cons ..) (·.past hl (by rw [ht]; rfl))) ..
  · next ht => exact level.lambda (hinside ht)
  · next ht => exact level.group (hinside ht)
  all_goals
    rw [Option.map_some, Prod.map, Node.map]
    rfl

theorem suffixes {cursor : Cursor} (level : Embedded source whole k more n)
    (he : Embeds source whole k more) (node : Outline)
    (h : Confined source whole k opened cursor.rest) :
    readSuffixes (interiorWithin whole n) (node.map (Span.shift k)) (cursor.within k more) =
      (readSuffixes (interiorWithin source n) node cursor).map
        (Prod.map (Node.map (Span.shift k)) (Cursor.within k more)) := by
  cases hm : memberAhead? cursor with
  | some member =>
    obtain ⟨_, _, _, _, ha⟩ := exists_of_memberAhead? hm
    obtain ⟨_, _, hs⟩ := memberAhead?_suffix hm
    have hmember : Confined source whole k opened member.next.rest :=
      h.leads (((List.suffix_cons ..).trans (List.suffix_cons ..)).trans hs) ha.sealed
    have hm' : memberAhead? (cursor.within k more) = some (member.within k more) := by
      rw [memberAhead?_within he h, hm]
      rfl
    rw [readSuffixes_of_member hm fun _ _ => readNamed_length_le,
      readSuffixes_of_member hm' fun _ _ => readNamed_length_le]
    dsimp only [Member.within]
    rw [level.named he hmember, Option.bind_map, Option.map_bind]
    apply Option.bind_congr
    rintro ⟨selector, next⟩ hread
    have hd := (Level.all source n).named hread
    have hnext : Confined source whole k opened next.rest :=
      hmember.leads hd.suffix (hd.seals opened)
    have hlt := length_lt_of_member hm hread
    have hsuffixes := suffixes level he (.memberAccess ⟨node.info.start, selector.info.stop⟩ node
      selector member.safe) hnext
    rw [Node.map] at hsuffixes
    dsimp only [Function.comp_apply, Prod.map]
    rw [Node.info_map, Node.info_map]
    exact hsuffixes
  | none =>
    have hm' : memberAhead? (cursor.within k more) = none := by
      rw [memberAhead?_within he h, hm]
      rfl
    by_cases hi : cursor.Indexed
    · obtain ⟨token, rest, hr, ht, ha⟩ := hi
      have hinside : Confined source whole k (.square :: opened) (Cursor.past token rest).rest :=
        (hr ▸ h).leads (List.suffix_cons ..) (·.opening ht)
      rw [readSuffixes_of_index hm hr ht ha (groupWithin_advances ..),
        readSuffixes_of_index hm' (Cursor.rest_within_cons hr) ht (touches_within.2 ha)
          (groupWithin_advances ..), ← Cursor.within_past, interiorWithin_group,
        interiorWithin_group, level.group hinside, Option.bind_map, Option.map_bind]
      apply Option.bind_congr
      rintro ⟨index, next⟩ hread
      have hd := (Level.all source n).group hread
      have hnext : Confined source whole k opened next.rest :=
        hinside.leads hd.suffix (hd.seals opened)
      have hlt : next.rest.length < cursor.rest.length := by
        rw [hr]
        exact Nat.lt_succ_of_le hd.suffix.length_le
      have hsuffixes := suffixes level he (.sequence ⟨node.info.start, index.info.stop⟩
        [node, index]) hnext
      rw [Node.map] at hsuffixes
      dsimp only [Function.comp_apply, Prod.map]
      rw [Node.info_map, Node.info_map]
      exact hsuffixes
    · rw [readSuffixes_of_none hm hi, readSuffixes_of_none hm' (mt (h.indexed_within he).1 hi)]
      rfl
termination_by cursor.rest.length
decreasing_by all_goals exact hlt

theorem statements_stop {stop : Cursor} (he : Embeds source whole k more) (read : Reader)
    {close : Option Bracket} (h : Confined source whole k opened stop.rest)
    (hs : stop.rest = [] ∨ ∃ token rest bracket, stop.rest = token :: rest ∧
      token.lexeme = .closing bracket ∧ close = some bracket) :
    readStatements read close (stop.within k more) = some ([], stop.within k more) := by
  rcases hs with hr | ⟨token, rest, bracket, hr, ht, rfl⟩
  · exact readStatements_of_nil (h.rest_within_nil he hr) close
  · rw [readStatements_of_closing (Cursor.rest_within_cons hr) ht, if_pos rfl]

theorem lambdaOutline_map {stop : Cursor} (he : Embeds source whole k more)
    (h : Confined source whole k opened stop.rest) (token : Token) (parameters : Option String)
    (body : List Outline) :
    (lambdaOutline source token parameters body stop).map (Span.shift k) =
      lambdaOutline whole (token.shift k) parameters (body.map (Node.map (Span.shift k)))
        (stop.within k more) := by
  have hend (node? : Option Outline) (part : Outline → Nat) (fallback : Nat)
      (hp : ∀ node : Outline, part (node.map (Span.shift k)) = part node + k) :
      ((node?.map (Node.map (Span.shift k))).map part).getD (fallback + k) =
        (node?.map part).getD fallback + k := by
    cases node? with
    | none => rfl
    | some node => exact hp node
  have hstart := hend body.head? (·.info.start) (stop.nextStart source.size) fun node => by
    rw [Node.info_map]
    rfl
  have hstop := hend body.getLast? (·.info.stop) ((body.head?.map (·.info.start)).getD
    (stop.nextStart source.size)) fun node => by
      rw [Node.info_map]
      rfl
  simp only [lambdaOutline, nextStart_within he h, skipClosing_within he h, List.head?_map,
    List.getLast?_map, hstart, hstop, Node.map]
  simp only [Span.shift, Token.shift, Cursor.within, Nat.add_max_add_right]

theorem succ (level : Embedded source whole k more n) (he : Embeds source whole k more) :
    Embedded source whole k more (n + 1) where
  expression {opened token cursor} hc hl h := by
    rw [expressionWithin_succ, expressionWithin_succ, readExpression, readExpression,
      level.primary he hl h]
    cases hread : readPrimary (interiorWithin source n) token cursor with
    | none => rfl
    | some found =>
      obtain ⟨node, next⟩ := found
      have hd := (Level.all source n).primary hread
      have hnext : Confined source whole k opened next.rest :=
        h.leads (hd.suffix.trans (List.suffix_cons ..)) (hd.seals opened hc hl)
      exact level.suffixes he node hnext
  lambda {opened token cursor} h := by
    rw [lambdaWithin_succ, lambdaWithin_succ, readLambda, readLambda, readParameters_within he h]
    cases hp : readParameters source cursor with
    | mk parameters mid =>
      obtain ⟨count, hmid⟩ := h.parameters hp
      dsimp only
      rw [level.statements he (some .curly) mid (.inr ⟨_, hmid⟩)]
      cases hread : readStatements (expressionWithin source n) (some .curly) mid with
      | none => rfl
      | some found =>
        obtain ⟨body, stop⟩ := found
        have hd := (Level.all source n).statements hread
        have hstop : Confined source whole k (.curly :: opened) stop.rest :=
          hmid.leads hd.suffix (hd.seals rfl opened count)
        rw [Option.bind_some, statements_stop he _ hstop hd.statements_stop]
        dsimp only [Option.map_some, Prod.map, id]
        rw [List.append_nil]
        refine congrArg some (Prod.ext ?_ (skipClosing_within he hstop .curly))
        exact (lambdaOutline_map he hstop token parameters body).symm
  group {opened bracket token cursor} h := by
    rw [groupWithin_succ, groupWithin_succ, readGroup, readGroup, level.groupItems he bracket h]
    cases readGroupItems (expressionWithin source n) bracket cursor with
    | none => rfl
    | some found =>
      dsimp only [Option.map_some, Prod.map]
      rw [Node.map]
      rfl

theorem all (he : Embeds source whole k more) : ∀ n, Embedded source whole k more n
  | 0 => ⟨fun _ _ _ => rfl, fun _ => rfl, fun _ => rfl⟩
  | n + 1 => (all he n).succ he

end Embedded

end StateDiagram
