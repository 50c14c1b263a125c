import StateDiagram.Proofs.Passage

namespace StateDiagram

set_option autoImplicit true

/-- What is read, from a cursor to the next. Expressions, lambdas and groups are read behind their
first token. -/
inductive Phrase where
  | expression (token : Token) (cursor : Cursor) (node : Outline) (next : Cursor)
  | primary (token : Token) (cursor : Cursor) (node : Outline) (next : Cursor)
  | suffixes (node : Outline) (cursor : Cursor) (result : Outline) (next : Cursor)
  | named (text : String) (span : Span) (cursor : Cursor) (node : Outline) (next : Cursor)
  | callArguments (cursor : Cursor) (arguments : Option (List Outline)) (next : Cursor)
  | trailingLambda (cursor : Cursor) (lambda : Option Outline) (next : Cursor)
  | valueArguments (cursor : Cursor) (arguments : List Outline) (next : Cursor)
  | items (setting : Setting) (carried : Bool) (cursor : Cursor) (items : List Outline)
      (next : Cursor)
  | statements (close : Option Bracket) (cursor : Cursor) (nodes : List Outline) (next : Cursor)
  | lambda (token : Token) (cursor : Cursor) (node : Outline) (next : Cursor)
  | group (bracket : Bracket) (token : Token) (cursor : Cursor) (node : Outline) (next : Cursor)
  | groupItems (bracket : Bracket) (cursor : Cursor) (items : List Outline) (next : Cursor)

def Lexeme.isLiteral : Lexeme → Bool
  | .character _ | .number _ => true
  | _ => false

def Lexeme.isOpening : Lexeme → Bool
  | .opening _ => true
  | _ => false

/-- A lexeme that is a node of its own wherever an expression is read. -/
def Lexeme.isSymbol : Lexeme → Bool
  | .lineBreak | .operator _ | .closing _ | .unknown _ => true
  | _ => false

/-- A lexeme that starts an item of a sequence. -/
def Setting.Starts (setting : Setting) (lexeme : Lexeme) : Prop :=
  lexeme ≠ .lineBreak ∧ lexeme ≠ setting.separator ∧ lexeme.isClosing = false

def Cursor.opens (bracket : Bracket) (cursor : Cursor) : Prop :=
  ∃ token rest, cursor.rest = token :: rest ∧ token.lexeme = .opening bracket

/-- Whether an index bracket stands right behind what was read. -/
def Cursor.Indexed (cursor : Cursor) : Prop :=
  ∃ token rest, cursor.rest = token :: rest ∧ token.lexeme = .opening .square ∧
    token.span.start = cursor.previousEnd

/-- The tree of a lambda whose statements were read up to `stop`. -/
def lambdaOutline (source : Source) (token : Token) (parameters : Option String)
    (body : List Outline) (stop : Cursor) : Outline :=
  let bodyStart := (body.head?.map (·.info.start)).getD (stop.nextStart source.size)
  let bodyStop := (body.getLast?.map (·.info.stop)).getD bodyStart
  .lambda ⟨token.span.start, max (stop.skipClosing .curly).previousEnd bodyStop⟩ parameters
    (.block ⟨bodyStart, bodyStop⟩ body)

def argumentOutline (token : Token) (name : Option String) (expression : Outline) : Outline :=
  .valueArgument ⟨token.span.start, expression.info.stop⟩ name expression

/-- What is gathered from children is gathered whether or not they are collapsed. -/
theorem flatMap_collapse {gather : Outline → List β}
    (h : ∀ span nodes, gather (.sequence span nodes) = nodes.flatMap gather)
    (nodes : List Outline) : (collapse nodes).toList.flatMap gather = nodes.flatMap gather := by
  match nodes with
  | [] | [_] => rfl
  | first :: second :: more =>
    rw [collapse, Option.toList_some, List.flatMap_singleton, h]

theorem flatMap_argumentOutline {gather : Outline → List β}
    (h : ∀ span name expression, gather (.valueArgument span name expression) = gather expression)
    (token : Token) (name : Option String) (node : Option Outline) :
    (node.map (argumentOutline token name)).toList.flatMap gather = node.toList.flatMap gather := by
  cases node with
  | none => rfl
  | some expression =>
    rw [Option.map_some, Option.toList_some, Option.toList_some, List.flatMap_singleton,
      List.flatMap_singleton, argumentOutline, h]

inductive Derives (source : Source) : Nat → Phrase → Prop where
  | expression (hp : Derives source n (.primary token cursor node mid))
      (hs : Derives source n (.suffixes node mid result next)) :
      Derives source (n + 1) (.expression token cursor result next)
  | name (ht : token.lexeme = .identifier text)
      (hn : Derives source n (.named text token.span cursor node next)) :
      Derives source n (.primary token cursor node next)
  | braces (ht : token.lexeme = .opening .curly)
      (hl : Derives source n (.lambda token cursor node next)) :
      Derives source n (.primary token cursor node next)
  | brackets (ht : token.lexeme = .opening bracket) (hb : bracket ≠ .curly)
      (hg : Derives source n (.group bracket token cursor node next)) :
      Derives source n (.primary token cursor node next)
  | string (ht : token.lexeme = .string text) :
      Derives source n
        (.primary token cursor (.stringLiteral token.span (stringContent text)) cursor)
  | literal (ht : token.lexeme.isLiteral = true) :
      Derives source n (.primary token cursor (.literal token.span) cursor)
  | symbol (ht : token.lexeme.isSymbol = true) :
      Derives source n (.primary token cursor (.token token.span) cursor)
  | noSuffix (hm : memberAhead? cursor = none) (hi : ¬ cursor.Indexed) :
      Derives source n (.suffixes node cursor node cursor)
  | member (hm : memberAhead? cursor = some member)
      (hn : Derives source n (.named member.text member.span member.next selector mid))
      (hs : Derives source n (.suffixes
        (.memberAccess ⟨node.info.start, selector.info.stop⟩ node selector member.safe) mid
        result next)) :
      Derives source n (.suffixes node cursor result next)
  | index (hm : memberAhead? cursor = none) (hr : cursor.rest = token :: rest)
      (ht : token.lexeme = .opening .square) (ha : token.span.start = cursor.previousEnd)
      (hg : Derives source n (.group .square token (.past token rest) group mid))
      (hs : Derives source n (.suffixes
        (.sequence ⟨node.info.start, group.info.stop⟩ [node, group]) mid result next)) :
      Derives source n (.suffixes node cursor result next)
  | identifier (ht : readTypeArguments cursor = ([], behindTypes))
      (ha : Derives source n (.callArguments behindTypes none behindArguments))
      (hl : Derives source n (.trailingLambda behindArguments none next)) :
      Derives source n (.named text span cursor (.identifier span (bareName text)) next)
  | call (ht : readTypeArguments cursor = (types, behindTypes))
      (ha : Derives source n (.callArguments behindTypes arguments behindArguments))
      (hl : Derives source n (.trailingLambda behindArguments lambda next))
      (hc : (types.isEmpty && arguments.isNone && lambda.isNone) = false) :
      Derives source n (.named text span cursor
        (.call ⟨span.start, next.previousEnd⟩ (.identifier span (bareName text)) types
          (arguments.getD []) lambda) next)
  | noArguments (ho : ¬ cursor.opens .round) :
      Derives source n (.callArguments cursor none cursor)
  | arguments (hr : cursor.rest = token :: rest) (ht : token.lexeme = .opening .round)
      (ha : Derives source n (.valueArguments (.past token rest) arguments next)) :
      Derives source n (.callArguments cursor (some arguments) next)
  | noLambda (ho : ¬ cursor.opens .curly) :
      Derives source n (.trailingLambda cursor none cursor)
  | trailing (hr : cursor.rest = token :: rest) (ht : token.lexeme = .opening .curly)
      (hl : Derives source n (.lambda token (.past token rest) lambda next)) :
      Derives source n (.trailingLambda cursor (some lambda) next)
  | argumentsEnd (hr : cursor.rest = []) :
      Derives source n (.valueArguments cursor [] cursor)
  | argumentsSkip (hr : cursor.rest = token :: rest)
      (ht : token.lexeme = .lineBreak ∨ token.lexeme = Setting.argument.separator)
      (ha : Derives source n (.valueArguments (.past token rest) arguments next)) :
      Derives source n (.valueArguments cursor arguments next)
  | argumentsClose (hr : cursor.rest = token :: rest) (ht : token.lexeme = .closing bracket) :
      Derives source n
        (.valueArguments cursor [] (if bracket = .round then .past token rest else cursor))
  | argument (hr : cursor.rest = token :: rest) (ht : Setting.argument.Starts token.lexeme)
      (hi : Derives source n
        (.items .argument false (readArgumentName cursor).2 items mid))
      (ha : Derives source n (.valueArguments mid arguments next)) :
      Derives source n (.valueArguments cursor
        (((collapse items).map (argumentOutline token (readArgumentName cursor).1)).toList ++
          arguments) next)
  | itemsEnd (hr : cursor.rest = []) :
      Derives source n (.items setting carried cursor [] cursor)
  | itemsStop (hr : cursor.rest = token :: rest)
      (ht : token.lexeme.isClosing = true ∨ token.lexeme = setting.separator) :
      Derives source n (.items setting carried cursor [] cursor)
  | itemsBreak (hr : cursor.rest = token :: rest) (ht : token.lexeme = .lineBreak)
      (hs : (setting == .argument || carried || leadsOn rest) = false) :
      Derives source n (.items setting carried cursor [] cursor)
  | itemsContinue (hr : cursor.rest = token :: rest) (ht : token.lexeme = .lineBreak)
      (hs : (setting == .argument || carried || leadsOn rest) = true)
      (hi : Derives source n (.items setting carried (.past token rest) items next)) :
      Derives source n (.items setting carried cursor items next)
  | item (hr : cursor.rest = token :: rest) (ht : setting.Starts token.lexeme)
      (he : Derives source n (.expression token (.past token rest) item mid))
      (hi : Derives source n
        (.items setting (item.isToken && token.lexeme.isCarrying) mid items next)) :
      Derives source n (.items setting carried cursor (item :: items) next)
  | statementsEnd (hr : cursor.rest = []) :
      Derives source n (.statements close cursor [] cursor)
  | statementsSkip (hr : cursor.rest = token :: rest)
      (ht : token.lexeme = .lineBreak ∨ token.lexeme = Setting.statement.separator)
      (hs : Derives source n (.statements close (.past token rest) nodes next)) :
      Derives source n (.statements close cursor nodes next)
  | statementsClose (hr : cursor.rest = token :: rest) (ht : token.lexeme = .closing bracket)
      (hc : close = some bracket) :
      Derives source n (.statements close cursor [] cursor)
  | stray (hr : cursor.rest = token :: rest) (ht : token.lexeme = .closing bracket)
      (hc : close ≠ some bracket)
      (hs : Derives source n (.statements close (.past token rest) nodes next)) :
      Derives source n (.statements close cursor (.token token.span :: nodes) next)
  | statement (hr : cursor.rest = token :: rest) (ht : Setting.statement.Starts token.lexeme)
      (hi : Derives source n (.items .statement false cursor items mid))
      (hs : Derives source n (.statements close mid nodes next)) :
      Derives source n (.statements close cursor ((collapse items).toList ++ nodes) next)
  | lambda (hp : readParameters source cursor = (parameters, mid))
      (hs : Derives source n (.statements (some .curly) mid body stop)) :
      Derives source (n + 1) (.lambda token cursor
        (lambdaOutline source token parameters body stop) (stop.skipClosing .curly))
  | group (hg : Derives source n (.groupItems bracket cursor items next)) :
      Derives source (n + 1) (.group bracket token cursor
        (.group ⟨token.span.start, next.previousEnd⟩ items) next)
  | groupEnd (hr : cursor.rest = []) :
      Derives source n (.groupItems bracket cursor [] cursor)
  | groupSkip (hr : cursor.rest = token :: rest) (ht : token.lexeme = .lineBreak)
      (hg : Derives source n (.groupItems bracket (.past token rest) items next)) :
      Derives source n (.groupItems bracket cursor items next)
  | groupClose (hr : cursor.rest = token :: rest) (ht : token.lexeme = .closing close) :
      Derives source n (.groupItems bracket cursor []
        (if close = bracket then .past token rest else cursor))
  | groupItem (hr : cursor.rest = token :: rest) (ht : token.lexeme ≠ .lineBreak)
      (hc : token.lexeme.isClosing = false)
      (he : Derives source n (.expression token (.past token rest) item mid))
      (hg : Derives source n (.groupItems bracket mid items next)) :
      Derives source n (.groupItems bracket cursor (item :: items) next)

def Phrase.cursors : Phrase → Cursor × Cursor
  | .expression _ cursor _ next | .primary _ cursor _ next | .suffixes _ cursor _ next
  | .named _ _ cursor _ next | .callArguments cursor _ next | .trailingLambda cursor _ next
  | .valueArguments cursor _ next | .items _ _ cursor _ next | .statements _ cursor _ next
  | .lambda _ cursor _ next | .group _ _ cursor _ next | .groupItems _ cursor _ next =>
    (cursor, next)

theorem Derives.leads (h : Derives source n phrase) :
    phrase.cursors.1.Leads phrase.cursors.2 := by
  induction h with
  | expression _ _ ihp ihs => exact ihp.trans ihs
  | name _ _ ih | braces _ _ ih | brackets _ _ _ ih | group _ ih => exact ih
  | string | literal | symbol | noSuffix | noArguments | noLambda | argumentsEnd | itemsEnd
  | itemsStop | itemsBreak | statementsEnd | statementsClose | groupEnd => exact .refl
  | member hm _ _ ihn ihs =>
    obtain ⟨_, _, _, _, ha⟩ := exists_of_memberAhead? hm
    exact ha.leads.trans (ihn.trans ihs)
  | index _ hr _ _ _ _ ihg ihs => exact (Cursor.Leads.head hr).trans (ihg.trans ihs)
  | identifier ht _ _ iha ihl | call ht _ _ _ iha ihl =>
    exact (readTypeArguments_leads ht).trans (iha.trans ihl)
  | arguments hr _ _ ih | trailing hr _ _ ih | argumentsSkip hr _ _ ih | itemsContinue hr _ _ _ ih
  | statementsSkip hr _ _ ih | stray hr _ _ _ ih | groupSkip hr _ _ ih =>
    exact (Cursor.Leads.head hr).trans ih
  | argumentsClose hr | groupClose hr =>
    simp only [Phrase.cursors]
    split
    · exact .head hr
    · exact .refl
  | argument _ _ _ _ ihi iha => exact (readArgumentName_leads _).trans (ihi.trans iha)
  | item hr _ _ _ ihe ihi => exact (Cursor.Leads.head hr).trans (ihe.trans ihi)
  | statement _ _ _ _ ihi ihs => exact ihi.trans ihs
  | lambda hp _ ih => exact (readParameters_leads hp).trans (ih.trans (skipClosing_leads ..))
  | groupItem hr _ _ _ _ ihe ihg => exact (Cursor.Leads.head hr).trans (ihe.trans ihg)

/-- Reading never goes back. -/
theorem Derives.suffix (h : Derives source n phrase) :
    phrase.cursors.2.rest <:+ phrase.cursors.1.rest := h.leads.suffix

/-- A name that is not called is read on its own: a list of types would be followed by a call. -/
theorem Derives.next_eq_of_identifier (ht : readTypeArguments cursor = (types, behindTypes))
    (ha : Derives source n (.callArguments behindTypes none behindArguments))
    (hl : Derives source n (.trailingLambda behindArguments none next)) : next = cursor := by
  cases ha with
  | noArguments hround =>
    cases hl with
    | noLambda hcurly =>
      cases typesRead ht with
      | none => rfl
      | list hlist =>
        obtain ⟨bracket, back, hr, hb⟩ := exists_of_opensCall hlist.opens
        rcases hb with hb | hb
        · exact (hround ⟨bracket, back, hr, hb⟩).elim
        · exact (hcurly ⟨bracket, back, hr, hb⟩).elim

theorem Derives.statements_stop
    (h : Derives source n (.statements close cursor nodes next)) :
    next.rest = [] ∨ ∃ token rest bracket, next.rest = token :: rest ∧
      token.lexeme = .closing bracket ∧ close = some bracket := by
  generalize hp : Phrase.statements close cursor nodes next = phrase at h
  induction h generalizing cursor nodes with
  | statementsEnd hr =>
    cases hp
    exact .inl hr
  | statementsClose hr ht hc =>
    cases hp
    exact .inr ⟨_, _, _, hr, ht, hc⟩
  | statementsSkip _ _ _ ih | stray _ _ _ _ ih | statement _ _ _ _ _ ih =>
    cases hp
    exact ih rfl
  | _ => cases hp

theorem Derives.statement_of_starts (h : Derives source n (.statements close cursor nodes next))
    (hr : cursor.rest = token :: rest) (hs : Setting.statement.Starts token.lexeme) :
    ∃ items mid more, Derives source n (.items .statement false cursor items mid) ∧
      Derives source n (.statements close mid more next) := by
  cases h with
  | statementsEnd he =>
    rw [hr] at he
    cases he
  | statementsSkip he ht =>
    rw [hr] at he
    cases he
    rcases ht with ht | ht
    · exact (hs.1 ht).elim
    · exact (hs.2.1 ht).elim
  | statementsClose he ht | stray he ht =>
    rw [hr] at he
    cases he
    have hc := hs.2.2
    rw [ht] at hc
    cases hc
  | statement _ _ hi hn => exact ⟨_, _, _, hi, hn⟩

theorem Derives.item_of_starts (h : Derives source n (.items setting carried cursor items next))
    (hr : cursor.rest = token :: rest) (hs : setting.Starts token.lexeme) :
    ∃ item mid more, Derives source n (.expression token (.past token rest) item mid) ∧
      Derives source n
        (.items setting (item.isToken && token.lexeme.isCarrying) mid more next) := by
  cases h with
  | itemsEnd he =>
    rw [hr] at he
    cases he
  | itemsStop he ht =>
    rw [hr] at he
    cases he
    rcases ht with ht | ht
    · rw [hs.2.2] at ht
      cases ht
    · exact (hs.2.1 ht).elim
  | itemsBreak he ht | itemsContinue he ht =>
    rw [hr] at he
    cases he
    exact (hs.1 ht).elim
  | item he _ hd hi =>
    rw [hr] at he
    cases he
    exact ⟨_, _, _, hd, hi⟩

theorem Derives.named_of_identifier (h : Derives source n (.expression token cursor node next))
    (ht : token.lexeme = .identifier text) :
    ∃ m inner mid, n = m + 1 ∧ Derives source m (.named text token.span cursor inner mid) ∧
      Derives source m (.suffixes inner mid node next) := by
  cases h with
  | expression hp hs =>
    cases hp with
    | name he hn =>
      rw [ht] at he
      cases he
      exact ⟨_, _, _, rfl, hn, hs⟩
    | braces he | brackets he | string he =>
      rw [ht] at he
      cases he
    | literal he | symbol he =>
      rw [ht] at he
      cases he

theorem Derives.suffixes_of_member (h : Derives source n (.suffixes node cursor result next))
    {member : Member} (hm : memberAhead? cursor = some member) :
    ∃ selector mid, Derives source n (.named member.text member.span member.next selector mid) ∧
      Derives source n (.suffixes (.memberAccess ⟨node.info.start, selector.info.stop⟩ node selector
        member.safe) mid result next) := by
  cases h with
  | noSuffix he | index he =>
    rw [hm] at he
    cases he
  | member he hn hs =>
    rw [hm] at he
    cases he
    exact ⟨_, _, hn, hs⟩

theorem Derives.items_suffix (h : Derives source n (.items setting carried cursor items next))
    (hr : cursor.rest = token :: rest) (ht : setting.Starts token.lexeme) :
    next.rest <:+ rest := by
  obtain ⟨item, mid, more, he, hi⟩ := h.item_of_starts hr ht
  exact hi.suffix.trans he.suffix

theorem Derives.argument_suffix
    (h : Derives source n (.items .argument carried (readArgumentName cursor).2 items next))
    (hr : cursor.rest = token :: rest) (ht : Setting.argument.Starts token.lexeme) :
    next.rest <:+ rest := by
  rcases readArgumentName_eq cursor with hn | ⟨_, _, _, _, hr', _, _, hn⟩
  · rw [hn] at h
    exact h.items_suffix hr ht
  · rw [hr] at hr'
    cases hr'
    rw [hn] at h
    exact h.suffix.trans (List.suffix_cons ..)

end StateDiagram
