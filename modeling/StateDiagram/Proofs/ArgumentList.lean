import StateDiagram.Proofs.Allowance
import StateDiagram.Proofs.Composition
import StateDiagram.Proofs.Fence

namespace StateDiagram

set_option autoImplicit true

/-- The node that is read ends no earlier than the last token that is read for it. -/
def Phrase.Ends : Phrase → Prop
  | .expression token cursor node next | .primary token cursor node next =>
    cursor.previousEnd = token.span.stop → next.previousEnd ≤ node.info.stop
  | .named _ span cursor node next =>
    cursor.previousEnd = span.stop → next.previousEnd ≤ node.info.stop
  | .suffixes node cursor result next =>
    cursor.previousEnd ≤ node.info.stop → next.previousEnd ≤ result.info.stop
  | .lambda _ _ node next | .group _ _ _ node next => next.previousEnd ≤ node.info.stop
  | _ => True

theorem Derives.ends (h : Derives source n phrase) : phrase.Ends := by
  induction h with
  | expression _ _ ihp ihs => exact fun h => ihs (ihp h)
  | name _ _ ih => exact ih
  | braces _ _ ih | brackets _ _ _ ih => exact fun _ => ih
  | string | literal | symbol => exact fun h => Nat.le_of_eq h
  | noSuffix => exact id
  | member hm _ _ ihn ihs =>
    obtain ⟨_, _, name, _, ha⟩ := exists_of_memberAhead? hm
    have hnext := congrArg Cursor.previousEnd ha.next_eq
    rw [Cursor.past, ha.span_eq] at hnext
    exact fun _ => ihs (ihn hnext)
  | index _ _ _ _ _ _ ihg ihs => exact fun _ => ihs ihg
  | identifier ht ha hl =>
    obtain rfl := ha.next_eq_of_identifier ht hl
    exact Nat.le_of_eq
  | call => exact fun _ => Nat.le_refl _
  | lambda => exact Nat.le_max_left _ _
  | group => exact Nat.le_refl _
  | _ => trivial

/-- An expression that more tokens follow ends with the last token that is read for it. -/
theorem Derives.info_expression {node : Outline}
    (h : Derives source n (.expression token cursor node next))
    (ht : token.span.Heads source cursor) (hr : next.rest ≠ []) :
    node.info = ⟨token.span.start, next.previousEnd⟩ := by
  have hspan := h.spanned ht
  have hends : next.previousEnd ≤ node.info.stop := h.ends ht.previousEnd_eq
  obtain ⟨behind, rest, hr⟩ := List.exists_cons_of_ne_nil hr
  have hle := hspan.stop_le
  rw [Cursor.reach_of_cons hr] at hle
  have hstop : node.info.stop = next.previousEnd := Nat.le_antisymm hle hends
  rw [← hspan.start_eq, ← hstop]

theorem Cursor.Halts.exists_last {token : Token} {rest : List Token} {next : Cursor}
    (h : (Cursor.past token rest).Halts next) (ht : token.lexeme ≠ .lineBreak) :
    ∃ more last, rest = more ++ next.rest ∧ (token :: more).getLast? = some last ∧
      last.lexeme ≠ .lineBreak ∧ next.previousEnd = last.span.stop := by
  rcases h with rfl | ⟨passed, last, behind, hr, rfl, hl⟩
  · exact ⟨[], token, rfl, rfl, ht, rfl⟩
  · refine ⟨passed ++ [last], last, ?_, ?_, hl, rfl⟩
    · rw [List.append_assoc]
      exact hr
    · rw [← List.cons_append, List.getLast?_concat]

namespace Guarded

variable {token : Token} {tokens : List Token}

theorem not_endsArgument (h : Guarded [] (token :: tokens)) : ¬ token.lexeme.EndsArgument := by
  intro hs
  cases h with
  | opening ht =>
    rw [ht] at hs
    rcases hs with hs | hs <;> cases hs
  | plain hb hc =>
    rcases hs with hs | hs
    · exact (hc rfl).1 hs
    · rw [Lexeme.isClosing_of_not_isBracket hb] at hs
      cases hs

theorem tail (h : Guarded [] (token :: tokens)) (hb : token.lexeme.isBracket = false) :
    Guarded [] tokens := by
  cases h with
  | opening ht =>
    rw [ht] at hb
    cases hb
  | plain _ _ h => exact h

end Guarded

section

variable {stop token : Token} {behind rest tokens : List Token} {cursor next : Cursor}
  {items nodes : List Outline}

/-- In front of the token at which an argument stops, a token that does not stop one is part of
it. -/
theorem exists_cons_of_append (hs : stop.lexeme.EndsArgument) (ht : ¬ token.lexeme.EndsArgument)
    (h : tokens ++ stop :: behind = token :: rest) :
    ∃ more, tokens = token :: more ∧ rest = more ++ stop :: behind := by
  cases tokens with
  | nil =>
    obtain ⟨rfl, -⟩ := List.cons.inj h
    exact (ht hs).elim
  | cons first more =>
    obtain ⟨rfl, rfl⟩ := List.cons.inj h
    exact ⟨more, rfl, rfl⟩

theorem eq_nil_of_endsArgument (hg : Guarded [] tokens) (ht : token.lexeme.EndsArgument)
    (h : tokens ++ stop :: behind = token :: rest) : tokens = [] := by
  cases tokens with
  | nil => rfl
  | cons first more =>
    obtain ⟨rfl, -⟩ := List.cons.inj h
    exact (hg.not_endsArgument ht).elim

theorem not_endsArgument_lineBreak (ht : token.lexeme = .lineBreak) :
    ¬ token.lexeme.EndsArgument := by
  rw [ht]
  intro h
  rcases h with h | h <;> cases h

theorem not_endsArgument_of_starts (ht : Setting.argument.Starts token.lexeme) :
    ¬ token.lexeme.EndsArgument := by
  intro h
  rcases h with h | h
  · exact ht.2.1 h
  · rw [ht.2.2] at h
    cases h

/-- The expressions of an argument take up all tokens in front of the one at which it stops. -/
theorem Derives.items_fenced {carried : Bool}
    (h : Derives source n (.items .argument carried cursor items next))
    (hc : cursor.Sound source) (hs : stop.lexeme.EndsArgument) (hg : Guarded [] tokens)
    (hr : cursor.rest = tokens ++ stop :: behind) :
    next.rest = stop :: behind ∧ Covers (Token.visible tokens) items := by
  generalize hp : Phrase.items .argument carried cursor items next = phrase at h
  induction h generalizing carried cursor items tokens with
  | itemsEnd hr' =>
    cases hp
    rw [hr] at hr'
    exact absurd hr' (by simp)
  | itemsStop hr' ht =>
    cases hp
    rw [hr] at hr'
    obtain rfl := eq_nil_of_endsArgument hg ht.symm hr'
    exact ⟨hr, .nil⟩
  | itemsBreak _ _ hb =>
    cases hp
    cases hb
  | itemsContinue hr' ht _ _ ih =>
    cases hp
    have hsound := hc.leads (.head hr')
    rw [hr] at hr'
    obtain ⟨more, rfl, rfl⟩ := exists_cons_of_append hs (not_endsArgument_lineBreak ht) hr'
    rw [Token.visible_lineBreak ht]
    exact ih hsound (hg.tail (by rw [ht]; rfl)) rfl rfl
  | @item _ _ token _ _ item mid _ _ _ hr' ht he _ _ ih =>
    cases hp
    have hheads := hc.headsNext hr'
    have hsound := hheads.sound.leads he.leads
    rw [hr] at hr'
    obtain ⟨more, rfl, rfl⟩ := exists_cons_of_append hs (not_endsArgument_of_starts ht) hr'
    obtain ⟨hmid, hhalts⟩ := he.fences stop behind [] ht.2.2 (fun _ => ht.2.1) (.intro hs hg)
    obtain ⟨front, last, hfront, hlast, hb, hend⟩ := hhalts.exists_last ht.1
    have hinfo := he.info_expression hheads hmid.ne_nil
    obtain ⟨_, back, hback, hguard⟩ := hmid
    obtain ⟨hnext, hcovers⟩ := ih hsound hguard hback rfl
    have hmore : more = front ++ back := by
      rw [hback, ← List.append_assoc] at hfront
      exact List.append_cancel_right hfront
    refine ⟨hnext, ?_⟩
    rw [hmore, ← List.cons_append, visible_append]
    exact (covers_expression ht.1 hlast hb (hinfo.trans (by rw [hend]))).append hcovers
  | _ => cases hp

end

theorem ofTokens?_of_last (h : (token :: tokens).getLast? = some last) :
    Span.ofTokens? (token :: tokens) = some ⟨token.span.start, last.span.stop⟩ := by
  simp only [Span.ofTokens?, h]

theorem ofTokens?_append {front back : List Token} (h : Span.ofTokens? back = some span)
    (ht : front ++ back = token :: more) :
    Span.ofTokens? (token :: more) = some ⟨token.span.start, span.stop⟩ := by
  cases back with
  | nil => cases h
  | cons first rest =>
    have hl := List.getLast?_eq_some_getLast (List.cons_ne_nil first rest)
    rw [ofTokens?_of_last hl] at h
    cases h
    apply ofTokens?_of_last
    rw [← ht, List.getLast?_append, hl]
    rfl

/-- Tokens that are an argument, perhaps one with a name. A name alone is none. -/
structure IsArgument (tokens : List Token) : Prop where
  guarded : Guarded [] tokens
  visible : Token.visible tokens ≠ []
  named : ∀ name, (Token.visible tokens).map Token.lexeme ≠ [.identifier name, .operator "="]

/-- The node is an argument that runs from the first to the last of the tokens that is no line
break. -/
def Covering (tokens : List Token) (node : Outline) : Prop :=
  ∃ span name expression, node = .valueArgument span name expression ∧
    Span.ofTokens? (Token.visible tokens) = some span

theorem exists_collapse {tokens : List Token} {items : List Outline} (h : Covers tokens items)
    (hne : tokens ≠ []) :
    ∃ expression, collapse items = some expression ∧
      Span.ofTokens? tokens = some expression.info := by
  obtain ⟨first, rest, rfl⟩ := List.exists_cons_of_ne_nil hne
  have hinfo := h.collapse
  have hl := List.getLast?_eq_some_getLast (List.cons_ne_nil first rest)
  rw [ofTokens?_of_last hl] at hinfo ⊢
  obtain ⟨expression, he, hs⟩ := Option.map_eq_some_iff.1 hinfo
  exact ⟨expression, he, congrArg some hs.symm⟩

section

variable {stop token : Token} {behind rest tokens more : List Token} {cursor next : Cursor}
  {items nodes : List Outline}

theorem covering_argumentOutline (name : Option String) (front : List Token)
    (h : Covers (Token.visible tokens) items) (hne : Token.visible tokens ≠ [])
    (ht : front ++ Token.visible tokens = Token.visible (token :: more))
    (hb : token.lexeme ≠ .lineBreak) :
    ∃ node, ((collapse items).map (argumentOutline token name)).toList = [node] ∧
      Covering (token :: more) node := by
  obtain ⟨expression, hc, hs⟩ := exists_collapse h hne
  rw [Token.visible_cons hb] at ht
  refine ⟨argumentOutline token name expression, by rw [hc]; rfl, _, name, expression, rfl, ?_⟩
  rw [Token.visible_cons hb]
  exact ofTokens?_append hs ht

theorem Covering.lineBreak {node : Outline} (h : Covering tokens node)
    (ht : token.lexeme = .lineBreak) : Covering (token :: tokens) node := by
  obtain ⟨span, name, expression, he, hs⟩ := h
  exact ⟨span, name, expression, he, by rw [Token.visible_lineBreak ht, hs]⟩

/-- What is read of an argument is read up to the token at which it stops. -/
theorem Derives.argument_fenced (h : Derives source n (.valueArguments cursor nodes next))
    (hc : cursor.Sound source) (hs : stop.lexeme.EndsArgument) (ha : IsArgument tokens)
    (hr : cursor.rest = tokens ++ stop :: behind) :
    ∃ argument others mid, nodes = argument :: others ∧ Covering tokens argument ∧
      Derives source n (.valueArguments mid others next) ∧ mid.rest = stop :: behind ∧
        mid.Sound source := by
  generalize hp : Phrase.valueArguments cursor nodes next = phrase at h
  induction h generalizing cursor nodes tokens with
  | argumentsEnd hr' =>
    cases hp
    rw [hr] at hr'
    exact absurd hr' (by simp)
  | argumentsSkip hr' ht _ ih =>
    cases hp
    have hsound := hc.leads (.head hr')
    rw [hr] at hr'
    rcases ht with ht | ht
    · obtain ⟨more, rfl, rfl⟩ := exists_cons_of_append hs (not_endsArgument_lineBreak ht) hr'
      obtain ⟨hguarded, hvisible, hnamed⟩ := ha
      rw [Token.visible_lineBreak ht] at hvisible hnamed
      have hmore : IsArgument more := ⟨hguarded.tail (by rw [ht]; rfl), hvisible, hnamed⟩
      obtain ⟨argument, others, mid, he, hcovers, hfound⟩ := ih hsound hmore rfl rfl
      exact ⟨argument, others, mid, he, hcovers.lineBreak ht, hfound⟩
    · obtain rfl := eq_nil_of_endsArgument ha.guarded (.inl ht) hr'
      exact (ha.visible rfl).elim
  | argumentsClose hr' ht =>
    cases hp
    rw [hr] at hr'
    have hends : Lexeme.EndsArgument _ := .inr (congrArg Lexeme.isClosing ht)
    obtain rfl := eq_nil_of_endsArgument ha.guarded hends hr'
    exact (ha.visible rfl).elim
  | @argument _ _ _ cursor _ _ _ _ hr' ht hi hmore =>
    cases hp
    have hcursor := hr'
    rw [hr] at hr'
    obtain ⟨more, rfl, rfl⟩ := exists_cons_of_append hs (not_endsArgument_of_starts ht) hr'
    rcases readArgumentName_eq cursor with hn | ⟨name, sign, tokens, text, ht', hname, hsign, hn⟩
    · rw [hn] at hi ⊢
      obtain ⟨hrest, hcovers⟩ := hi.items_fenced hc hs ha.guarded hr
      obtain ⟨node, he, hnode⟩ := covering_argumentOutline none [] hcovers ha.visible
        rfl ht.1
      rw [he]
      exact ⟨node, _, _, rfl, hnode, hmore, hrest, hc.leads hi.leads⟩
    · have hsound := hc.leads (readArgumentName_leads cursor)
      rw [hn] at hi hsound ⊢
      rw [ht'] at hcursor
      obtain ⟨rfl, hbehind⟩ := List.cons.inj hcursor
      have hstop : ¬ sign.lexeme.EndsArgument := by
        rw [hsign]
        intro he
        rcases he with he | he
        · exact absurd he (by decide)
        · cases he
      obtain ⟨more, rfl, rfl⟩ := exists_cons_of_append hs hstop hbehind.symm
      have hguard := (ha.guarded.tail (by rw [hname]; rfl)).tail (by rw [hsign]; rfl)
      have hb : sign.lexeme ≠ .lineBreak := by
        rw [hsign]
        exact nofun
      have hv : Token.visible (name :: sign :: more) = [name, sign] ++ Token.visible more := by
        rw [Token.visible_cons ht.1, Token.visible_cons hb]
        rfl
      have hne : Token.visible more ≠ [] := by
        intro he
        apply ha.named text
        rw [hv, he, List.append_nil, List.map_cons, List.map_singleton, hname, hsign]
      obtain ⟨hrest, hcovers⟩ := hi.items_fenced hsound hs hguard rfl
      obtain ⟨node, he, hnode⟩ := covering_argumentOutline (some (bareName text)) _ hcovers hne
        hv.symm ht.1
      rw [he]
      exact ⟨node, _, _, rfl, hnode, hmore, hrest, hsound.leads hi.leads⟩
  | _ => cases hp

end

/-- Arguments with commas between them, perhaps one more comma, and the closing bracket. -/
inductive ArgumentList (close : Token) (behind : List Token) :
    List (List Token) → List Token → Prop where
  | close : ArgumentList close behind [] (close :: behind)
  | last (ha : IsArgument argument) : ArgumentList close behind [argument]
      (argument ++ close :: behind)
  | more (ha : IsArgument argument) (hc : comma.lexeme = .operator ",")
      (h : ArgumentList close behind arguments tokens) :
      ArgumentList close behind (argument :: arguments) (argument ++ comma :: tokens)

section

variable {close opener : Token} {behind tokens : List Token} {arguments : List (List Token)}
  {cursor next : Cursor} {nodes : List Outline}

theorem Derives.arguments_close (h : Derives source n (.valueArguments cursor nodes next))
    (hr : cursor.rest = close :: behind) (ht : close.lexeme = .closing .round) :
    nodes = [] ∧ next = .past close behind := by
  cases h with
  | argumentsEnd hr' =>
    rw [hr] at hr'
    cases hr'
  | argumentsSkip hr' hl =>
    rw [hr] at hr'
    cases hr'
    rw [ht] at hl
    rcases hl with hl | hl <;> cases hl
  | argumentsClose hr' hl =>
    rw [hr] at hr'
    cases hr'
    rw [ht] at hl
    cases hl
    exact ⟨rfl, if_pos rfl⟩
  | argument hr' hs =>
    rw [hr] at hr'
    cases hr'
    have hc := hs.2.2
    rw [ht] at hc
    cases hc

theorem Derives.arguments_comma (h : Derives source n (.valueArguments cursor nodes next))
    (hr : cursor.rest = comma :: tokens) (ht : comma.lexeme = .operator ",") :
    Derives source n (.valueArguments (.past comma tokens) nodes next) := by
  cases h with
  | argumentsEnd hr' =>
    rw [hr] at hr'
    cases hr'
  | argumentsSkip hr' _ h =>
    rw [hr] at hr'
    cases hr'
    exact h
  | argumentsClose hr' hl =>
    rw [hr] at hr'
    cases hr'
    rw [ht] at hl
    cases hl
  | argument hr' hs =>
    rw [hr] at hr'
    cases hr'
    exact (hs.2.1 ht).elim

/-- The arguments that are read are those between the commas, and no token behind the closing
bracket is read. -/
theorem ArgumentList.covering (hl : ArgumentList close behind arguments tokens)
    (ht : close.lexeme = .closing .round)
    (h : Derives source n (.valueArguments cursor nodes next)) (hc : cursor.Sound source)
    (hr : cursor.rest = tokens) :
    List.Forall₂ Covering arguments nodes ∧ next = .past close behind := by
  have hclose : close.lexeme.EndsArgument := .inr (congrArg Lexeme.isClosing ht)
  induction hl generalizing cursor nodes with
  | close =>
    obtain ⟨rfl, hn⟩ := h.arguments_close hr ht
    exact ⟨.nil, hn⟩
  | last ha =>
    obtain ⟨_, _, mid, rfl, hcovers, hmid, hrest, _⟩ := h.argument_fenced hc hclose ha hr
    obtain ⟨rfl, hn⟩ := hmid.arguments_close hrest ht
    exact ⟨.cons hcovers .nil, hn⟩
  | more ha hcomma _ ih =>
    obtain ⟨_, _, mid, rfl, hcovers, hmid, hrest, hsound⟩ :=
      h.argument_fenced hc (.inl hcomma) ha hr
    obtain ⟨hnodes, hn⟩ := ih (hmid.arguments_comma hrest hcomma) (hsound.leads (.head hrest)) rfl
    exact ⟨.cons hcovers hnodes, hn⟩

theorem ArgumentList.exists_named (hl : ArgumentList close behind arguments tokens)
    (ht : close.lexeme = .closing .round) (ho : opener.lexeme = .opening .round)
    (hb : ¬ (Cursor.past close behind).opens .curly)
    (hc : (Cursor.past opener tokens).Sound source) (hn : 2 * tokens.length ≤ n)
    (text : String) (span : Span) :
    ∃ nodes, List.Forall₂ Covering arguments nodes ∧
      Derives source n (.named text span ⟨span.stop, opener :: tokens⟩
        (.call ⟨span.start, close.span.stop⟩ (.identifier span (bareName text)) [] nodes none)
        (.past close behind)) := by
  have hle : tokens.length ≤ n / 2 := by omega
  have hread : (readValueArguments (expressionWithin source n) (.past opener tokens)).isSome :=
    isSome_readValueArguments ((succeeds_of_half source n).1.mono hle)
  obtain ⟨⟨nodes, next⟩, hread⟩ := Option.isSome_iff_exists.1 hread
  have hd := (Level.all source n).valueArguments hread
  obtain ⟨hnodes, rfl⟩ := hl.covering ht hd hc rfl
  refine ⟨nodes, hnodes, .call (readTypeArguments_of_head ?_) (.arguments rfl ho hd) (.noLambda hb)
    rfl⟩
  rintro token ⟨⟩
  rw [ho]
  exact nofun

end

end StateDiagram
