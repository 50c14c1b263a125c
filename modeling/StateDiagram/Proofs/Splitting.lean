import StateDiagram.Proofs.Body
import StateDiagram.Proofs.Segment
import StateDiagram.Proofs.Threshold

namespace StateDiagram

set_option autoImplicit true

/-- Whether the last token that is no line break carries the statement on. -/
def carriesOn (tokens : List Token) : Bool :=
  (Token.visible tokens).getLast?.any (·.lexeme.isCarrying)

/-- A semicolon ends a statement. A line break does, unless the token in front of it or the one
behind it, other line breaks aside, carries the statement on. -/
def Token.endsStatement : Token.Cut := fun front token back =>
  token.lexeme == Setting.statement.separator ||
    token.lexeme.isLineBreak && !carriesOn front && !leadsOn back

/-- The spans of the statements behind `front`, each from the first to the last of its tokens that
is no line break. An empty part has no span. -/
def Token.statementSpans (front tokens : List Token) : List Span :=
  (Token.segments Token.endsStatement front tokens).filterMap fun part =>
    Span.ofTokens? (Token.visible part)

def Unbracketed (tokens : List Token) : Prop := ∀ token ∈ tokens, token.lexeme.isBracket = false

section

variable {token : Token} {tokens front : List Token}

theorem carriesOn_lineBreak (h : token.lexeme = .lineBreak) (front : List Token) :
    carriesOn (front ++ [token]) = carriesOn front := by
  have hv : Token.visible (front ++ [token]) = Token.visible front := by
    rw [visible_append, Token.visible_lineBreak h]
    exact List.append_nil _
  rw [carriesOn, hv, carriesOn]

theorem carriesOn_of_last {last : Token} (hl : tokens.getLast? = some last)
    (hb : last.lexeme ≠ .lineBreak) (front : List Token) :
    carriesOn (front ++ tokens) = last.lexeme.isCarrying := by
  obtain ⟨more, rfl⟩ := List.getLast?_eq_some_iff.1 hl
  have hv :
      Token.visible (front ++ (more ++ [last])) = Token.visible (front ++ more) ++ [last] := by
    rw [← List.append_assoc, visible_append, Token.visible_cons hb]
    rfl
  rw [carriesOn, hv, List.getLast?_concat]
  rfl

theorem not_endsStatement (hs : token.lexeme ≠ Setting.statement.separator)
    (hb : token.lexeme ≠ .lineBreak) (front back : List Token) :
    Token.endsStatement front token back = false := by
  have hl : token.lexeme.isLineBreak = false := by
    rw [← Bool.not_eq_true, Lexeme.isLineBreak_iff]
    exact hb
  rw [Token.endsStatement, beq_eq_false_iff_ne.2 hs, hl]
  rfl

theorem endsStatement_separator (h : token.lexeme = Setting.statement.separator)
    (front back : List Token) : Token.endsStatement front token back = true := by
  rw [Token.endsStatement, h, beq_self_eq_true, Bool.true_or]

theorem endsStatement_lineBreak (h : token.lexeme = .lineBreak) (front back : List Token) :
    Token.endsStatement front token back = (!carriesOn front && !leadsOn back) := by
  rw [Token.endsStatement, h]
  rfl

/-- A line break in front of a statement belongs to it or to none. -/
theorem statementSpans_lineBreak (h : token.lexeme = .lineBreak) (front tokens : List Token) :
    Token.statementSpans front (token :: tokens) =
      Token.statementSpans (front ++ [token]) tokens := by
  rw [Token.statementSpans, Token.segments, Token.statementSpans]
  split
  · rfl
  · cases Token.segments Token.endsStatement (front ++ [token]) tokens with
    | nil => rfl
    | cons segment segments =>
      rw [List.modifyHead_cons, List.filterMap_cons, List.filterMap_cons, Token.visible_lineBreak h]

theorem statementSpans_separator (h : token.lexeme = Setting.statement.separator)
    (front tokens : List Token) :
    Token.statementSpans front (token :: tokens) =
      Token.statementSpans (front ++ [token]) tokens := by
  rw [Token.statementSpans, segments_of_cut (endsStatement_separator h front tokens)]
  rfl

end

namespace Unbracketed

variable {token : Token} {tokens : List Token} {cursor : Cursor}

theorem cons (h : Unbracketed (token :: tokens)) : Unbracketed tokens :=
  (List.forall_mem_cons.1 h).2

theorem of_suffix (h : Unbracketed tokens) (hs : more <:+ tokens) : Unbracketed more :=
  fun token hm => h token (hs.subset hm)

theorem isOpening (h : Unbracketed tokens) : ∀ token ∈ tokens, token.lexeme.isOpening = false := by
  intro token hm
  have hb := h token hm
  cases ht : token.lexeme <;> rw [ht] at hb <;> first | rfl | cases hb

theorem isClosing (h : Unbracketed tokens) : ∀ token ∈ tokens, token.lexeme.isClosing = false :=
  fun token hm => Lexeme.isClosing_of_not_isBracket (h token hm)

theorem endsName (h : Unbracketed cursor.rest) : cursor.EndsName where
  types := by
    cases ht : readTypeArguments cursor with
    | mk types next =>
      cases typesRead ht with
      | none => rfl
      | @list opener inside close rest hl =>
        obtain ⟨bracket, back, rfl, ho⟩ := exists_of_opensCall hl.opens
        have hm : bracket ∈ cursor.rest := by
          rw [hl.rest_eq]
          simp
        have hb := h.isOpening bracket hm
        rcases ho with ho | ho <;> rw [ho] at hb <;> cases hb
  round := Cursor.not_opens (fun token hm => h.isOpening token (List.mem_of_mem_head? hm)) .round
  curly := Cursor.not_opens (fun token hm => h.isOpening token (List.mem_of_mem_head? hm)) .curly

end Unbracketed

theorem leadsOn_breaks {breaks : List Token} {dot : Token}
    (hb : ∀ token ∈ breaks, token.lexeme = .lineBreak) (hd : dot.lexeme.isLeading = true)
    (rest : List Token) : leadsOn (breaks ++ dot :: rest) = true := by
  induction breaks with
  | nil =>
    have hne : dot.lexeme ≠ .lineBreak := by
      intro he
      rw [he] at hd
      cases hd
    rw [List.nil_append, leadsOn_of_ne hne, hd]
  | cons token breaks ih =>
    obtain ⟨ht, hb⟩ := List.forall_mem_cons.1 hb
    rw [List.cons_append, leadsOn_of_lineBreak ht, ih hb]

/-- Line breaks in front of a dot end no statement. -/
theorem uncut_breaks {breaks : List Token} {dot : Token}
    (hb : ∀ token ∈ breaks, token.lexeme = .lineBreak) (hd : dot.lexeme.isLeading = true)
    (front rest : List Token) : Uncut Token.endsStatement front breaks (dot :: rest) := by
  induction breaks generalizing front with
  | nil => exact .nil
  | cons token breaks ih =>
    obtain ⟨ht, hb⟩ := List.forall_mem_cons.1 hb
    refine .cons ?_ (ih hb _)
    rw [endsStatement_lineBreak ht, leadsOn_breaks hb hd, Bool.not_true, Bool.and_false]

theorem Member.Ahead.uncut {member : Member} (h : member.Ahead tokens breaks dot name rest)
    (front : List Token) :
    Uncut Token.endsStatement front (breaks ++ [dot, name]) rest := by
  have hd : dot.lexeme.isLeading = true := by
    rw [h.dot_eq]
    cases member.safe <;> rfl
  have hs : dot.lexeme ≠ Setting.statement.separator := by
    rw [h.dot_eq]
    cases member.safe <;> decide
  have hb : dot.lexeme ≠ .lineBreak := by
    rw [h.dot_eq]
    nofun
  have hn : name.lexeme ≠ Setting.statement.separator ∧ name.lexeme ≠ .lineBreak := by
    rw [h.name_eq]
    exact ⟨nofun, nofun⟩
  apply Uncut.append (uncut_breaks h.breaks_eq hd front (name :: rest))
  apply Uncut.cons (not_endsStatement hs hb _ _)
  exact .cons (not_endsStatement hn.1 hn.2 _ _) .nil

theorem Member.Ahead.unbracketed {member : Member}
    (h : member.Ahead tokens breaks dot name rest) (hb : Unbracketed tokens) :
    Unbracketed member.next.rest := by
  apply hb.of_suffix
  rw [h.next_eq, h.tokens_eq]
  exact ⟨breaks ++ [dot, name], by simp [Cursor.past]⟩

/-- Suffixes in code without brackets are names behind dots. -/
theorem Derives.suffixes_unbracketed
    (h : Derives source n (.suffixes node cursor result next)) (hb : Unbracketed cursor.rest) :
    ∃ passed, cursor.rest = passed ++ next.rest ∧
      (∀ front, Uncut Token.endsStatement front passed next.rest) ∧
      (passed = [] ∧ result = node ∨ ∃ last text, passed.getLast? = some last ∧
        last.lexeme = .identifier text ∧ result.info = ⟨node.info.start, last.span.stop⟩ ∧
        result.isToken = false) := by
  generalize hp : Phrase.suffixes node cursor result next = phrase at h
  induction h generalizing node cursor with
  | noSuffix =>
    cases hp
    exact ⟨[], rfl, fun _ => .nil, .inl ⟨rfl, rfl⟩⟩
  | member hm hn _ _ ih =>
    cases hp
    obtain ⟨breaks, dot, name, rest, ha⟩ := exists_of_memberAhead? hm
    have hrest := ha.unbracketed hb
    obtain ⟨rfl, rfl⟩ := hn.named_of_endsName hrest.endsName
    obtain ⟨passed, hpassed, huncut, hcases⟩ := ih hrest rfl
    rw [ha.next_eq] at hpassed
    obtain rfl : rest = passed ++ _ := hpassed
    refine ⟨breaks ++ [dot, name] ++ passed, ?_, fun front => ?_, .inr ?_⟩
    · rw [ha.tokens_eq]
      simp
    · exact (ha.uncut front).append (huncut _)
    · rcases hcases with ⟨rfl, rfl⟩ | ⟨last, text, hl, ht, hi, hk⟩
      · refine ⟨name, _, ?_, ha.name_eq, ?_, rfl⟩
        · simp
        · rw [ha.span_eq]
          rfl
      · refine ⟨last, text, ?_, ht, hi, hk⟩
        rw [List.getLast?_append, hl]
        rfl
  | index _ hr ht =>
    cases hp
    rw [hr] at hb
    have ho := hb.isOpening _ (List.mem_cons_self ..)
    rw [ht] at ho
    cases ho
  | _ => cases hp

theorem Derives.primary_unbracketed (h : Derives source n (.primary token cursor node next))
    (hb : Unbracketed (token :: cursor.rest)) : next = cursor ∧ node.info = token.span ∧
      (node.isToken && token.lexeme.isCarrying) = token.lexeme.isCarrying := by
  have ho := hb.isOpening token (List.mem_cons_self ..)
  cases h with
  | name ht hn =>
    obtain ⟨rfl, rfl⟩ := hn.named_of_endsName hb.cons.endsName
    rw [ht]
    exact ⟨rfl, rfl, rfl⟩
  | braces ht | brackets ht =>
    rw [ht] at ho
    cases ho
  | string ht =>
    rw [ht]
    exact ⟨rfl, rfl, rfl⟩
  | literal ht =>
    cases hl : token.lexeme <;> rw [hl] at ht <;> first | exact ⟨rfl, rfl, rfl⟩ | cases ht
  | symbol => exact ⟨rfl, rfl, rfl⟩

/-- An expression in code without brackets runs up to a token that is no line break. -/
theorem Derives.expression_unbracketed (h : Derives source n (.expression token cursor node next))
    (hs : Setting.statement.Starts token.lexeme) (hb : Unbracketed (token :: cursor.rest)) :
    ∃ more last, cursor.rest = more ++ next.rest ∧ (token :: more).getLast? = some last ∧
      last.lexeme ≠ .lineBreak ∧ node.info = ⟨token.span.start, last.span.stop⟩ ∧
      (node.isToken && token.lexeme.isCarrying) = last.lexeme.isCarrying ∧
      ∀ front, Uncut Token.endsStatement front (token :: more) next.rest := by
  cases h with
  | expression hp hx =>
    obtain ⟨rfl, hi, hk⟩ := hp.primary_unbracketed hb
    obtain ⟨passed, hpassed, huncut, hcases⟩ := hx.suffixes_unbracketed hb.cons
    have hu (front : List Token) : Uncut Token.endsStatement front (token :: passed) next.rest :=
      .cons (not_endsStatement hs.2.1 hs.1 _ _) (huncut _)
    rcases hcases with ⟨rfl, rfl⟩ | ⟨last, text, hl, ht, hi', hk'⟩
    · exact ⟨[], token, hpassed, rfl, hs.1, hi, hk, hu⟩
    · refine ⟨passed, last, hpassed, ?_, ?_, ?_, ?_, hu⟩
      · rw [List.getLast?_cons, hl]
        rfl
      · rw [ht]
        nofun
      · rw [hi', hi]
      · rw [hk', ht]
        rfl

/-- The items take up the first part of the tokens, and nothing of it is left. -/
def TakesSegment (front tokens rest : List Token) (items : List Outline) : Prop :=
  ∃ passed segments, tokens = passed ++ rest ∧
    Token.segments Token.endsStatement front tokens = passed :: segments ∧
    Token.segments Token.endsStatement (front ++ passed) rest = [] :: segments ∧
    Covers (Token.visible passed) items

namespace TakesSegment

variable {front tokens rest : List Token} {items : List Outline}

theorem stop (h : Token.segments Token.endsStatement front rest = [] :: segments) :
    TakesSegment front rest rest [] :=
  ⟨[], segments, rfl, h, by rw [List.append_nil, h], .nil⟩

theorem prepend (hu : Uncut Token.endsStatement front more tokens)
    (hc : Covers (Token.visible more) nodes) (h : TakesSegment (front ++ more) tokens rest items) :
    TakesSegment front (more ++ tokens) rest (nodes ++ items) := by
  obtain ⟨passed, segments, rfl, hfirst, hbehind, hcovers⟩ := h
  refine ⟨more ++ passed, segments, ?_, segments_of_uncut hu hfirst, ?_, ?_⟩
  · rw [List.append_assoc]
  · rw [← List.append_assoc, hbehind]
  · rw [visible_append]
    exact hc.append hcovers

theorem lineBreak (ht : token.lexeme = .lineBreak)
    (hc : Token.endsStatement front token tokens = false)
    (h : TakesSegment (front ++ [token]) tokens rest items) :
    TakesSegment front (token :: tokens) rest items := by
  have hcovers : Covers (Token.visible [token]) [] := by
    rw [Token.visible_lineBreak ht]
    exact .nil
  exact prepend (.cons hc .nil) hcovers h

end TakesSegment

theorem Derives.items_unbracketed {carried : Bool}
    (h : Derives source n (.items .statement carried cursor items next))
    (hb : Unbracketed cursor.rest) (front : List Token)
    (hc : carried = carriesOn front ∨ ∀ token ∈ cursor.rest.head?, token.lexeme ≠ .lineBreak) :
    TakesSegment front cursor.rest next.rest items := by
  generalize hp : Phrase.items .statement carried cursor items next = phrase at h
  induction h generalizing carried cursor items front with
  | itemsEnd hr =>
    cases hp
    have hs : Token.segments Token.endsStatement front next.rest = [[]] := by
      rw [hr, Token.segments]
    exact .stop hs
  | itemsStop hr ht =>
    cases hp
    rw [hr] at hb ⊢
    apply TakesSegment.stop
    apply segments_of_cut
    rcases ht with ht | ht
    · rw [hb.isClosing _ (List.mem_cons_self ..)] at ht
      cases ht
    · exact endsStatement_separator ht _ _
  | itemsBreak hr ht hs =>
    cases hp
    rw [hr] at hc ⊢
    apply TakesSegment.stop
    apply segments_of_cut
    rw [endsStatement_lineBreak ht]
    rcases hc with rfl | hc
    · simpa using hs
    · exact (hc _ rfl ht).elim
  | itemsContinue hr ht hs _ ih =>
    cases hp
    rw [hr] at hb hc ⊢
    rcases hc with rfl | hc
    · apply TakesSegment.lineBreak ht
      · rw [endsStatement_lineBreak ht]
        cases hcarried : carriesOn front
        · rw [hcarried] at hs
          simpa using hs
        · rfl
      · exact ih hb.cons _ (.inl (carriesOn_lineBreak ht front).symm) rfl
    · exact (hc _ rfl ht).elim
  | item hr ht he hi _ ih =>
    cases hp
    rw [hr] at hb ⊢
    obtain ⟨more, last, hmore, hl, hne, hi, hk, hu⟩ := he.expression_unbracketed ht hb
    have hmid := hb.cons.of_suffix ⟨more, hmore.symm⟩
    have hitems := ih hmid (front ++ _) (.inl (hk.trans (carriesOn_of_last hl hne front).symm)) rfl
    have ha := TakesSegment.prepend (hu front) (covers_expression ht.1 hl hne hi) hitems
    rwa [List.cons_append, ← hmore] at ha
  | _ => cases hp

/-- The statements of code without brackets stand where the parts of its tokens do. -/
theorem Derives.statements_unbracketed
    (h : Derives source n (.statements none cursor nodes next)) (hb : Unbracketed cursor.rest)
    (front : List Token) : nodes.map Node.info = Token.statementSpans front cursor.rest := by
  generalize hp : Phrase.statements none cursor nodes next = phrase at h
  induction h generalizing cursor nodes front with
  | statementsEnd hr =>
    cases hp
    rw [hr]
    rfl
  | statementsSkip hr ht _ ih =>
    cases hp
    rw [hr] at hb ⊢
    rcases ht with ht | ht
    · rw [statementSpans_lineBreak ht]
      exact ih hb.cons _ rfl
    · rw [statementSpans_separator ht]
      exact ih hb.cons _ rfl
  | statementsClose hr ht | stray hr ht =>
    cases hp
    rw [hr] at hb
    have hc := hb.isClosing _ (List.mem_cons_self ..)
    rw [ht] at hc
    cases hc
  | statement hr ht hi _ _ ih =>
    cases hp
    obtain ⟨passed, segments, hpassed, hfirst, hbehind, hcovers⟩ :=
      hi.items_unbracketed hb front (.inr (by
        rw [hr]
        rintro token ⟨⟩
        exact ht.1))
    have hmore := ih (hb.of_suffix ⟨passed, hpassed.symm⟩) (front ++ passed) rfl
    rw [Token.statementSpans, hbehind] at hmore
    rw [Token.statementSpans, hfirst, List.filterMap_cons, ← hcovers.collapse, List.map_append,
      hmore]
    cases collapse _ <;> rfl
  | _ => cases hp

/-- Code without brackets is parsed under any limit above zero. Its statements are the parts between
semicolons and those line breaks that no operator carries a statement over. -/
theorem parse_unbracketed (n : Nat) (text : String)
    (h : Unbracketed (Source.ofString text).tokens) :
    ∃ place statements, SyntaxTree.parse (n + 1) text = .ok (.file place statements) ∧
      statements.map (·.info.span) = Token.statementSpans [] (Source.ofString text).tokens := by
  obtain ⟨tree, threshold, hle, hparse⟩ := (parse_threshold text).1
  have hlimit : threshold ≤ n + 1 := by
    have ho : openings (Source.ofString text).tokens = 0 :=
      List.countP_eq_zero.2 fun token hm => by rw [h.isOpening token hm]; nofun
    omega
  have hp : SyntaxTree.parse (n + 1) text = .ok tree := by
    rw [hparse, if_pos hlimit]
  obtain ⟨outline, ho, rfl⟩ := Source.parse_eq_ok_iff.1 hp
  obtain ⟨nodes, next, rfl, hd⟩ := Source.outline?_eq_some_iff.1 ho
  have hs : nodes.map Node.info = Token.statementSpans [] (Source.ofString text).tokens :=
    hd.statements_unbracketed h []
  rw [Node.map] at hp
  refine ⟨_, _, hp, ?_⟩
  rw [← hs, List.map_map]
  apply List.map_congr_left
  intro node _
  rw [Function.comp_apply, Node.info_map]
  rfl

/-- Dots and operators carry statements over line breaks, a semicolon ends one where it stands, and
a line break between names ends one too. -/
theorem parse_unbracketed_mixed :
    Unbracketed (Source.ofString "a =\n\nb\n  .c; && d\n\ne").tokens ∧
    ∃ place statements,
      SyntaxTree.parse 1 "a =\n\nb\n  .c; && d\n\ne" = .ok (.file place statements) ∧
      statements.map (·.info.span) = [⟨0, 11⟩, ⟨13, 17⟩, ⟨19, 20⟩] := by
  have h : Unbracketed (Source.ofString "a =\n\nb\n  .c; && d\n\ne").tokens := by
    unfold Unbracketed
    decide +kernel
  obtain ⟨place, statements, hp, hs⟩ := parse_unbracketed 0 _ h
  refine ⟨h, place, statements, hp, ?_⟩
  rw [hs]
  decide +kernel

end StateDiagram
