import StateDiagram.Syntax.Expression

namespace StateDiagram

set_option autoImplicit true

/-- The cursor stands where it did, or right behind a token that it has passed. -/
inductive Cursor.Leads (cursor : Cursor) : Cursor → Prop where
  | refl : Leads cursor cursor
  | past (hr : cursor.rest = p ++ token :: behind) : Leads cursor (.past token behind)

theorem Cursor.Leads.trans {first second third : Cursor} (h : first.Leads second)
    (hn : second.Leads third) : first.Leads third := by
  cases hn with
  | refl => exact h
  | @past passed token behind hn =>
    cases h with
    | refl => exact .past hn
    | @past ahead dot _ hr =>
      apply Leads.past (p := ahead ++ dot :: passed)
      rw [hr, List.append_assoc, List.cons_append]
      exact congrArg (ahead ++ dot :: ·) hn

theorem Cursor.Leads.head {cursor : Cursor} (hr : cursor.rest = token :: behind) :
    cursor.Leads (.past token behind) := .past (p := []) hr

theorem Cursor.Leads.suffix {cursor next : Cursor} (h : cursor.Leads next) :
    next.rest <:+ cursor.rest := by
  cases h with
  | refl => exact List.suffix_rfl
  | past hr =>
    rw [hr]
    exact (List.suffix_cons ..).trans (List.suffix_append ..)

theorem Lexeme.isLineBreak_iff {lexeme : Lexeme} :
    lexeme.isLineBreak = true ↔ lexeme = .lineBreak := by
  cases lexeme <;> simp [Lexeme.isLineBreak]

/-- What stands in front of a member: line breaks, a dot, and the name that is selected. -/
structure Member.Ahead (member : Member) (tokens breaks : List Token) (dot name : Token)
    (rest : List Token) : Prop where
  tokens_eq : tokens = breaks ++ dot :: name :: rest
  breaks_eq : ∀ token ∈ breaks, token.lexeme = .lineBreak
  dot_eq : dot.lexeme = .operator (if member.safe then "?." else ".")
  name_eq : name.lexeme = .identifier member.text
  span_eq : name.span = member.span
  next_eq : member.next = .past name rest

theorem exists_of_memberAhead? {cursor : Cursor} {member : Member}
    (h : memberAhead? cursor = some member) :
    ∃ breaks dot name rest, member.Ahead cursor.rest breaks dot name rest := by
  have hb : ∀ token ∈ cursor.rest.takeWhile (·.lexeme.isLineBreak),
      token.lexeme = .lineBreak := by
    intro token hm
    have ha := List.all_eq_true.1 (List.all_takeWhile (l := cursor.rest)) token hm
    exact Lexeme.isLineBreak_iff.1 ha
  have hs := List.takeWhile_append_dropWhile (p := (·.lexeme.isLineBreak)) (l := cursor.rest)
  rw [memberAhead?] at h
  split at h
  · next dot name rest hr =>
    rw [hr] at hs
    split at h
    · next text hn =>
      split at h
      · next hd =>
        cases h
        exact ⟨_, dot, name, rest, hs.symm, hb, hd, hn, rfl, rfl⟩
      · split at h
        · next hd =>
          cases h
          exact ⟨_, dot, name, rest, hs.symm, hb, hd, hn, rfl, rfl⟩
        · cases h
    · cases h
  · cases h

theorem Member.Ahead.passed_eq {member : Member} (h : member.Ahead tokens breaks dot name rest) :
    tokens = (breaks ++ [dot]) ++ name :: rest := by
  rw [h.tokens_eq, List.append_assoc, List.singleton_append]

theorem Member.Ahead.leads {cursor : Cursor} {member : Member}
    (h : member.Ahead cursor.rest breaks dot name rest) : cursor.Leads member.next := by
  rw [h.next_eq]
  exact .past h.passed_eq

theorem memberAhead?_suffix {cursor : Cursor} {member : Member}
    (h : memberAhead? cursor = some member) :
    ∃ dot name, dot :: name :: member.next.rest <:+ cursor.rest := by
  obtain ⟨breaks, dot, name, rest, ha⟩ := exists_of_memberAhead? h
  refine ⟨dot, name, ?_⟩
  rw [ha.next_eq, ha.tokens_eq]
  exact List.suffix_append ..

theorem map_closeAngle {depth : Nat} {token : Token} {tokens inside : List Token}
    {behind : Token × List Token}
    (h : (closeAngle depth tokens).map (fun found => (token :: found.1, found.2)) =
      some (inside, behind)) :
    ∃ inside', inside = token :: inside' ∧ closeAngle depth tokens = some (inside', behind) := by
  obtain ⟨found, hf, he⟩ := Option.map_eq_some_iff.1 h
  cases he
  exact ⟨found.1, rfl, hf⟩

/-- A lexeme that may stand in a type argument list. -/
def Lexeme.isTypePart : Lexeme → Bool
  | .identifier _ => true
  | .operator text => text == "<" || text == ">" || typeOperators.contains text
  | _ => false

theorem closeAngle_spec {depth : Nat} {tokens inside rest : List Token} {close : Token}
    (h : closeAngle depth tokens = some (inside, close, rest)) :
    tokens = inside ++ close :: rest ∧ close.lexeme = .operator ">" ∧
      ∀ token ∈ inside, token.lexeme.isTypePart = true := by
  induction tokens generalizing depth inside with
  | nil => cases h
  | cons token tokens ih =>
    have step {depth : Nat} (hp : token.lexeme.isTypePart = true)
        (h : (closeAngle depth tokens).map (fun found => (token :: found.1, found.2)) =
          some (inside, close, rest)) :
        token :: tokens = inside ++ close :: rest ∧ close.lexeme = .operator ">" ∧
          ∀ token ∈ inside, token.lexeme.isTypePart = true := by
      obtain ⟨inside', rfl, hf⟩ := map_closeAngle h
      obtain ⟨rfl, hc, hi⟩ := ih hf
      exact ⟨rfl, hc, List.forall_mem_cons.2 ⟨hp, hi⟩⟩
    rw [closeAngle.eq_def] at h
    dsimp only at h
    split at h
    · next text ht => exact step (by rw [ht]; rfl) h
    · next text ht =>
      split at h
      · next hl =>
        subst hl
        exact step (by rw [ht]; rfl) h
      · split at h
        · next hg =>
          subst hg
          split at h
          · cases h
            exact ⟨rfl, ht, List.forall_mem_nil _⟩
          · exact step (by rw [ht]; rfl) h
        · split at h
          · next ho => exact step (by rw [ht, Lexeme.isTypePart, ho, Bool.or_true]) h
          · cases h
    · cases h

/-- A type argument list that a call follows. -/
structure TypeList (cursor : Cursor) (opener : Token) (inside : List Token) (close : Token)
    (rest : List Token) : Prop where
  rest_eq : cursor.rest = opener :: (inside ++ close :: rest)
  opener_eq : opener.lexeme = .operator "<"
  touches : opener.span.start = cursor.previousEnd
  inside_eq : ∀ token ∈ inside, token.lexeme.isTypePart = true
  close_eq : close.lexeme = .operator ">"
  opens : opensCall rest = true

theorem exists_of_opensCall (h : opensCall tokens = true) :
    ∃ bracket rest, tokens = bracket :: rest ∧
      (bracket.lexeme = .opening .round ∨ bracket.lexeme = .opening .curly) := by
  cases tokens with
  | nil => cases h
  | cons bracket rest =>
    rw [opensCall, Bool.or_eq_true, beq_iff_eq, beq_iff_eq] at h
    exact ⟨bracket, rest, rfl, h⟩

theorem exists_typeList {cursor next : Cursor}
    (h : typeArgumentTokens? cursor = some (inside, next)) :
    ∃ opener close rest, TypeList cursor opener inside close rest ∧ next = .past close rest := by
  rw [typeArgumentTokens?] at h
  split at h
  · cases h
  · next opener more hr =>
    split at h
    · next ho =>
      split at h
      · cases h
      · next inside close rest hc =>
        split at h
        · next hopens =>
          cases h
          obtain ⟨htokens, hclose, hinside⟩ := closeAngle_spec hc
          refine ⟨opener, close, rest, ⟨?_, ho.1, ho.2, hinside, hclose, hopens⟩, rfl⟩
          rw [hr, htokens]
        · cases h
    · cases h

theorem readTypeArguments_of_closeAngle {opener close : Token} {tokens inside rest : List Token}
    {stop : Nat} (ho : opener.lexeme = .operator "<") (ht : opener.span.start = stop)
    (hc : closeAngle 0 tokens = some (inside, close, rest)) (hopens : opensCall rest = true) :
    readTypeArguments ⟨stop, opener :: tokens⟩ =
      (((typeSegments 0 inside).filterMap Span.ofTokens?).map .typeArgument, .past close rest) := by
  have hfound : typeArgumentTokens? ⟨stop, opener :: tokens⟩ = some (inside, .past close rest) := by
    rw [typeArgumentTokens?]
    dsimp only
    rw [if_pos ⟨ho, ht⟩, hc]
    exact if_pos hopens
  rw [readTypeArguments, hfound]

theorem readTypeArguments_of_not_closed {opener : Token} {tokens : List Token} {stop : Nat}
    (h : ∀ inside close rest, closeAngle 0 tokens = some (inside, close, rest) →
      opensCall rest = false) :
    readTypeArguments ⟨stop, opener :: tokens⟩ = ([], ⟨stop, opener :: tokens⟩) := by
  have hnone : typeArgumentTokens? ⟨stop, opener :: tokens⟩ = none := by
    rw [typeArgumentTokens?]
    dsimp only
    split
    · split
      · rfl
      · next inside close rest hc =>
        rw [h inside close rest hc]
        rfl
    · rfl
  rw [readTypeArguments, hnone]

/-- The types that are read at a cursor, and the cursor behind them: those of a list, or none. -/
inductive TypesRead (cursor : Cursor) : List Outline → Cursor → Prop where
  | none : TypesRead cursor [] cursor
  | list (hl : TypeList cursor opener inside close rest) :
      TypesRead cursor (((typeSegments 0 inside).filterMap Span.ofTokens?).map .typeArgument)
        (.past close rest)

theorem typesRead {cursor next : Cursor} {types : List Outline}
    (h : readTypeArguments cursor = (types, next)) : TypesRead cursor types next := by
  rw [readTypeArguments] at h
  cases ht : typeArgumentTokens? cursor with
  | none =>
    rw [ht] at h
    cases h
    exact .none
  | some found =>
    obtain ⟨opener, close, rest, hl, hn⟩ := exists_typeList ht
    rw [ht] at h
    cases h
    rw [hn]
    exact .list hl

theorem exists_typeArgument {cursor next : Cursor} {types : List Outline}
    (h : readTypeArguments cursor = (types, next)) :
    ∀ node ∈ types, ∃ span, node = .typeArgument span := by
  intro node hm
  cases typesRead h with
  | none => cases hm
  | list =>
    obtain ⟨span, _, rfl⟩ := List.mem_map.1 hm
    exact ⟨span, rfl⟩

theorem TypeList.leads {cursor : Cursor} (h : TypeList cursor opener inside close rest) :
    cursor.Leads (.past close rest) := by
  apply Cursor.Leads.past (p := opener :: inside)
  rw [h.rest_eq, List.cons_append]

/-- Parts of some tokens with the commas between them. -/
inductive Joined : List Token → List (List Token) → Prop where
  | last (segment : List Token) : Joined segment [segment]
  | comma (segment : List Token) (hc : comma.lexeme = .operator ",") (h : Joined tokens segments) :
      Joined (segment ++ comma :: tokens) (segment :: segments)

theorem Joined.cons {segment : List Token} (h : Joined tokens (segment :: segments))
    (token : Token) :
    Joined (token :: tokens) ((token :: segment) :: segments) := by
  cases h with
  | last => exact .last _
  | comma _ hc h => exact .comma (token :: segment) hc h

theorem joined_typeSegments (depth : Nat) (tokens : List Token) :
    Joined tokens (typeSegments depth tokens) := by
  induction tokens generalizing depth with
  | nil => exact .last []
  | cons token tokens ih =>
    rw [typeSegments]
    split
    · next hc => exact .comma [] hc.1 (ih 0)
    · dsimp only
      split
      · next hs =>
        have hj := ih (if token.lexeme = .operator "<" then depth + 1
          else if token.lexeme = .operator ">" then depth - 1 else depth)
        rw [hs] at hj
        cases hj
      · next segment segments hs =>
        have hj := ih (if token.lexeme = .operator "<" then depth + 1
          else if token.lexeme = .operator ">" then depth - 1 else depth)
        rw [hs] at hj
        exact hj.cons token

theorem exists_typeSegments (depth : Nat) (tokens : List Token) :
    ∃ segment segments, typeSegments depth tokens = segment :: segments := by
  have hj := joined_typeSegments depth tokens
  cases hs : typeSegments depth tokens with
  | nil =>
    rw [hs] at hj
    cases hj
  | cons segment segments => exact ⟨segment, segments, rfl⟩

theorem readArgumentName_eq (cursor : Cursor) : readArgumentName cursor = (none, cursor) ∨
    ∃ name sign rest text, cursor.rest = name :: sign :: rest ∧
      name.lexeme = .identifier text ∧ sign.lexeme = .operator "=" ∧
      readArgumentName cursor = (some (bareName text), .past sign rest) := by
  rw [readArgumentName]
  split
  · next name sign rest hr =>
    split
    · next text hn hs => exact .inr ⟨name, sign, rest, text, hr, hn, hs, rfl⟩
    · exact .inl rfl
  · exact .inl rfl

theorem readArgumentName_leads (cursor : Cursor) : cursor.Leads (readArgumentName cursor).2 := by
  rcases readArgumentName_eq cursor with h | ⟨name, sign, rest, text, hr, _, _, h⟩
  · rw [h]
    exact .refl
  · rw [h]
    exact .past (p := [name]) hr

/-- The parameters of a lambda, with the arrow behind them. -/
structure ParameterList (cursor : Cursor) (inside : List Token) (arrow : Token)
    (rest : List Token) : Prop where
  rest_eq : cursor.rest = inside ++ arrow :: rest
  inside_eq : ∀ token ∈ inside, token.lexeme.isParameter = true
  arrow_eq : arrow.lexeme = .operator "->"

theorem ParameterList.read_eq {cursor : Cursor} (h : ParameterList cursor inside arrow rest)
    (source : Source) : readParameters source cursor =
      (some (((Span.ofTokens? (inside.filter (!·.lexeme.isLineBreak))).map source.slice).getD ""),
        .past arrow rest) := by
  have ha : ¬ arrow.lexeme.isParameter = true := by
    rw [h.arrow_eq]
    decide
  have hdrop : cursor.rest.dropWhile (·.lexeme.isParameter) = arrow :: rest := by
    rw [h.rest_eq, List.dropWhile_append_of_pos h.inside_eq]
    exact List.dropWhile_cons_of_neg ha
  have htake : cursor.rest.takeWhile (·.lexeme.isParameter) = inside := by
    rw [h.rest_eq, List.takeWhile_append_of_pos h.inside_eq]
    exact (congrArg (inside ++ ·) (List.takeWhile_cons_of_neg ha)).trans (List.append_nil inside)
  rw [readParameters, hdrop, htake]
  exact if_pos h.arrow_eq

/-- The parameters that are read at a cursor, and the cursor behind them: what stands in front of
an arrow, or none. -/
inductive ParametersRead (source : Source) (cursor : Cursor) : Option String → Cursor → Prop where
  | none : ParametersRead source cursor none cursor
  | list (hl : ParameterList cursor inside arrow rest) :
      ParametersRead source cursor
        (some (((Span.ofTokens? (inside.filter (!·.lexeme.isLineBreak))).map source.slice).getD ""))
        (.past arrow rest)

theorem parametersRead {source : Source} {cursor next : Cursor} {parameters : Option String}
    (h : readParameters source cursor = (parameters, next)) :
    ParametersRead source cursor parameters next := by
  have hs := List.takeWhile_append_dropWhile (p := (·.lexeme.isParameter)) (l := cursor.rest)
  rw [readParameters] at h
  split at h
  · cases h
    exact .none
  · next arrow rest hr =>
    split at h
    · next ha =>
      cases h
      rw [hr] at hs
      exact .list ⟨hs.symm, List.all_eq_true.1 List.all_takeWhile, ha⟩
    · cases h
      exact .none

theorem readParameters_leads {source : Source} {cursor next : Cursor}
    {parameters : Option String} (h : readParameters source cursor = (parameters, next)) :
    cursor.Leads next := by
  cases parametersRead h with
  | none => exact .refl
  | list hl => exact .past hl.rest_eq

theorem skipClosing_cases (bracket : Bracket) (cursor : Cursor) :
    cursor.skipClosing bracket = cursor ∨
      ∃ token rest, cursor.rest = token :: rest ∧ token.lexeme = .closing bracket ∧
        cursor.skipClosing bracket = .past token rest := by
  rw [Cursor.skipClosing]
  split
  · exact .inl rfl
  · next token rest hr =>
    split
    · next ht => exact .inr ⟨token, rest, hr, ht, rfl⟩
    · exact .inl rfl

theorem skipClosing_eq {bracket : Bracket} {cursor : Cursor} {token : Token} {rest : List Token}
    (hr : cursor.rest = token :: rest) (ht : token.lexeme = .closing bracket) :
    cursor.skipClosing bracket = .past token rest := by
  rw [Cursor.skipClosing, hr]
  exact if_pos ht

theorem readTypeArguments_leads {cursor next : Cursor} {types : List Outline}
    (h : readTypeArguments cursor = (types, next)) : cursor.Leads next := by
  cases typesRead h with
  | none => exact .refl
  | list hl => exact hl.leads

theorem skipClosing_leads (bracket : Bracket) (cursor : Cursor) :
    cursor.Leads (cursor.skipClosing bracket) := by
  rcases skipClosing_cases bracket cursor with h | ⟨token, rest, hr, _, h⟩
  · rw [h]
    exact .refl
  · rw [h]
    exact .head hr

end StateDiagram
