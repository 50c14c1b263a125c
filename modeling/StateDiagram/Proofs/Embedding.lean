import Mathlib.Data.List.Basic
import StateDiagram.Proofs.Composition
import StateDiagram.Proofs.Sealing

namespace StateDiagram

set_option autoImplicit true

/-- The span in a text that has `k` more bytes in front. -/
def Span.shift (k : Nat) (span : Span) : Span := ⟨span.start + k, span.stop + k⟩

def Token.shift (k : Nat) (token : Token) : Token := ⟨token.lexeme, token.span.shift k⟩

theorem Token.lexeme_shift (k : Nat) (token : Token) : (token.shift k).lexeme = token.lexeme := rfl

namespace Cursor

def within (k : Nat) (more : List Token) (cursor : Cursor) : Cursor :=
  ⟨cursor.previousEnd + k, cursor.rest.map (Token.shift k) ++ more⟩

variable {cursor : Cursor} {token : Token} {rest more : List Token} {k : Nat}

theorem within_past : (past token rest).within k more =
    past (token.shift k) (rest.map (Token.shift k) ++ more) := rfl

theorem rest_within_cons (h : cursor.rest = token :: rest) :
    (cursor.within k more).rest = token.shift k :: (rest.map (Token.shift k) ++ more) := by
  rw [within, h, List.map_cons, List.cons_append]

theorem rest_within_nil (h : cursor.rest = []) (hm : more = []) :
    (cursor.within k more).rest = [] := by
  rw [within, h, hm, List.map_nil, List.nil_append]

end Cursor

/-- Whether more text stands behind the source in a whole that has `k` bytes in front of it. -/
def Source.IsFollowed (source whole : Source) (k : Nat) : Prop := whole.size ≠ source.size + k

/-- The source is part of a whole, behind `k` bytes and in front of more tokens. -/
structure Embeds (source whole : Source) (k : Nat) (more : List Token) : Prop where
  slice_eq : ∀ first ∈ source.tokens, ∀ last ∈ source.tokens,
    whole.slice (Span.shift k ⟨first.span.start, last.span.stop⟩) =
      source.slice ⟨first.span.start, last.span.stop⟩
  isFollowed : more ≠ [] → source.IsFollowed whole k
  leadsOn_eq : leadsOn more = false

/-- The tokens are part of the source, and they are sealed if more text stands behind it. -/
structure Confined (source whole : Source) (k : Nat) (opened : List Bracket)
    (tokens : List Token) : Prop where
  subset : tokens ⊆ source.tokens
  closed : source.IsFollowed whole k → Sealed opened tokens

namespace Confined

variable {source whole : Source} {k : Nat} {more tokens rest : List Token}
  {opened inner : List Bracket}

theorem size_eq (h : Confined source whole k opened []) : whole.size = source.size + k := by
  by_contra hm
  exact (h.closed hm).ne_nil rfl

theorem eq_nil (h : Confined source whole k opened []) (he : Embeds source whole k more) :
    more = [] := by
  by_contra hm
  exact he.isFollowed hm h.size_eq

theorem rest_within_nil {cursor : Cursor} (h : Confined source whole k opened cursor.rest)
    (he : Embeds source whole k more) (hr : cursor.rest = []) :
    (cursor.within k more).rest = [] := by
  rw [hr] at h
  exact Cursor.rest_within_nil hr (h.eq_nil he)

theorem isLineBreak_last (tokens : List Token)
    (h : Confined source whole k opened (tokens ++ [token])) (he : Embeds source whole k more)
    (hm : more ≠ []) : token.lexeme = .lineBreak := by
  obtain ⟨last, hl, ht⟩ := (h.closed (he.isFollowed hm)).endsLine
  rw [List.getLast?_concat] at hl
  cases hl
  exact ht

theorem leads (h : Confined source whole k opened tokens) (hs : rest <:+ tokens)
    (hc : Sealed opened tokens → Sealed inner rest) : Confined source whole k inner rest :=
  ⟨List.Subset.trans hs.subset h.subset, fun hm => hc (h.closed hm)⟩

end Confined

section Lookahead

variable {source whole : Source} {more tokens rest : List Token} {k : Nat}
  {opened : List Bracket} {cursor : Cursor}

theorem dropWhile_within (p : Lexeme → Bool) (tokens more : List Token) :
    (tokens.map (Token.shift k) ++ more).dropWhile (p ·.lexeme) =
      if tokens.dropWhile (p ·.lexeme) = [] then more.dropWhile (p ·.lexeme)
      else (tokens.dropWhile (p ·.lexeme)).map (Token.shift k) ++ more := by
  rw [List.dropWhile_append, List.dropWhile_map]
  simp only [List.isEmpty_iff, List.map_eq_nil_iff]
  rfl

theorem leadsOn_within (h : leadsOn more = false) (tokens : List Token) :
    leadsOn (tokens.map (Token.shift k) ++ more) = leadsOn tokens := by
  rw [leadsOn, dropWhile_within, leadsOn]
  rw [leadsOn] at h
  cases tokens.dropWhile (·.lexeme.isLineBreak) with
  | nil => rwa [if_pos rfl]
  | cons token rest => rfl

def Member.within (k : Nat) (more : List Token) (member : Member) : Member :=
  ⟨member.safe, member.text, member.span.shift k, member.next.within k more⟩

theorem memberAhead?_within (he : Embeds source whole k more)
    (h : Confined source whole k opened cursor.rest) :
    memberAhead? (cursor.within k more) = (memberAhead? cursor).map (Member.within k more) := by
  cases hlead : leadsOn cursor.rest with
  | false =>
    have hwithin : leadsOn (cursor.within k more).rest = false := by
      rw [← hlead]
      exact leadsOn_within he.leadsOn_eq cursor.rest
    rw [memberAhead?_of_not_leadsOn hlead, memberAhead?_of_not_leadsOn hwithin]
    rfl
  | true =>
    have hs := List.takeWhile_append_dropWhile (p := (·.lexeme.isLineBreak)) (l := cursor.rest)
    rw [leadsOn] at hlead
    rw [memberAhead?, memberAhead?, Cursor.within]
    dsimp only
    rw [dropWhile_within Lexeme.isLineBreak]
    rcases hr : cursor.rest.dropWhile (·.lexeme.isLineBreak) with _ | ⟨dot, _ | ⟨name, rest⟩⟩
    · rw [hr] at hlead
      cases hlead
    · rw [hr] at hlead hs
      -- A dot is no line break, so nothing stands behind the tokens if it is the last of them.
      have hm : more = [] := by
        by_contra hm
        rw [← hs] at h
        dsimp only at hlead
        rw [h.isLineBreak_last _ he hm] at hlead
        cases hlead
      rw [hm, hr, if_neg (List.cons_ne_nil _ _)]
      rfl
    · rw [hr, if_neg (List.cons_ne_nil _ _)]
      rw [List.map_cons, List.map_cons, List.cons_append, List.cons_append]
      dsimp only
      rw [Token.lexeme_shift k dot, Token.lexeme_shift k name]
      split
      · split
        · rfl
        · split <;> rfl
      · rfl

theorem closeAngle_within (h : more ≠ [] → ∃ token ∈ tokens.getLast?, token.lexeme = .lineBreak)
    (depth : Nat) :
    closeAngle depth (tokens.map (Token.shift k) ++ more) =
      (closeAngle depth tokens).map fun found =>
        (found.1.map (Token.shift k), found.2.1.shift k,
          found.2.2.map (Token.shift k) ++ more) := by
  induction tokens generalizing depth with
  | nil =>
    have hm : more = [] := by
      by_contra hm
      obtain ⟨_, hl, _⟩ := h hm
      cases hl
    rw [hm]
    rfl
  | cons token tokens ih =>
    have htail (hl : token.lexeme ≠ .lineBreak) (hm : more ≠ []) :
        ∃ last ∈ tokens.getLast?, last.lexeme = .lineBreak := by
      obtain ⟨last, hlast, ht⟩ := h hm
      cases tokens with
      | nil =>
        cases hlast
        exact (hl ht).elim
      | cons next tokens => exact ⟨last, by rwa [List.getLast?_cons_cons] at hlast, ht⟩
    rw [List.map_cons, List.cons_append, closeAngle.eq_def,
      closeAngle.eq_def depth (token :: tokens)]
    dsimp only
    rw [Token.lexeme_shift]
    have step (hl : token.lexeme ≠ .lineBreak) (depth : Nat) :
        (closeAngle depth (tokens.map (Token.shift k) ++ more)).map
            (fun found => (token.shift k :: found.1, found.2)) =
          ((closeAngle depth tokens).map fun found => (token :: found.1, found.2)).map
            fun found => (found.1.map (Token.shift k), found.2.1.shift k,
              found.2.2.map (Token.shift k) ++ more) := by
      rw [ih (htail hl), Option.map_map, Option.map_map]
      rfl
    cases ht : token.lexeme with
    | identifier text => exact step (by rw [ht]; rintro ⟨⟩) depth
    | operator text =>
      have hl : token.lexeme ≠ .lineBreak := by rw [ht]; rintro ⟨⟩
      dsimp only
      split
      · exact step hl (depth + 1)
      · split
        · cases depth with
          | zero => rfl
          | succ depth => exact step hl depth
        · split
          · exact step hl depth
          · rfl
    | _ => rfl

theorem typeSegments_shift (depth : Nat) (tokens : List Token) :
    typeSegments depth (tokens.map (Token.shift k)) =
      (typeSegments depth tokens).map (List.map (Token.shift k)) := by
  induction tokens generalizing depth with
  | nil => rfl
  | cons token tokens ih =>
    rw [List.map_cons, typeSegments, typeSegments, Token.lexeme_shift]
    split
    · rw [ih, List.map_cons, List.map_nil]
    · dsimp only
      rw [ih]
      split <;> split <;> simp_all

theorem ofTokens?_shift (tokens : List Token) :
    Span.ofTokens? (tokens.map (Token.shift k)) = (Span.ofTokens? tokens).map (Span.shift k) := by
  cases tokens with
  | nil => rfl
  | cons first rest =>
    rw [List.map_cons, Span.ofTokens?.eq_def, Span.ofTokens?.eq_def, List.getLast?_cons,
      List.getLast?_cons, List.getLast?_map]
    cases rest.getLast? <;> rfl

theorem opensCall_within (h : rest = [] → more = []) :
    opensCall (rest.map (Token.shift k) ++ more) = opensCall rest := by
  cases rest with
  | nil => rw [h rfl]; rfl
  | cons token rest => rfl

theorem touches_within {token : Token} {cursor : Cursor} :
    (token.shift k).span.start = (cursor.within k more).previousEnd ↔
      token.span.start = cursor.previousEnd :=
  Nat.add_right_cancel_iff

theorem typeArgumentTokens?_within (he : Embeds source whole k more)
    (h : Confined source whole k opened cursor.rest) :
    typeArgumentTokens? (cursor.within k more) =
      (typeArgumentTokens? cursor).map fun found =>
        (found.1.map (Token.shift k), found.2.within k more) := by
  rw [typeArgumentTokens?, typeArgumentTokens?]
  cases hr : cursor.rest with
  | nil =>
    rw [h.rest_within_nil he hr]
    rfl
  | cons token rest =>
    rw [Cursor.rest_within_cons hr]
    rw [hr] at h
    have hiff : ((token.shift k).lexeme = .operator "<" ∧
        (token.shift k).span.start = (cursor.within k more).previousEnd) ↔
          token.lexeme = .operator "<" ∧ token.span.start = cursor.previousEnd :=
      and_congr_right fun _ => touches_within
    by_cases ht : token.lexeme = .operator "<" ∧ token.span.start = cursor.previousEnd
    · simp only [if_pos ht, if_pos (hiff.2 ht)]
      have hrest : more ≠ [] → ∃ last ∈ rest.getLast?, last.lexeme = .lineBreak := fun hm =>
        ((h.closed (he.isFollowed hm)).past (by rw [ht.1]; rintro ⟨⟩) (by rw [ht.1]; rfl)).endsLine
      rw [closeAngle_within hrest]
      cases hc : closeAngle 0 rest with
      | none => rfl
      | some found =>
        obtain ⟨inside, close, behind⟩ := found
        have hnil : behind = [] → more = [] := by
          rintro rfl
          by_contra hm
          obtain ⟨last, hl, hlast⟩ := hrest hm
          obtain ⟨rfl, hclose, -⟩ := closeAngle_spec hc
          rw [List.getLast?_concat] at hl
          cases hl
          rw [hclose] at hlast
          cases hlast
        simp only [Option.map_some, opensCall_within hnil]
        cases opensCall behind <;> rfl
    · simp only [if_neg ht, if_neg (mt hiff.1 ht)]
      rfl

theorem readTypeArguments_within (he : Embeds source whole k more)
    (h : Confined source whole k opened cursor.rest) :
    readTypeArguments (cursor.within k more) =
      ((readTypeArguments cursor).1.map (Node.map (Span.shift k)),
        (readTypeArguments cursor).2.within k more) := by
  rw [readTypeArguments, readTypeArguments, typeArgumentTokens?_within he h]
  cases typeArgumentTokens? cursor with
  | none => rfl
  | some found =>
    have hnode : Node.map (Span.shift k) ∘ Node.typeArgument = Node.typeArgument ∘ Span.shift k :=
      funext fun span => by rw [Function.comp_apply, Node.map]; rfl
    have hspan : Span.ofTokens? ∘ List.map (Token.shift k) =
        fun tokens => (Span.ofTokens? tokens).map (Span.shift k) := funext ofTokens?_shift
    rw [Option.map_some]
    dsimp only
    rw [typeSegments_shift, List.filterMap_map, hspan, ← List.map_filterMap, List.map_map,
      List.map_map, hnode]

theorem readArgumentName_within (he : Embeds source whole k more)
    (h : Confined source whole k opened cursor.rest) :
    readArgumentName (cursor.within k more) =
      ((readArgumentName cursor).1, (readArgumentName cursor).2.within k more) := by
  rw [readArgumentName, readArgumentName]
  rcases hr : cursor.rest with _ | ⟨name, _ | ⟨sign, rest⟩⟩
  · rw [h.rest_within_nil he hr]
  · rw [Cursor.rest_within_cons hr]
    rw [hr] at h
    rcases more with _ | ⟨sign, rest⟩
    · rfl
    · have hl := h.isLineBreak_last [] he (List.cons_ne_nil sign rest)
      simp only [List.map_nil, List.nil_append, Token.lexeme_shift, hl]
  · rw [Cursor.rest_within_cons hr]
    rw [List.map_cons, List.cons_append]
    dsimp only
    rw [Token.lexeme_shift k name, Token.lexeme_shift k sign]
    split <;> rfl

theorem slice_ofTokens? (he : Embeds source whole k more) (hs : tokens ⊆ source.tokens) :
    (Span.ofTokens? (tokens.map (Token.shift k))).map whole.slice =
      (Span.ofTokens? tokens).map source.slice := by
  rw [ofTokens?_shift]
  cases tokens with
  | nil => rfl
  | cons first rest =>
    rw [Span.ofTokens?.eq_def, List.getLast?_eq_some_getLast (List.cons_ne_nil first rest)]
    exact congrArg some (he.slice_eq first (hs List.mem_cons_self) _ (hs (List.getLast_mem _)))

theorem ParameterList.within (hl : ParameterList cursor inside arrow rest) (k : Nat)
    (more : List Token) : ParameterList (cursor.within k more) (inside.map (Token.shift k))
      (arrow.shift k) (rest.map (Token.shift k) ++ more) where
  rest_eq := by
    rw [Cursor.within, hl.rest_eq, List.map_append, List.map_cons, List.append_assoc,
      List.cons_append]
  inside_eq := List.forall_mem_map.2 hl.inside_eq
  arrow_eq := hl.arrow_eq

/-- The brace that is still to close a lambda is no parameter. -/
theorem Confined.eq_nil_of_isParameter (h : Confined source whole k (.curly :: opened) tokens)
    (he : Embeds source whole k more) (hp : ∀ token ∈ tokens, token.lexeme.isParameter = true) :
    more = [] := by
  by_contra hm
  have hsealed := h.closed (he.isFollowed hm)
  obtain ⟨token, ht, hc⟩ := Token.exists_closing hsealed.nest List.mem_cons_self
  have hparameter := hp token ht
  rw [hc] at hparameter
  cases hparameter

/-- The arrow behind parameters does not stand in the text behind. -/
theorem ParameterList.exists_of_within (hl : ParameterList (cursor.within k more) inside arrow rest)
    (he : Embeds source whole k more)
    (h : Confined source whole k (.curly :: opened) cursor.rest) :
    ∃ inside arrow rest, ParameterList cursor inside arrow rest := by
  have hr : cursor.rest.map (Token.shift k) ++ more = inside ++ arrow :: rest := hl.rest_eq
  have hnil (hsub : cursor.rest.map (Token.shift k) ⊆ inside) : more = [] :=
    h.eq_nil_of_isParameter he fun token hm =>
      hl.inside_eq (token.shift k) (hsub (List.mem_map_of_mem hm))
  rcases List.append_eq_append_iff.1 hr with ⟨front, hi, hm⟩ | ⟨_ | ⟨other, back⟩, hi, hm⟩
  · rw [hnil (hi ▸ List.subset_append_left ..)] at hm
    exact absurd hm.symm (by simp)
  · rw [hnil (by rw [hi, List.append_nil]; exact List.Subset.refl _)] at hm
    cases hm
  · obtain ⟨rfl, -⟩ := List.cons.inj hm
    obtain ⟨front, behind, hrest, rfl, hbehind⟩ := List.map_eq_append_iff.1 hi
    obtain ⟨found, others, rfl, rfl, -⟩ := List.map_eq_cons_iff.1 hbehind
    exact ⟨front, found, others, hrest, List.forall_mem_map.1 hl.inside_eq, hl.arrow_eq⟩

theorem readParameters_within (he : Embeds source whole k more)
    (h : Confined source whole k (.curly :: opened) cursor.rest) :
    readParameters whole (cursor.within k more) =
      ((readParameters source cursor).1, (readParameters source cursor).2.within k more) := by
  cases hread : readParameters source cursor with
  | mk parameters next =>
    cases parametersRead hread with
    | @list inside arrow rest hl =>
      have hsub : inside.filter (!·.lexeme.isLineBreak) ⊆ source.tokens := fun token hm =>
        h.subset (hl.rest_eq ▸ List.mem_append_left _ (List.mem_of_mem_filter hm))
      have hslice := slice_ofTokens? he hsub
      rw [(hl.within k more).read_eq, List.filter_map, ← hslice]
      rfl
    | none =>
      cases hwhole : readParameters whole (cursor.within k more) with
      | mk names stop =>
        cases parametersRead hwhole with
        | none => rfl
        | list hl =>
          obtain ⟨_, _, _, hfound⟩ := hl.exists_of_within he h
          rw [hfound.read_eq] at hread
          cases hread

theorem skipClosing_within (he : Embeds source whole k more)
    (h : Confined source whole k opened cursor.rest) (bracket : Bracket) :
    (cursor.within k more).skipClosing bracket =
      (cursor.skipClosing bracket).within k more := by
  rw [Cursor.skipClosing, Cursor.skipClosing]
  cases hr : cursor.rest with
  | nil =>
    rw [h.rest_within_nil he hr]
  | cons token rest =>
    rw [Cursor.rest_within_cons hr]
    dsimp only
    rw [Token.lexeme_shift]
    split <;> rfl

theorem nextStart_within (he : Embeds source whole k more)
    (h : Confined source whole k opened cursor.rest) :
    (cursor.within k more).nextStart whole.size = cursor.nextStart source.size + k := by
  rw [Cursor.nextStart, Cursor.nextStart]
  cases hr : cursor.rest with
  | nil =>
    have hend : Confined source whole k opened [] := hr ▸ h
    rw [h.rest_within_nil he hr, hend.size_eq]
  | cons token rest =>
    rw [Cursor.rest_within_cons hr]
    rfl

end Lookahead

end StateDiagram
