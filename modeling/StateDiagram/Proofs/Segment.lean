import StateDiagram.Proofs.Sealing

namespace StateDiagram

set_option autoImplicit true

/-- Whether a token cuts, between the tokens in front of it and those behind it. -/
abbrev Token.Cut := List Token → Token → List Token → Bool

/-- The parts of the tokens behind `front`. A token that cuts is in none of them. -/
def Token.segments (cut : Token.Cut) (front : List Token) : List Token → List (List Token)
  | [] => [[]]
  | token :: rest =>
    if cut front token rest then [] :: segments cut (front ++ [token]) rest
    else (segments cut (front ++ [token]) rest).modifyHead (token :: ·)

/-- None of the tokens between `front` and `back` cuts. -/
inductive Uncut (cut : Token.Cut) : List Token → List Token → List Token → Prop where
  | nil : Uncut cut front [] back
  | cons (hc : cut front token (tokens ++ back) = false)
      (h : Uncut cut (front ++ [token]) tokens back) : Uncut cut front (token :: tokens) back

section

variable {cut : Token.Cut} {front back tokens segment : List Token} {segments : List (List Token)}

theorem Uncut.append (h : Uncut cut front first (second ++ back))
    (hs : Uncut cut (front ++ first) second back) : Uncut cut front (first ++ second) back := by
  induction first generalizing front with
  | nil =>
    rw [List.append_nil] at hs
    exact hs
  | cons token first ih =>
    cases h with
    | cons hc h =>
      rw [List.append_cons] at hs
      have hc' : cut front token (first ++ second ++ back) = false := by
        rw [List.append_assoc]
        exact hc
      exact .cons hc' (ih h hs)

theorem segments_of_cut (h : cut front token tokens = true) :
    Token.segments cut front (token :: tokens) =
      [] :: Token.segments cut (front ++ [token]) tokens := by
  rw [Token.segments, if_pos h]

theorem segments_of_uncut (h : Uncut cut front tokens back)
    (hs : Token.segments cut (front ++ tokens) back = segment :: segments) :
    Token.segments cut front (tokens ++ back) = (tokens ++ segment) :: segments := by
  induction h with
  | nil =>
    rw [List.append_nil] at hs
    exact hs
  | cons hc _ ih =>
    rw [List.append_cons] at hs
    rw [List.cons_append, Token.segments, hc, ih hs]
    rfl

end

theorem visible_append (tokens more : List Token) :
    Token.visible (tokens ++ more) = Token.visible tokens ++ Token.visible more :=
  List.filter_append ..

/-- The nodes run from the first to the last of the tokens. -/
structure Covers (tokens : List Token) (nodes : List Outline) : Prop where
  first : nodes.head?.map (·.info.start) = tokens.head?.map (·.span.start)
  last : nodes.getLast?.map (·.info.stop) = tokens.getLast?.map (·.span.stop)

namespace Covers

variable {tokens : List Token} {nodes : List Outline}

theorem nil : Covers [] [] := ⟨rfl, rfl⟩

theorem append (h : Covers tokens nodes) (hm : Covers more others) :
    Covers (tokens ++ more) (nodes ++ others) where
  first := by
    rw [List.head?_append, List.head?_append, Option.map_or, Option.map_or, h.first, hm.first]
  last := by
    rw [List.getLast?_append, List.getLast?_append, Option.map_or, Option.map_or, h.last, hm.last]

theorem collapse (h : Covers tokens nodes) :
    (StateDiagram.collapse nodes).map Node.info = Span.ofTokens? tokens := by
  obtain ⟨hf, hl⟩ := h
  have hs : (StateDiagram.collapse nodes).map Node.info =
      (nodes.head?.map (·.info.start)).bind fun start =>
        (nodes.getLast?.map (·.info.stop)).map fun stop => ⟨start, stop⟩ := by
    match nodes with
    | [] | [_] => rfl
    | first :: second :: more =>
      rw [List.getLast?_eq_some_getLast (List.cons_ne_nil _ _)]
      rfl
  have ht : Span.ofTokens? tokens = (tokens.head?.map (·.span.start)).bind fun start =>
      (tokens.getLast?.map (·.span.stop)).map fun stop => ⟨start, stop⟩ := by
    cases tokens with
    | nil => rfl
    | cons first more =>
      simp only [Span.ofTokens?, List.getLast?_eq_some_getLast (List.cons_ne_nil first more)]
      rfl
  rw [hs, ht, hf, hl]

end Covers

theorem covers_expression {token last : Token} {more : List Token} {item : Outline}
    (ht : token.lexeme ≠ .lineBreak) (hl : (token :: more).getLast? = some last)
    (hb : last.lexeme ≠ .lineBreak) (hi : item.info = ⟨token.span.start, last.span.stop⟩) :
    Covers (Token.visible (token :: more)) [item] where
  first := by
    rw [Token.visible_cons ht]
    exact congrArg (fun span => some span.start) hi
  last := by
    obtain ⟨front, hf⟩ := List.getLast?_eq_some_iff.1 hl
    have hv : Token.visible (token :: more) = Token.visible front ++ [last] := by
      rw [hf, visible_append, Token.visible_cons hb]
      rfl
    rw [hv, List.getLast?_concat]
    exact congrArg (fun span => some span.stop) hi

end StateDiagram
